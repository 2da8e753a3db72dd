import Llast.Emission
import Llast.Rejection
import Llast.Scoping

/-!
# Which variable an access is about

A `VariableRef` and an `AssignVariable` hold a `Variable` object, and their data type
is that of the object.  The generator looks only the name up.  An access is therefore
about the variable that the innermost Block that declares the name declares, and every
alloca was created for one variable only.
-/

namespace Llast

open Llast.EventRun
open Llast.CodeGenVisitor

/-! ## What an alloca was created for -/

/--
The alloca is what the loop of `visitingBlock` created for this variable, in a Block
that was entered in the course of these callbacks.
-/
def CreatedFor (past : List Site) (var : Variable) (inst : AllocaInst) : Prop :=
  ∃ before path scope expressions after entry earlier later created next,
    past = before ++ ⟨path, .visitingBlock scope expressions⟩ :: after ∧
      run codeGen.performAt before {} = .ok () entry ∧
        scope.variables = earlier ++ var :: later ∧
          declareVariables earlier
              { entry with
                allocaScopeStack_ := [] :: entry.allocaScopeStack_ } =
            .ok () created ∧
            createAlloca (llvmType var.dataType) var.name created =
              .ok inst next

/-- Declarations that complete take one address each. -/
theorem declareVariables_nextAddress {vars : List Variable}
    {visitor created : CodeGenVisitor} {topScope : AllocaScope}
    {outer : List AllocaScope}
    (scopes : visitor.allocaScopeStack_ = topScope :: outer)
    (completes : declareVariables vars visitor = .ok () created) :
    created = visitor.declared vars topScope outer := by
  cases faults : declarationFault vars (topScope.map Prod.fst) with
  | none =>
      rw [declareVariables_of_none scopes faults] at completes
      cases completes
      rfl
  | some exception =>
      obtain ⟨final, fails⟩ := declareVariables_of_some scopes faults
      rw [fails] at completes
      cases completes

/-- The address of an alloca tells the Block and the place in its scope. -/
theorem CreatedFor.place {past : List Site} {var : Variable}
    {inst : AllocaInst} (created : CreatedFor past var inst) :
    ∃ before path scope expressions after entry earlier later,
      past = before ++ ⟨path, .visitingBlock scope expressions⟩ :: after ∧
        run codeGen.performAt before {} = .ok () entry ∧
          scope.variables = earlier ++ var :: later ∧
            inst =
              ⟨entry.context_.nextAddress + earlier.length,
                llvmType var.dataType⟩ := by
  rcases created with
    ⟨before, path, scope, expressions, after, entry, earlier, later, middle,
      next, split, reaches, declares, completes, creates⟩
  refine ⟨before, path, scope, expressions, after, entry, earlier, later, split,
    reaches, declares, ?_⟩
  rw [declareVariables_nextAddress rfl completes] at creates
  cases creates
  rfl

/-- Addresses are handed out in increasing order. -/
theorem CodeGenVisitor.Performs.nextAddress_le {before after : CodeGenVisitor}
    {callback : Callback} (performs : Performs before callback after) :
    before.context_.nextAddress ≤ after.context_.nextAddress := by
  by_cases moves : callback.Moves
  · cases performs with
    | visitingFunction mapped inserts => exact Nat.le_refl _
    | visitingModule visitor owner => exact Nat.le_refl _
    | silent visitor notOverridden => exact Nat.le_refl _
    | _ => exact moves.elim
  · exact (performs.emits moves).nextAddress_le

theorem nextAddress_le_of_run {sites : List Site}
    {start final : CodeGenVisitor}
    (completes : run codeGen.performAt sites start = .ok () final) :
    start.context_.nextAddress ≤ final.context_.nextAddress := by
  induction sites generalizing start with
  | nil =>
      cases completes
      exact Nat.le_refl _
  | cons site rest ih =>
      rcases (run_cons_eq_ok_iff _).mp completes with ⟨next, performs, later⟩
      exact (perform_eq_ok_iff.mp performs).nextAddress_le.trans (ih later)

/-! ## An alloca was created for one variable only -/

/-- The addresses of a Block are taken before anything after its entry. -/
theorem nextAddress_of_entered {before between : List Site} {path : Path}
    {scope : Scope} {expressions : List Expr} {entry later : CodeGenVisitor}
    (reaches : run codeGen.performAt before {} = .ok () entry)
    (reachesLater :
      run codeGen.performAt
          (before ++ ⟨path, .visitingBlock scope expressions⟩ :: between) {} =
        .ok () later) :
    entry.context_.nextAddress + scope.variables.length ≤
      later.context_.nextAddress := by
  rw [run_append_of_ok _ reaches] at reachesLater
  rcases (run_cons_eq_ok_iff _).mp reachesLater with ⟨inside, enters, rest⟩
  have performs := perform_eq_ok_iff.mp enters
  have grows := nextAddress_le_of_run rest
  cases performs with
  | visitingBlock _ faultless => exact grows
  | silent _ notOverridden => exact notOverridden.elim

/-- In one walk an address is that of one variable. -/
theorem CreatedFor.unique {owner : Module} {past future other later : List Site}
    (split : owner.sites = past ++ future)
    (otherSplit : owner.sites = other ++ later) {var otherVar : Variable}
    {inst otherInst : AllocaInst} (created : CreatedFor past var inst)
    (otherCreated : CreatedFor other otherVar otherInst)
    (same : inst.address = otherInst.address) :
    var = otherVar := by
  rcases created.place with
    ⟨before, path, scope, expressions, after, entry, earlier, behind, parts,
      reaches, declares, rfl⟩
  rcases otherCreated.place with
    ⟨otherBefore, otherPath, otherScope, otherExpressions, otherAfter,
      otherEntry, otherEarlier, otherBehind, otherParts, otherReaches,
      otherDeclares, rfl⟩
  have inside : earlier.length < scope.variables.length := by
    simp [declares]
  have otherInside : otherEarlier.length < otherScope.variables.length := by
    simp [otherDeclares]
  rw [parts, List.append_assoc, List.cons_append] at split
  rw [otherParts, List.append_assoc, List.cons_append] at otherSplit
  simp only at same
  rcases two_splits split otherSplit with
    ⟨rfl, equal⟩ | ⟨between, rfl⟩ | ⟨between, rfl⟩
  · cases equal
    rw [reaches] at otherReaches
    cases otherReaches
    have index : earlier.length = otherEarlier.length := by omega
    rw [declares] at otherDeclares
    have tails := (List.append_inj otherDeclares index).2
    exact (List.cons.inj tails).1
  · have grows := nextAddress_of_entered reaches otherReaches
    omega
  · have grows := nextAddress_of_entered otherReaches reaches
    omega

/-! ## What a name is looked up as -/

/-- The variable that the innermost of these Blocks that declares the name declares. -/
def declaredVariable (name : String) : List (Path × Scope) → Option Variable
  | [] => none
  | block :: outer =>
      match block.2.variables.find? fun var => var.name = name with
      | some var => some var
      | none => declaredVariable name outer

/-- What a name stands for in a frame was created for a variable of its Block. -/
theorem Frame.EnteredIn.createdFor {frame : Frame} {past : List Site}
    (enteredIn : frame.EnteredIn past) {name : String} {inst : AllocaInst}
    (holds : frame.allocaScope.lookup name = some inst) :
    ∃ var ∈ frame.scope.variables, var.name = name ∧
      CreatedFor past var inst ∧
        getType var.dataType = .ok inst.allocatedType := by
  rcases enteredIn.entered with ⟨before, expressions, after, split, reaches⟩
  have fits := declarationFault_eq_none_iff.mp enteredIn.faultless
  rcases lookup_declaredScope_at holds with
    ⟨earlier, var, later, declares, named, rfl⟩ | none
  · have member : var ∈ frame.scope.variables := by simp [declares]
    have prefixFits : declarationFault earlier [] = none := by
      refine declarationFault_eq_none_iff.mpr ⟨?_, by simp, ?_⟩
      · have names := fits.1
        rw [declares, List.map_append, List.nodup_append'] at names
        exact names.1
      · intro other inside
        exact fits.2.2 other (by simp [declares, inside])
    have completes :=
      @declareVariables_of_none earlier
        { frame.entry with
          allocaScopeStack_ := [] :: frame.entry.allocaScopeStack_ } [] _ rfl
        prefixFits
    exact ⟨var, member, named,
      ⟨before, frame.path, frame.scope, expressions, after, frame.entry, earlier,
        later, _, _, split, reaches, declares, completes, rfl⟩,
      fits.2.2 var member⟩
  · simp at none

/-- A name is looked up as the variable of the innermost Block that declares it. -/
theorem createdFor_of_frames {past : List Site} {frames : List Frame}
    (enteredIn : ∀ frame ∈ frames, frame.EnteredIn past) {name : String}
    {inst : AllocaInst}
    (found : findAlloca name (frames.map Frame.allocaScope) = some inst) :
    ∃ var,
      declaredVariable name
          (frames.map fun frame => (frame.path, frame.scope)) = some var ∧
        CreatedFor past var inst ∧
          getType var.dataType = .ok inst.allocatedType := by
  induction frames with
  | nil => cases found
  | cons frame outer ih =>
      have entered := enteredIn frame List.mem_cons_self
      rw [List.map_cons, findAlloca] at found
      rw [List.map_cons, declaredVariable]
      cases holds : frame.allocaScope.lookup name with
      | some own =>
          rw [holds] at found
          cases found
          obtain ⟨var, member, rfl, created, mapped⟩ := entered.createdFor holds
          have distinct := (declarationFault_eq_none_iff.mp entered.faultless).1
          rw [find?_of_distinct distinct member]
          exact ⟨var, rfl, created, mapped⟩
      | none =>
          rw [holds] at found
          have undeclared :
              frame.scope.variables.find? (fun var => var.name = name) =
                none := by
            rw [List.find?_eq_none]
            intro var member named
            have declares : frame.scope.Declares name :=
              ⟨var, member, of_decide_eq_true named⟩
            have key := lookup_isSome_iff.mpr
              ((frame.mem_keys_iff name).mpr declares)
            rw [holds] at key
            cases key
          rw [undeclared]
          exact ih (fun other member =>
            enteredIn other (List.mem_cons_of_mem _ member)) found

/-! ## Accesses -/

/-- The alloca an instruction reads or writes. -/
def Operation.accessed : Operation → Option AllocaInst
  | .load pointer => some pointer
  | .store _ pointer => some pointer
  | _ => none

/-- The callback emits one instruction, which reads or writes this alloca. -/
def Site.Accesses (site : Site) (visitor : CodeGenVisitor)
    (inst : AllocaInst) : Prop :=
  ∃ next instruction,
    codeGen.performAt site visitor = .ok () next ∧
      next.module_.instructions =
        visitor.module_.instructions ++ [instruction] ∧
        instruction.operation.accessed = some inst

/-- A lookup that completes emits one access to what it has found. -/
theorem Site.LooksUp.emits {site : Site} {var : Variable}
    (looksUp : site.LooksUp var) {visitor next : CodeGenVisitor}
    (performs : Performs visitor site.callback next) :
    ∃ instruction inst,
      next.module_.instructions =
          visitor.module_.instructions ++ [instruction] ∧
        instruction.operation.accessed = some inst ∧
          findAlloca var.name visitor.allocaScopeStack_ = some inst := by
  rcases site with ⟨path, callback⟩
  rcases looksUp with same | ⟨valueExpr, same⟩
  · cases same
    cases performs with
    | visitVariableRef found => exact ⟨_, _, rfl, rfl, found⟩
    | silent _ notOverridden => exact notOverridden.elim
  · cases same
    cases performs with
    | visitedAssignVariable _ found stack => exact ⟨_, _, rfl, rfl, found⟩
    | silent _ notOverridden => exact notOverridden.elim

/-- An access is about what the name is looked up as. -/
theorem Site.LooksUp.accesses_iff {site : Site} {var : Variable}
    (looksUp : site.LooksUp var) {visitor next : CodeGenVisitor}
    (performs : Performs visitor site.callback next) {inst : AllocaInst} :
    site.Accesses visitor inst ↔
      findAlloca var.name visitor.allocaScopeStack_ = some inst := by
  have completes : codeGen.performAt site visitor = .ok () next :=
    perform_eq_ok_iff.mpr performs
  obtain ⟨instruction, used, appended, accessed, found⟩ :=
    looksUp.emits performs
  constructor
  · rintro ⟨other, otherInstruction, otherCompletes, otherAppended, access⟩
    rw [completes] at otherCompletes
    cases otherCompletes
    rw [appended] at otherAppended
    have same := List.append_cancel_left otherAppended
    rw [List.singleton_inj.mp same] at accessed
    rw [found, ← accessed, access]
  · intro looked
    rw [found] at looked
    cases looked
    exact ⟨next, instruction, completes, appended, accessed⟩

/--
Every access to a variable is about the alloca that was created for the very variable
the node holds, of its type, and accesses to two variables are about two allocas.
-/
structure VariablesKept (owner : Module) : Prop where
  own : ∀ past site visitor var, owner.Reaches past site visitor →
    site.LooksUp var → ∃ inst, site.Accesses visitor inst ∧
      CreatedFor past var inst ∧ getType var.dataType = .ok inst.allocatedType
  apart : ∀ past site visitor var inst other otherSite otherVisitor otherVar
    otherInst,
    owner.Reaches past site visitor → site.LooksUp var →
      site.Accesses visitor inst →
        owner.Reaches other otherSite otherVisitor →
          otherSite.LooksUp otherVar →
            otherSite.Accesses otherVisitor otherInst →
              var ≠ otherVar → inst.address ≠ otherInst.address

section Completed

variable {owner : Module} {final : CodeGenVisitor}
variable (completes : walkTree codeGen owner {} = .ok () final)

include completes

/-- A walk that completes gets to every site. -/
theorem Module.performs_of_completes {past future : List Site} {site : Site}
    (split : owner.sites = past ++ site :: future) :
    ∃ visitor next, owner.Reaches past site visitor ∧
      Performs visitor site.callback next := by
  rw [walkTree_eq_run, split] at completes
  rcases (run_append_eq_ok_iff _).mp completes with ⟨visitor, reaches, rest⟩
  rcases (run_cons_eq_ok_iff _).mp rest with ⟨next, performs, -⟩
  exact ⟨visitor, next, ⟨⟨future, split⟩, reaches⟩,
    perform_eq_ok_iff.mp performs⟩

theorem Module.Reaches.performs {past : List Site} {site : Site}
    {visitor : CodeGenVisitor} (reached : owner.Reaches past site visitor) :
    ∃ next, Performs visitor site.callback next := by
  rcases reached.occurs with ⟨future, split⟩
  obtain ⟨again, next, reachedAgain, performs⟩ :=
    Module.performs_of_completes completes split
  have same := reached.reaches.symm.trans reachedAgain.reaches
  cases same
  exact ⟨next, performs⟩

/-- What a node accesses was created for the variable its name is declared as. -/
theorem accesses_declaredVariable {past : List Site} {site : Site}
    {visitor : CodeGenVisitor} (reached : owner.Reaches past site visitor)
    {var : Variable} (looksUp : site.LooksUp var) :
    ∃ inst declared, site.Accesses visitor inst ∧
      declaredVariable var.name (enclosingBlocks site.path) = some declared ∧
        CreatedFor past declared inst ∧
          getType declared.dataType = .ok inst.allocatedType := by
  obtain ⟨next, performs⟩ := reached.performs completes
  obtain ⟨frames, framed⟩ := reached.framed
  rw [looksUp.openBlocks] at framed
  obtain ⟨-, inst, -, -, found⟩ := looksUp.emits performs
  have looked := found
  rw [framed.scopes_eq] at looked
  obtain ⟨declared, stands, created, mapped⟩ :=
    createdFor_of_frames framed.enteredIn looked
  rw [← framed.blocks_eq] at stands
  exact ⟨inst, declared, (looksUp.accesses_iff performs).mpr found, stands,
    created, mapped⟩

/-- A node accesses one alloca only. -/
theorem accesses_unique {past : List Site} {site : Site}
    {visitor : CodeGenVisitor} (reached : owner.Reaches past site visitor)
    {var : Variable} (looksUp : site.LooksUp var) {inst other : AllocaInst}
    (accesses : site.Accesses visitor inst)
    (otherAccesses : site.Accesses visitor other) : inst = other := by
  obtain ⟨next, performs⟩ := reached.performs completes
  have found := (looksUp.accesses_iff performs).mp accesses
  rw [(looksUp.accesses_iff performs).mp otherAccesses] at found
  exact (Option.some_inj.mp found).symm

/-- If variables are kept, every name is declared as the variable of its node. -/
theorem VariablesKept.declared (kept : VariablesKept owner) {site : Site}
    (member : site ∈ owner.sites) {var : Variable}
    (looksUp : site.LooksUp var) :
    declaredVariable var.name (enclosingBlocks site.path) = some var := by
  rcases List.append_of_mem member with ⟨past, future, split⟩
  obtain ⟨visitor, -, reached, -⟩ :=
    Module.performs_of_completes completes split
  obtain ⟨inst, declared, accesses, stands, created, -⟩ :=
    accesses_declaredVariable completes reached looksUp
  obtain ⟨other, otherAccesses, ownCreated, -⟩ :=
    kept.own past site visitor var reached looksUp
  have same :=
    accesses_unique completes reached looksUp accesses otherAccesses
  rw [stands, created.unique split split ownCreated (congrArg _ same)]

/--
Variables are kept apart exactly if, at every node that holds a variable, the
innermost enclosing Block that declares its name declares this very variable.
-/
theorem variables_kept_iff :
    VariablesKept owner ↔
      ∀ site ∈ owner.sites, ∀ var, site.LooksUp var →
        declaredVariable var.name (enclosingBlocks site.path) = some var := by
  constructor
  · intro kept site member var looksUp
    exact kept.declared completes member looksUp
  · intro declares
    have own : ∀ past site visitor var, owner.Reaches past site visitor →
        site.LooksUp var → ∃ inst, site.Accesses visitor inst ∧
          CreatedFor past var inst ∧
            getType var.dataType = .ok inst.allocatedType := by
      intro past site visitor var reached looksUp
      rcases reached.occurs with ⟨future, split⟩
      obtain ⟨inst, declared, accesses, stands, created, mapped⟩ :=
        accesses_declaredVariable completes reached looksUp
      rw [declares site (by simp [split]) var looksUp] at stands
      cases stands
      exact ⟨inst, accesses, created, mapped⟩
    refine ⟨own, ?_⟩
    intro past site visitor var inst other otherSite otherVisitor otherVar
      otherInst reached looksUp accesses otherReached otherLooksUp otherAccesses
      different same
    obtain ⟨mine, mineAccesses, created, -⟩ :=
      own past site visitor var reached looksUp
    obtain ⟨its, itsAccesses, otherCreated, -⟩ :=
      own other otherSite otherVisitor otherVar otherReached otherLooksUp
    rw [accesses_unique completes reached looksUp accesses mineAccesses,
      accesses_unique completes otherReached otherLooksUp otherAccesses
        itsAccesses] at same
    rcases reached.occurs with ⟨future, split⟩
    rcases otherReached.occurs with ⟨later, otherSplit⟩
    exact different (created.unique split otherSplit otherCreated same)

end Completed

theorem variables_kept_shadowing : VariablesKept shadowingModule := by
  have completes :
      faultOf (walkTree codeGen shadowingModule {}) = none := by
    decide +kernel
  obtain ⟨final, walks⟩ := ends_iff.mpr completes
  refine (variables_kept_iff walks).mpr ?_
  simp [shadowingModule, ModuleBuilder.addFunction, ModuleBuilder.build,
    FunctionBuilder.build, BlockBuilder.build, BlockBuilder.addExpression,
    BlockBuilder.addVariable, Module.sites, functionSites, Function.sites,
    Expr.sites, childSites, bracket, Site.LooksUp, enclosingBlocks]
  decide

/-- `float f() { float x; { int x; return x + 1.0f; } }`, with the outer `x` meant. -/
def hiddenModule : Module :=
  let inner : BlockBuilder :=
    (BlockBuilder.addVariable {} ⟨1, "x", .int32⟩).addExpression
      (.return (.binary (.variableRef ⟨0, "x", .float⟩) .add
        (.literalFloat 0x3f800000)))
  let outer : BlockBuilder :=
    (BlockBuilder.addVariable {} ⟨0, "x", .float⟩).addExpression
      (inner.build .insertion)
  let fb : FunctionBuilder :=
    { name_ := "f", returnType_ := .float, blockBuilder_ := outer }
  (ModuleBuilder.addFunction { name_ := "hidden" }
    (some (fb.build .insertion .insertion))).build

/-- The walk completes, and the integer is loaded for the float. -/
theorem hidden_variable_is_not_accessed :
    (∃ final, walkTree codeGen hiddenModule {} = .ok () final) ∧
      ¬ VariablesKept hiddenModule := by
  have completes : faultOf (walkTree codeGen hiddenModule {}) = none := by
    decide +kernel
  obtain ⟨final, walks⟩ := ends_iff.mpr completes
  refine ⟨⟨final, walks⟩, fun kept => ?_⟩
  have place : hiddenModule.sites[13]? =
      some ⟨_, .visitVariableRef ⟨0, "x", .float⟩⟩ := rfl
  have declared := kept.declared walks (List.mem_of_getElem? place) (.inl rfl)
  exact absurd declared (by decide)

end Llast
