import Mathlib.Data.List.Forall2
import Llast.CodeGenSteps
import Llast.Surroundings

/-!
# Lexical scoping

At every callback of a walk, `allocaScopeStack_` holds one scope for each open
Block, in nesting order, and each of these scopes was filled when that Block was
entered.  `lookupVariable` therefore resolves a name to the innermost enclosing
Block of the same function that declares it.

The proof follows the frames of the open Blocks: a frame remembers the generator
as it was when the Block was entered.
-/

namespace Llast

open Llast.EventRun
open Llast.CodeGenVisitor

/-! ## The stacks follow the surroundings -/

theorem CodeGenVisitor.Performs.ancestryStack {site : Site}
    {before after : CodeGenVisitor} {around : Surroundings}
    (performs : Performs before site.callback after)
    (follows : before.ancestryStack_ = around.nodes) :
    after.ancestryStack_ = (around.follow site).nodes := by
  rcases site with ⟨path, callback⟩
  cases performs with
  | visitingNode node => simp [Surroundings.follow, follows]
  | visitedNode node inside =>
      simp [Surroundings.follow, ← follows, inside]
  | visitedOutermost node outermost =>
      simp [Surroundings.follow, ← follows, outermost]
  | visitedBinary left right chosen stack =>
      rename_i lValue rValue rest
      cases lValue <;> cases rValue <;> exact follows
  | silent _ notOverridden =>
      cases callback <;> first | exact notOverridden.elim | exact follows
  | _ => exact follows

/-- An open Block, with the generator at the time the Block was entered. -/
structure Frame where
  path : Path
  scope : Scope
  entry : CodeGenVisitor

/-- The scope that entering the Block has pushed. -/
def Frame.allocaScope (frame : Frame) : AllocaScope :=
  declaredScope frame.scope.variables frame.entry.context_.nextAddress []

/-- The Block was entered in the course of these callbacks. -/
structure Frame.EnteredIn (frame : Frame) (past : List Site) : Prop where
  entered : ∃ before expressions after,
    past = before ++ ⟨frame.path, .visitingBlock frame.scope expressions⟩ ::
      after ∧
      run codeGen.performAt before {} = .ok () frame.entry
  faultless : declarationFault frame.scope.variables [] = none

theorem Frame.EnteredIn.later {frame : Frame} {past : List Site}
    (enteredIn : frame.EnteredIn past) (site : Site) :
    frame.EnteredIn (past ++ [site]) := by
  rcases enteredIn.entered with ⟨before, expressions, after, split, reaches⟩
  refine ⟨⟨before, expressions, after ++ [site], ?_, reaches⟩,
    enteredIn.faultless⟩
  rw [split, List.append_assoc, List.cons_append]

/-- The frames of the open Blocks make up the scope stack. -/
structure Framed (past : List Site) (blocks : List (Path × Scope))
    (scopes : List AllocaScope) (frames : List Frame) : Prop where
  blocks_eq : blocks = frames.map fun frame => (frame.path, frame.scope)
  scopes_eq : scopes = frames.map Frame.allocaScope
  enteredIn : ∀ frame ∈ frames, frame.EnteredIn past

/-- A callback that leaves the open Blocks alone leaves the frames alone. -/
private theorem Framed.later {past : List Site}
    {blocks : List (Path × Scope)} {scopes : List AllocaScope}
    {frames : List Frame} (framed : Framed past blocks scopes frames)
    (site : Site) : Framed (past ++ [site]) blocks scopes frames :=
  ⟨framed.blocks_eq, framed.scopes_eq,
    fun frame member => (framed.enteredIn frame member).later site⟩

private theorem framed_step {past : List Site} {site : Site}
    {around : Surroundings} {before after : CodeGenVisitor}
    {frames : List Frame}
    (reaches : run codeGen.performAt past {} = .ok () before)
    (framed : Framed past around.blocks before.allocaScopeStack_ frames)
    (performs : Performs before site.callback after) :
    ∃ frames, Framed (past ++ [site]) (around.follow site).blocks
      after.allocaScopeStack_ frames := by
  rcases site with ⟨path, callback⟩
  cases performs with
  | visitingBlock expressions faultless =>
      rename_i scope
      refine ⟨⟨path, scope, before⟩ :: frames, ?_, ?_, ?_⟩
      · simp [Surroundings.follow, framed.blocks_eq]
      · simp [declared, Frame.allocaScope, framed.scopes_eq]
      · intro frame member
        rcases List.mem_cons.mp member with rfl | member
        · exact ⟨⟨past, expressions, [], rfl, reaches⟩, faultless⟩
        · exact (framed.enteredIn frame member).later _
  | visitedBlock scope expressions scopes =>
      refine ⟨frames.tail, ?_, ?_, ?_⟩
      · simp [Surroundings.follow, framed.blocks_eq, List.map_tail]
      · have popped := congrArg List.tail scopes
        rw [framed.scopes_eq, List.tail_cons, ← List.map_tail] at popped
        exact popped.symm
      · intro frame member
        exact (framed.enteredIn frame (List.mem_of_mem_tail member)).later _
  | visitedBinary left right chosen stack =>
      rename_i lValue rValue rest
      refine ⟨frames, ?_⟩
      cases lValue <;> cases rValue <;> exact framed.later _
  | silent _ notOverridden =>
      refine ⟨frames, ?_⟩
      cases callback <;>
        first | exact notOverridden.elim | exact framed.later _
  | _ => exact ⟨frames, framed.later _⟩

/-- Whatever callbacks have completed, the stacks hold what they left open. -/
theorem stacks_of_run {past : List Site} {visitor : CodeGenVisitor}
    (reaches : run codeGen.performAt past {} = .ok () visitor) :
    visitor.ancestryStack_ =
        (past.foldl Surroundings.follow (Path.surroundings [])).nodes ∧
      ∃ frames, Framed past
        (past.foldl Surroundings.follow (Path.surroundings [])).blocks
        visitor.allocaScopeStack_ frames := by
  induction past using List.reverseRecOn generalizing visitor with
  | nil =>
      cases reaches
      exact ⟨rfl, [], rfl, rfl, by simp⟩
  | append_singleton past site ih =>
      rcases (run_append_eq_ok_iff _).mp reaches with
        ⟨before, reachesBefore, completes⟩
      rw [run_singleton] at completes
      have performs := perform_eq_ok_iff.mp completes
      rcases ih reachesBefore with ⟨nodes, frames, framed⟩
      rw [List.foldl_append, List.foldl_cons, List.foldl_nil]
      exact ⟨performs.ancestryStack nodes,
        framed_step reachesBefore framed performs⟩

/-! ## Reached callbacks -/

/-- The generator has neither an `initialize` nor a `cleanUp` of its own. -/
theorem walkTree_eq_run (owner : Module) (start : CodeGenVisitor) :
    walkTree codeGen owner start =
      run codeGen.performAt owner.sites start := by
  have unfolded : walkTree codeGen owner = walkModule codeGen owner := by
    change (do
      walkModule codeGen owner
      pure () : Visit CodeGenVisitor Unit) = _
    rw [bind_pure_unit]
  rw [unfolded, walkModule_eq_run]

/--
The walk of a module by a fresh `CodeGenVisitor` gets to the callback of a site,
with the visitor in the given state.
-/
abbrev Module.Reaches (owner : Module) (past : List Site) (site : Site)
    (visitor : CodeGenVisitor) : Prop :=
  Reached codeGen.performAt owner.sites {} past site visitor

/--
What holds of a fresh generator and is kept by every callback of the module's walk
holds wherever the walk gets to.
-/
theorem Module.reached_induction {owner : Module}
    {motive : List Site → CodeGenVisitor → Prop}
    (initial : motive [] {})
    (step : ∀ past site before after,
      owner.Reaches past site before → Performs before site.callback after →
        motive past before → motive (past ++ [site]) after)
    {past future : List Site} {visitor : CodeGenVisitor}
    (split : owner.sites = past ++ future)
    (reaches : run codeGen.performAt past {} = .ok () visitor) :
    motive past visitor := by
  refine EventRun.reached_induction initial ?_ split reaches
  intro past site before after reached reacts holds
  exact step past site before after reached (perform_eq_ok_iff.mp reacts) holds

theorem Module.Reaches.ancestryStack {owner : Module} {past : List Site}
    {site : Site} {visitor : CodeGenVisitor}
    (reached : owner.Reaches past site visitor) :
    visitor.ancestryStack_ =
      site.callback.openNode.toList ++ site.path.nodes := by
  rcases reached.occurs with ⟨future, split⟩
  have nodes := (stacks_of_run reached.reaches).1
  rw [owner.surroundings_eq split] at nodes
  exact nodes

theorem Module.Reaches.framed {owner : Module} {past : List Site}
    {site : Site} {visitor : CodeGenVisitor}
    (reached : owner.Reaches past site visitor) :
    ∃ frames, Framed past site.openBlocks visitor.allocaScopeStack_ frames := by
  rcases reached.occurs with ⟨future, split⟩
  have framed := (stacks_of_run reached.reaches).2
  rw [owner.surroundings_eq split] at framed
  exact framed

/-! ## What a name resolves to -/

/--
The alloca was created for a variable of this name when the Block with this path
was entered.
-/
def CreatedOnEntry (past : List Site) (path : Path) (scope : Scope)
    (name : String) (inst : AllocaInst) : Prop :=
  ∃ before expressions after entry inside created,
    past = before ++ ⟨path, .visitingBlock scope expressions⟩ :: after ∧
      run codeGen.performAt before {} = .ok () entry ∧
        codeGen.visitingBlock scope expressions entry = .ok () inside ∧
          inside.module_.instructions =
            entry.module_.instructions ++ created ∧
            ⟨inst.address, entry.block_,
              .alloca inst.allocatedType name⟩ ∈ created

/--
The alloca belongs to the innermost of these Blocks that declares the name, and
has the type of a variable of that name there.
-/
def ResolvesTo (past : List Site) (blocks : List (Path × Scope))
    (name : String) (inst : AllocaInst) : Prop :=
  ∃ inner path scope outer,
    blocks = inner ++ (path, scope) :: outer ∧
      (∀ block ∈ inner, ¬ block.2.Declares name) ∧
        (∃ var ∈ scope.variables, var.name = name ∧
          inst.allocatedType = llvmType var.dataType) ∧
          CreatedOnEntry past path scope name inst

theorem Frame.mem_keys_iff (frame : Frame) (name : String) :
    name ∈ frame.allocaScope.map Prod.fst ↔ frame.scope.Declares name := by
  rw [Frame.allocaScope, declaredScope_keys]
  simp [Scope.Declares]

/-- One alloca for every distinct declared name. -/
theorem Frame.EnteredIn.keys_perm {frame : Frame} {past : List Site}
    (enteredIn : frame.EnteredIn past) :
    (frame.allocaScope.map Prod.fst).Perm
        (frame.scope.variables.map Variable.name) ∧
      (frame.allocaScope.map Prod.fst).Nodup := by
  have keys :
      (frame.allocaScope.map Prod.fst).Perm
        (frame.scope.variables.map Variable.name) := by
    rw [Frame.allocaScope, declaredScope_keys, List.map_nil, List.append_nil]
    exact List.reverse_perm _
  have distinct :=
    (declarationFault_eq_none_iff.mp enteredIn.faultless).1
  exact ⟨keys, keys.nodup_iff.mpr distinct⟩

theorem Frame.EnteredIn.createdOnEntry {frame : Frame} {past : List Site}
    (enteredIn : frame.EnteredIn past) {name : String} {inst : AllocaInst}
    (holds : frame.allocaScope.lookup name = some inst) :
    (∃ var ∈ frame.scope.variables, var.name = name ∧
      inst.allocatedType = llvmType var.dataType) ∧
      CreatedOnEntry past frame.path frame.scope name inst := by
  rcases enteredIn.entered with ⟨before, expressions, after, split, reaches⟩
  have completes :
      CodeGenVisitor.visitingBlock frame.scope expressions frame.entry =
        .ok () (frame.entry.declared frame.scope.variables []
          frame.entry.allocaScopeStack_) :=
    visitingBlock_of_none enteredIn.faultless
  rcases lookup_declaredScope holds with
    ⟨var, member, named, typed, created⟩ | earlier
  · exact ⟨⟨var, member, named, typed⟩, before, expressions, after,
      frame.entry, _, _, split, reaches, completes, rfl, created⟩
  · simp at earlier

theorem Framed.findAlloca_eq_none_iff {past : List Site}
    {blocks : List (Path × Scope)} {scopes : List AllocaScope}
    {frames : List Frame} (framed : Framed past blocks scopes frames)
    (name : String) :
    findAlloca name scopes = none ↔
      ∀ block ∈ blocks, ¬ block.2.Declares name := by
  rw [CodeGenVisitor.findAlloca_eq_none_iff, framed.scopes_eq,
    framed.blocks_eq, List.forall_mem_map, List.forall_mem_map]
  simp only [Frame.mem_keys_iff]

theorem Framed.resolvesTo {past : List Site} {blocks : List (Path × Scope)}
    {scopes : List AllocaScope} {frames : List Frame}
    (framed : Framed past blocks scopes frames) {name : String}
    {inst : AllocaInst} (found : findAlloca name scopes = some inst) :
    ResolvesTo past blocks name inst := by
  rcases findAlloca_eq_some found with
    ⟨inner, holder, outer, split, missing, holds⟩
  rw [framed.scopes_eq, List.map_eq_append_iff] at split
  rcases split with ⟨innerFrames, rest, framesEq, innerEq, restEq⟩
  rw [List.map_eq_cons_iff] at restEq
  rcases restEq with ⟨frame, outerFrames, restEq, holderEq, outerEq⟩
  have member : frame ∈ frames := by simp [framesEq, restEq]
  rw [← holderEq] at holds
  rcases (framed.enteredIn frame member).createdOnEntry holds with
    ⟨declares, created⟩
  refine ⟨innerFrames.map fun frame => (frame.path, frame.scope), frame.path,
    frame.scope, outerFrames.map fun frame => (frame.path, frame.scope),
    ?_, ?_, declares, created⟩
  · rw [framed.blocks_eq, framesEq, restEq, List.map_append, List.map_cons]
  · intro block blockMember
    rcases List.mem_map.mp blockMember with ⟨other, otherMember, rfl⟩
    rw [← Frame.mem_keys_iff]
    exact missing _ (innerEq ▸ List.mem_map_of_mem otherMember)

/-- The callback looks a variable up. -/
def Site.LooksUp (site : Site) (var : Variable) : Prop :=
  site.callback = .visitVariableRef var ∨
    ∃ valueExpr, site.callback = .visitedAssignVariable var valueExpr

theorem Site.LooksUp.openBlocks {site : Site} {var : Variable}
    (looksUp : site.LooksUp var) :
    site.openBlocks = enclosingBlocks site.path := by
  rcases site with ⟨path, callback⟩
  rcases looksUp with same | ⟨valueExpr, same⟩
  · cases same
    rfl
  · cases same
    rfl

/--
Names are scoped lexically at a callback: there is one scope for each open Block, in
nesting order, with one alloca for each name the Block declares, and a variable that
is looked up is the one of the innermost enclosing Block of the function that declares
it, as it was created on entry of that Block; the lookup throws exactly when no
enclosing Block declares the name.
-/
structure LexicallyScoped (past : List Site) (site : Site)
    (visitor : CodeGenVisitor) : Prop where
  scopes : List.Forall₂
    (fun scope (block : Path × Scope) =>
      (scope.map Prod.fst).Perm (block.2.variables.map Variable.name) ∧
        (scope.map Prod.fst).Nodup)
    visitor.allocaScopeStack_ site.openBlocks
  throws : ∀ var, site.LooksUp var →
    (lookupVariable var.name visitor =
        .error (.thrown (notDefined var.name)) visitor ↔
      ∀ block ∈ enclosingBlocks site.path, ¬ block.2.Declares var.name)
  finds : ∀ var, site.LooksUp var →
    ∀ block ∈ enclosingBlocks site.path, block.2.Declares var.name →
      ∃ inst, lookupVariable var.name visitor = .ok inst visitor ∧
        ResolvesTo past (enclosingBlocks site.path) var.name inst

/-- Wherever the walk of a module gets to, names are scoped lexically. -/
theorem lookup_is_lexical {owner : Module} {past : List Site} {site : Site}
    {visitor : CodeGenVisitor} (reached : owner.Reaches past site visitor) :
    LexicallyScoped past site visitor := by
  rcases reached.framed with ⟨frames, framed⟩
  constructor
  · rw [framed.scopes_eq, framed.blocks_eq, List.forall₂_map_left_iff,
      List.forall₂_map_right_iff, List.forall₂_same]
    exact fun frame member => (framed.enteredIn frame member).keys_perm
  · intro var looksUp
    rw [looksUp.openBlocks] at framed
    rw [← framed.findAlloca_eq_none_iff var.name]
    cases found : findAlloca var.name visitor.allocaScopeStack_ with
    | none => simp [lookupVariable_of_none found]
    | some inst => simp [lookupVariable_of_some found]
  · intro var looksUp block member declares
    rw [looksUp.openBlocks] at framed
    cases found : findAlloca var.name visitor.allocaScopeStack_ with
    | none =>
        have missing := (framed.findAlloca_eq_none_iff var.name).mp found
        exact absurd declares (missing block member)
    | some inst =>
        exact ⟨inst, lookupVariable_of_some found, framed.resolvesTo found⟩

/-- `float f() { int x; { float x; return x; } }`. -/
def shadowingModule : Module :=
  let inner : BlockBuilder :=
    (BlockBuilder.addVariable {} ⟨1, "x", .float⟩).addExpression
      (.return (.variableRef ⟨1, "x", .float⟩))
  let outer : BlockBuilder :=
    (BlockBuilder.addVariable {} ⟨0, "x", .int32⟩).addExpression
      (inner.build .insertion)
  let fb : FunctionBuilder :=
    { name_ := "f", returnType_ := .float, blockBuilder_ := outer }
  (ModuleBuilder.addFunction { name_ := "shadowing" }
    (some (fb.build .insertion .insertion))).build

theorem lookup_is_lexical_shadowing :
    ∃ past site visitor, shadowingModule.Reaches past site visitor ∧
      site.LooksUp ⟨1, "x", .float⟩ ∧ LexicallyScoped past site visitor := by
  have completes :
      faultOf (run codeGen.performAt (shadowingModule.sites.take 11) {}) =
        none := by
    decide +kernel
  rcases reached_of_faultOf rfl completes with ⟨visitor, reached⟩
  exact ⟨_, _, visitor, reached, .inl rfl, lookup_is_lexical reached⟩

end Llast
