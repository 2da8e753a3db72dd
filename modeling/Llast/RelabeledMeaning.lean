import Llast.Pipeline
import Llast.Rejection
import Llast.Relabeling

/-!
# What the relabeled tree means

A relabeled module is rejected where the module is and its functions return what those
of the module return.  Only the name in the message about an undefined variable follows
the relabeling.
-/

namespace Llast

open Llast.EventRun
open Llast.CodeGenVisitor

variable {relabeling : Relabeling}

/-! ## The kinds of the callbacks -/

@[simp]
theorem Site.discards_relabel (site : Site) :
    (site.relabel relabeling).discards = site.discards := by
  rcases site with ⟨path, callback⟩
  cases callback with
  | visitedNode node =>
      simp [Site.discards, Site.relabel, Callback.relabel, Path.relabel]
  | _ => rfl

@[simp]
theorem Site.operands_relabel (site : Site) :
    (site.relabel relabeling).callback.operands = site.callback.operands := by
  rcases site with ⟨path, callback⟩
  cases callback <;> rfl

@[simp]
theorem Site.pushes_relabel (site : Site) :
    (site.relabel relabeling).callback.pushes = site.callback.pushes := by
  rcases site with ⟨path, callback⟩
  cases callback <;> rfl

/-! ## The forecast -/

/-- The same fault, up to the name of the variable it is about. -/
inductive Fault.Renamed (onName : String → String) : Fault → Fault → Prop where
  | same (fault : Fault) : Renamed onName fault fault
  | notDefined (name : String) :
      Renamed onName (.thrown (notDefined name))
        (.thrown (notDefined (onName name)))
  | alreadyDefined (name : String) :
      Renamed onName (.thrown (alreadyDefined name))
        (.thrown (alreadyDefined (onName name)))

theorem Fault.renamed_refl {onName : String → String} (fault : Option Fault) :
    Option.Rel (Fault.Renamed onName) fault fault := by
  cases fault with
  | none => exact .none
  | some fault => exact .some (.same fault)

theorem Fault.Renamed.eq_of_id {fault other : Fault}
    (renamed : fault.Renamed id other) : other = fault := by
  cases renamed <;> rfl

theorem lookupFault_relabel (path : Path) (name : String) :
    Option.Rel (Fault.Renamed relabeling.onName) (lookupFault path name)
      (lookupFault (Path.relabel relabeling path) (relabeling.onName name)) := by
  have visible :
      (∃ block ∈ enclosingBlocks (Path.relabel relabeling path),
        block.2.Declares (relabeling.onName name)) ↔
          ∃ block ∈ enclosingBlocks path, block.2.Declares name := by
    rw [enclosingBlocks_relabel]
    simp
  rw [lookupFault, lookupFault]
  simp only [visible]
  split
  · exact .none
  · exact .some (.notDefined name)

/-- With distinct names, the order of the declarations does not decide what fails. -/
theorem declarationFault_relabel {scope : Scope}
    (distinct : (scope.variables.map Variable.name).Nodup) :
    declarationFault (relabeling.onScope scope).variables [] =
      declarationFault scope.variables [] := by
  have stillDistinct :
      ((relabeling.onScope scope).variables.map Variable.name).Nodup :=
    (relabeling.names_perm scope).nodup_iff.mpr
      (distinct.map relabeling.injective)
  have unmapped :
      (∃ var ∈ (relabeling.onScope scope).variables,
        ∀ type, getType var.dataType ≠ .ok type) ↔
          ∃ var ∈ scope.variables, ∀ type, getType var.dataType ≠ .ok type := by
    have types := fun dataType =>
      @List.Perm.mem_iff _ dataType _ _ (relabeling.types_perm scope)
    simp only [List.mem_map] at types
    constructor
    · rintro ⟨var, member, unmapped⟩
      obtain ⟨other, present, same⟩ := (types var.dataType).mp ⟨var, member, rfl⟩
      exact ⟨other, present, by rwa [same]⟩
    · rintro ⟨var, member, unmapped⟩
      obtain ⟨other, present, same⟩ := (types var.dataType).mpr ⟨var, member, rfl⟩
      exact ⟨other, present, by rwa [same]⟩
  apply Option.ext
  intro exception
  rw [declarationFault_eq_some_iff stillDistinct (by simp),
    declarationFault_eq_some_iff distinct (by simp), unmapped]

theorem enterFunction_relabel (entered : List Function) (site : Site) :
    enterFunction (entered.map (Function.relabel relabeling))
        (site.relabel relabeling) =
      (enterFunction entered site).map (Function.relabel relabeling) := by
  rcases site with ⟨path, callback⟩
  cases callback with
  | visitingFunction func =>
      simp [enterFunction, Site.relabel, Callback.relabel]
  | _ => rfl

theorem enteredFunctions_relabel (past : List Site) :
    enteredFunctions (past.map (Site.relabel relabeling)) =
      (enteredFunctions past).map (Function.relabel relabeling) := by
  induction past using List.reverseRecOn with
  | nil => rfl
  | append_singleton past site ih =>
      have entered : ∀ (sites : List Site) (last : Site),
          enteredFunctions (sites ++ [last]) =
            enterFunction (enteredFunctions sites) last := by
        intro sites last
        rw [enteredFunctions, List.foldl_append]
        rfl
      rw [List.map_append, List.map_singleton, entered, entered, ih,
        enterFunction_relabel]

theorem functionFault_relabel (entered : List Function) (func : Function) :
    functionFault (entered.map (Function.relabel relabeling))
        (func.relabel relabeling) =
      functionFault entered func := by
  have clash : ∀ returnType : LlvmType,
      (∃ earlier ∈ entered.map (Function.relabel relabeling),
        earlier.name = (func.relabel relabeling).name ∧
          llvmType earlier.returnType ≠ returnType) ↔
        ∃ earlier ∈ entered, earlier.name = func.name ∧
          llvmType earlier.returnType ≠ returnType := by
    intro returnType
    simp [Function.relabel]
  rw [functionFault, functionFault]
  simp only [clash]
  rfl

theorem valuesAfter_relabel (past : List Site) :
    valuesAfter (past.map (Site.relabel relabeling)) = valuesAfter past := by
  rw [valuesAfter, List.foldl_map, valuesAfter]
  simp only [Site.onHeight, Site.discards_relabel, Site.operands_relabel,
    Site.pushes_relabel]
  rfl

/-- A Block that is entered declares variables of distinct names. -/
def Callback.DeclaresDistinct : Callback → Prop
  | .visitingBlock scope _ => (scope.variables.map Variable.name).Nodup
  | _ => True

/-- Every Block of the module declares variables of distinct names. -/
def Module.DeclaresDistinct (owner : Module) : Prop :=
  ∀ site ∈ owner.sites, site.callback.DeclaresDistinct

theorem Module.BlocksBuilt.declaresDistinct {owner : Module}
    (built : owner.BlocksBuilt) : owner.DeclaresDistinct := by
  rintro ⟨path, callback⟩ member
  cases callback with
  | visitingBlock scope expressions =>
      exact (built path scope expressions member).distinctNames
  | _ => trivial

theorem Callback.declaresDistinct_relabel (callback : Callback) :
    (callback.relabel relabeling).DeclaresDistinct ↔
      callback.DeclaresDistinct := by
  cases callback with
  | visitingBlock scope expressions =>
      exact (relabeling.names_perm scope).nodup_iff.trans
        (List.nodup_map_iff relabeling.injective)
  | _ => exact Iff.rfl

theorem Module.declaresDistinct_relabel (owner : Module) :
    (owner.relabel relabeling).DeclaresDistinct ↔ owner.DeclaresDistinct := by
  simp only [Module.DeclaresDistinct, Module.sites_relabel, List.forall_mem_map,
    Site.relabel, Callback.declaresDistinct_relabel]

/-- What a callback ends in follows the relabeling. -/
theorem predictedFault_relabel {past : List Site} {site : Site}
    (distinct : site.callback.DeclaresDistinct) :
    Option.Rel (Fault.Renamed relabeling.onName) (predictedFault past site)
      (predictedFault (past.map (Site.relabel relabeling))
        (site.relabel relabeling)) := by
  have before : Option.Rel (Fault.Renamed relabeling.onName)
      (faultBeforeStack past site)
      (faultBeforeStack (past.map (Site.relabel relabeling))
        (site.relabel relabeling)) := by
    rcases site with ⟨path, callback⟩
    cases callback with
    | visitingBlock scope expressions =>
        simp only [faultBeforeStack, Site.relabel, Callback.relabel,
          declarationFault_relabel distinct]
        exact Fault.renamed_refl _
    | visitVariableRef var =>
        simp only [faultBeforeStack, Site.relabel, Callback.relabel,
          relabeling.named]
        exact lookupFault_relabel path var.name
    | visitedAssignVariable var valueExpr =>
        simp only [faultBeforeStack, Site.relabel, Callback.relabel,
          relabeling.named]
        exact lookupFault_relabel path var.name
    | visitedBinary lValue operation rValue =>
        simp only [faultBeforeStack, Site.relabel, Callback.relabel, operandFault,
          Expr.dataType_relabel]
        exact Fault.renamed_refl _
    | visitingFunction func =>
        simp only [faultBeforeStack, Site.relabel, Callback.relabel,
          enteredFunctions_relabel, functionFault_relabel]
        exact Fault.renamed_refl _
    | _ => exact Fault.renamed_refl _
  have afterwards : faultAfterStack (site.relabel relabeling) =
      faultAfterStack site := by
    rcases site with ⟨path, callback⟩
    cases callback with
    | visitedBinary lValue operation rValue =>
        simp only [faultAfterStack, Site.relabel, Callback.relabel, operationFault,
          Expr.dataType_relabel]
    | _ => rfl
  rw [predictedFault, predictedFault, valuesAfter_relabel, Site.operands_relabel,
    afterwards]
  generalize faultBeforeStack past site = fault at before ⊢
  generalize faultBeforeStack (past.map (Site.relabel relabeling))
    (site.relabel relabeling) = other at before ⊢
  cases before with
  | none => exact Fault.renamed_refl _
  | some renamed => exact .some renamed

/-- A relabeled module is rejected where the module is, and for the same reason. -/
theorem Module.forecast_relabel {owner : Module} (distinct : owner.DeclaresDistinct) :
    Option.Rel (Fault.Renamed relabeling.onName) owner.forecast
      (owner.relabel relabeling).forecast := by
  rw [Module.forecast, Module.forecast, Module.sites_relabel]
  refine firstFault_related [] owner.sites fun before site after split => ?_
  apply predictedFault_relabel
  rw [List.nil_append] at split
  exact distinct site (by simp [split])

/-! ## The types at which values are used -/

/-- The Blocks around a callback of a tree are around the tree or belong to it. -/
theorem Expr.enclosingBlocks_of_mem_sites (expr : Expr) {path : Path} {site : Site}
    (member : site ∈ expr.sites path) {block : Path × Scope}
    (encloses : block ∈ enclosingBlocks site.path) :
    block ∈ enclosingBlocks path ∨
      ∃ place expressions,
        ⟨place, .visitingBlock block.2 expressions⟩ ∈ expr.sites path := by
  induction expr using Expr.children_induction generalizing path with
  | step expr ih =>
      rcases Expr.mem_sites.mp member with ⟨same, -⟩ | ⟨child, inside, member⟩
      · rw [same] at encloses
        exact .inl encloses
      · rcases ih child inside member with around | ⟨place, expressions, below⟩
        · cases expr with
          | block scope expressions =>
              rcases List.mem_cons.mp around with rfl | outer
              · exact .inr ⟨path, expressions, Expr.mem_sites.mpr (.inl ⟨rfl, by
                  simp [Expr.ownCallbacks, Expr.isNull, bracketCallbacks,
                    Expr.opening]⟩)⟩
              · exact .inl outer
          | _ => exact .inl around
        · exact .inr ⟨place, expressions,
            Expr.mem_sites.mpr (.inr ⟨child, inside, below⟩)⟩

/-- The Blocks around a place declare variables of distinct names. -/
def Site.InDistinctBlocks (site : Site) : Prop :=
  ∀ block ∈ enclosingBlocks site.path, (block.2.variables.map Variable.name).Nodup

/-- What encloses a callback of a module was entered in the course of the module. -/
theorem Module.DeclaresDistinct.enclosing {owner : Module}
    (distinct : owner.DeclaresDistinct) {site : Site} (member : site ∈ owner.sites) :
    site.InDistinctBlocks := by
  intro block encloses
  rcases Module.mem_sites member with
    ⟨outermost, -⟩ | ⟨child, -, same⟩ | ⟨child, func, place, ⟨here, -⟩ | inBody⟩
  · rw [outermost] at encloses
    cases encloses
  · rw [same] at encloses
    cases encloses
  · rw [here] at encloses
    cases encloses
  · rcases func.body.enclosingBlocks_of_mem_sites inBody encloses with
      around | ⟨opens, expressions, entered⟩
    · cases around
    · refine distinct ⟨opens, .visitingBlock block.2 expressions⟩ ?_
      rw [Module.sites_around place]
      exact List.mem_append_right _ (List.mem_cons_of_mem _ (List.mem_cons_of_mem _
        (List.mem_append_left _ entered)))

theorem resolvedType_relabel {path : Path}
    (distinct : ∀ block ∈ enclosingBlocks path,
      (block.2.variables.map Variable.name).Nodup) (name : String) :
    resolvedType (Path.relabel relabeling path) (relabeling.onName name) =
      resolvedType path name := by
  rw [resolvedType, resolvedType, enclosingBlocks_relabel, List.find?_map]
  simp only [Function.comp_def, Scope.declares_relabel]
  cases found : (enclosingBlocks path).find? fun block => block.2.Declares name with
  | none => rfl
  | some block =>
      have once := distinct block (List.mem_of_find?_eq_some found)
      have declares : block.2.Declares name := by simpa using List.find?_some found
      rcases declares with ⟨var, member, rfl⟩
      have onceRelabeled :
          ((relabeling.onScope block.2).variables.map Variable.name).Nodup :=
        (relabeling.names_perm block.2).nodup_iff.mpr (once.map relabeling.injective)
      have declared : relabeling.onVariable var ∈
          (relabeling.onScope block.2).variables :=
        (relabeling.declared block.2).mem_iff.mpr (List.mem_map_of_mem member)
      have stands := find?_of_distinct onceRelabeled declared
      rw [relabeling.named] at stands
      simp only [Option.map_some, stands, find?_of_distinct once member,
        relabeling.typed]

theorem enclosingFunction_relabel (path : Path) :
    enclosingFunction (Path.relabel relabeling path) =
      (enclosingFunction path).map (Function.relabel relabeling) := by
  induction path with
  | nil => rfl
  | cons step outer ih =>
      rcases step with ⟨node, child⟩
      cases node with
      | function func => rfl
      | expr expression => exact ih
      | module owner => exact ih

theorem operandType_relabel (rValue : Expr) :
    operandType (rValue.relabel relabeling) = operandType rValue := by
  rw [operandType, operandType, Expr.dataType_relabel]

theorem Site.usedAt_relabel {site : Site} (distinct : site.InDistinctBlocks) :
    (site.relabel relabeling).usedAt = site.usedAt := by
  rcases site with ⟨path, callback⟩
  cases callback with
  | visitedAssignVariable var valueExpr =>
      simp only [Site.usedAt, Site.relabel, Callback.relabel, relabeling.named,
        resolvedType_relabel distinct]
  | visitedBinary lValue operation rValue =>
      simp only [Site.usedAt, Site.relabel, Callback.relabel, operandType_relabel]
  | visitedReturn valueExpr =>
      simp only [Site.usedAt, Site.relabel, Callback.relabel,
        enclosingFunction_relabel, Option.map_map]
      rfl
  | _ => rfl

theorem Site.kindsFit_relabel {site : Site} (distinct : site.InDistinctBlocks)
    (kinds : List Kind) :
    (site.relabel relabeling).KindsFit kinds ↔ site.KindsFit kinds := by
  rw [Site.KindsFit, Site.KindsFit, site.usedAt_relabel distinct]

theorem Site.kind_relabel {site : Site} (distinct : site.InDistinctBlocks)
    (kinds : List Kind) :
    (site.relabel relabeling).kind kinds = site.kind kinds := by
  rcases site with ⟨path, callback⟩
  cases callback with
  | visitVariableRef var =>
      simp only [Site.kind, Site.relabel, Callback.relabel, relabeling.named,
        resolvedType_relabel distinct]
  | visitedBinary lValue operation rValue =>
      rcases kinds with _ | ⟨rhs, _ | ⟨lhs, rest⟩⟩ <;>
        simp only [Site.kind, Site.relabel, Callback.relabel, operandType_relabel]
  | _ => rfl

/-! ## The evaluation -/

/-- The frames hold the same under corresponding names. -/
def Environment.Renamed (onName : String → String) (env other : Environment) :
    Prop :=
  List.Forall₂ (fun frame otherFrame => ∀ name, otherFrame (onName name) = frame name)
    env other

theorem Environment.Renamed.read {onName : String → String}
    {env other : Environment} (renamed : env.Renamed onName other)
    (name : String) : other.read (onName name) = env.read name := by
  induction renamed with
  | nil => rfl
  | cons same rest ih => rw [Environment.read, Environment.read, same, ih]

theorem Environment.Renamed.assign {onName : String → String}
    (injective : Function.Injective onName) {env other : Environment}
    (renamed : env.Renamed onName other) (name : String) (datum : Datum) :
    Option.Rel (Environment.Renamed onName) (env.assign name datum)
      (other.assign (onName name) datum) := by
  induction renamed with
  | nil => exact .none
  | cons same rest ih =>
      rename_i frame otherFrame env other
      rw [Environment.assign, Environment.assign, same]
      cases frame name with
      | some old =>
          refine .some (.cons (fun later => ?_) rest)
          by_cases equal : later = name
          · rw [equal, Function.update_self, Function.update_self]
          · rw [Function.update_of_ne equal,
              Function.update_of_ne (injective.ne equal), same]
      | none =>
          dsimp only
          generalize Environment.assign name datum env = assigned at ih ⊢
          generalize Environment.assign (onName name) datum other =
            otherAssigned at ih ⊢
          cases ih with
          | none => exact .none
          | some later => exact .some (.cons same later)

theorem Environment.declare_relabel (scope : Scope) (name : String) :
    Environment.declare (relabeling.onScope scope) (relabeling.onName name) =
      Environment.declare scope name := by
  rw [Environment.declare, Environment.declare]
  simp only [Scope.declares_relabel]

/-- The evaluations agree, each in the names of its tree. -/
structure Evaluation.Renamed (onName : String → String)
    (evaluation other : Evaluation) : Prop where
  running : other.running = evaluation.running
  worths : other.worths = evaluation.worths
  env : evaluation.env.Renamed onName other.env

section Step

variable (arith : FloatArith)

theorem Worth.operate_relabel (operation : OperationKind) (rValueExpr : Expr)
    (lhs rhs : Worth) :
    Worth.operate arith operation (rValueExpr.relabel relabeling) lhs rhs =
      Worth.operate arith operation rValueExpr lhs rhs := by
  rw [Worth.operate, Worth.operate, Expr.dataType_relabel]

theorem Site.datum_relabel {env other : Environment}
    (renamed : env.Renamed relabeling.onName other) (site : Site)
    (worths : List Worth) :
    (site.relabel relabeling).datum arith other worths =
      site.datum arith env worths := by
  rcases site with ⟨path, callback⟩
  cases callback with
  | visitVariableRef var =>
      simp only [Site.datum, Site.relabel, Callback.relabel, relabeling.named,
        renamed.read]
  | visitedBinary lValue operation rValue =>
      rcases worths with _ | ⟨rhs, _ | ⟨lhs, rest⟩⟩ <;>
        simp only [Site.datum, Site.relabel, Callback.relabel,
          Worth.operate_relabel]
  | _ => rfl

theorem Site.worth_relabel {env other : Environment}
    (renamed : env.Renamed relabeling.onName other) {site : Site}
    (distinct : site.InDistinctBlocks) (worths : List Worth) :
    (site.relabel relabeling).worth arith other worths =
      site.worth arith env worths := by
  rw [Site.worth, Site.worth, site.kind_relabel distinct,
    site.datum_relabel arith renamed]

theorem Site.assignment_relabel {site : Site} (distinct : site.InDistinctBlocks)
    (worths : List Worth) :
    (site.relabel relabeling).assignment worths =
      (site.assignment worths).map (Prod.map relabeling.onName id) := by
  have fits := @Site.kindsFit_relabel relabeling site distinct (worths.map Worth.kind)
  rcases site with ⟨path, callback⟩
  cases callback with
  | visitedAssignVariable var valueExpr =>
      cases worths with
      | nil => rfl
      | cons value rest =>
          simp only [Site.assignment, Site.relabel, Callback.relabel,
            relabeling.named] at fits ⊢
          simp only [fits]
          split
          · rw [Option.map_map]
            rfl
          · rfl
  | _ => rfl

theorem Site.goesOn_relabel {site : Site} (distinct : site.InDistinctBlocks)
    (worths : List Worth) :
    (site.relabel relabeling).goesOn arith worths = site.goesOn arith worths := by
  have assigns := @Site.assignment_relabel relabeling site distinct worths
  have fits := @Site.kindsFit_relabel relabeling site distinct (worths.map Worth.kind)
  rcases site with ⟨path, callback⟩
  cases callback with
  | visitedAssignVariable var valueExpr =>
      simp only [Site.goesOn, Site.relabel, Callback.relabel] at assigns ⊢
      rw [assigns, Option.isSome_map]
  | visitedBinary lValue operation rValue =>
      rcases worths with _ | ⟨rhs, _ | ⟨lhs, rest⟩⟩ <;>
        simp only [Site.goesOn, Site.relabel, Callback.relabel,
          Worth.operate_relabel] at fits ⊢
      simp only [fits]
  | _ => rfl

theorem Site.onEnvironment_relabel {env other : Environment}
    (renamed : env.Renamed relabeling.onName other) {site : Site}
    (distinct : site.InDistinctBlocks) (worths : List Worth) :
    (site.onEnvironment worths env).Renamed relabeling.onName
      ((site.relabel relabeling).onEnvironment worths other) := by
  have assigns := @Site.assignment_relabel relabeling site distinct worths
  rcases site with ⟨path, callback⟩
  cases callback with
  | visitingBlock scope expressions =>
      exact .cons (Environment.declare_relabel scope) renamed
  | visitedBlock scope expressions =>
      cases renamed with
      | nil => exact .nil
      | cons same rest => exact rest
  | visitedAssignVariable var valueExpr =>
      simp only [Site.onEnvironment, Site.relabel, Callback.relabel]
        at assigns ⊢
      rw [assigns]
      cases Site.assignment ⟨path, .visitedAssignVariable var valueExpr⟩ worths with
      | none => exact renamed
      | some assigned =>
          rcases assigned with ⟨name, datum⟩
          have writes := renamed.assign relabeling.injective name datum
          simp only [Option.map_some, Prod.map, id]
          generalize env.assign name datum = next at writes ⊢
          generalize other.assign (relabeling.onName name) datum = otherNext
            at writes ⊢
          cases writes with
          | none => exact renamed
          | some later => exact later
  | _ => exact renamed

theorem Evaluation.Renamed.advance {evaluation other : Evaluation}
    (renamed : evaluation.Renamed relabeling.onName other) {site : Site}
    (distinct : site.InDistinctBlocks) :
    (evaluation.advance arith site).Renamed relabeling.onName
      (other.advance arith (site.relabel relabeling)) := by
  constructor
  · rw [Evaluation.advance, Evaluation.advance, renamed.running, renamed.worths,
      Site.goesOn_relabel arith distinct]
  · simp only [Evaluation.advance, Site.onStack, Site.discards_relabel,
      Site.pushes_relabel, Site.operands_relabel, renamed.worths,
      Site.worth_relabel arith renamed.env distinct]
  · rw [Evaluation.advance, Evaluation.advance, renamed.worths]
    exact Site.onEnvironment_relabel renamed.env distinct evaluation.worths

theorem Evaluation.Renamed.step {evaluation other : Evaluation}
    (renamed : evaluation.Renamed relabeling.onName other) {site : Site}
    (distinct : site.InDistinctBlocks) :
    (evaluation.step arith site).Renamed relabeling.onName
      (other.step arith (site.relabel relabeling)) := by
  have enters : evaluation.enter.Renamed relabeling.onName other.enter :=
    ⟨rfl, congrArg (List.map Worth.elsewhere) renamed.worths, .nil⟩
  have advances := renamed.advance arith distinct
  rcases site with ⟨path, callback⟩
  cases callback with
  | visitingFunction func => exact enters
  | visitingModule owner => exact enters
  | _ => exact advances

theorem Evaluation.after_relabel {past : List Site}
    (distinct : ∀ site ∈ past, site.InDistinctBlocks) :
    (Evaluation.after arith past).Renamed relabeling.onName
      (Evaluation.after arith (past.map (Site.relabel relabeling))) := by
  induction past using List.reverseRecOn with
  | nil => exact ⟨rfl, rfl, .nil⟩
  | append_singleton past site ih =>
      rw [List.forall_mem_append, List.forall_mem_singleton] at distinct
      rw [List.map_append, List.map_singleton, Evaluation.after_append_singleton,
        Evaluation.after_append_singleton]
      exact (ih distinct.1).step arith distinct.2

/-- Corresponding evaluations return the same. -/
theorem Evaluation.Renamed.returned {evaluation other : Evaluation}
    (renamed : evaluation.Renamed relabeling.onName other) {sites : List Site}
    (distinct : ∀ site ∈ sites, site.InDistinctBlocks) :
    other.returned arith (sites.map (Site.relabel relabeling)) =
      evaluation.returned arith sites := by
  induction sites generalizing evaluation other with
  | nil => rfl
  | cons site rest ih =>
      rw [List.forall_mem_cons] at distinct
      cases running : evaluation.running with
      | false =>
          have ended : other.running = false := renamed.running.trans running
          rw [Evaluation.returned_of_ended arith running,
            Evaluation.returned_of_ended arith ended]
      | true =>
          have goesOn : other.running = true := renamed.running.trans running
          by_cases isReturn : site.callback.IsReturn
          · have fits := @Site.kindsFit_relabel relabeling site distinct.1
              (evaluation.worths.map Worth.kind)
            rcases site with ⟨path, callback⟩
            cases callback with
            | visitedReturn valueExpr =>
                simp only [Site.relabel, Callback.relabel] at fits
                rw [Evaluation.returned_of_return arith running, List.map_cons,
                  Site.relabel, Callback.relabel,
                  Evaluation.returned_of_return arith goesOn, Evaluation.worthAt,
                  Evaluation.worthAt, renamed.worths]
                simp only [fits]
            | _ => exact isReturn.elim
          · have other : ¬ (site.relabel relabeling).callback.IsReturn := by
              rcases site with ⟨path, callback⟩
              cases callback <;> exact isReturn
            rw [List.map_cons, Evaluation.returned_of_other arith running isReturn,
              Evaluation.returned_of_other arith goesOn other]
            exact ih (renamed.step arith distinct.1) distinct.2

/-- The functions of a relabeled module return what those of the module return. -/
theorem Module.evaluate_relabel {owner : Module} (distinct : owner.DeclaresDistinct)
    {child : Nat} {func : Function}
    (place : owner.functions[child]? = some (some func)) :
    (owner.relabel relabeling).evaluate arith child (func.relabel relabeling) =
      owner.evaluate arith child func := by
  have before : (owner.relabel relabeling).sitesBefore child ++
      (owner.relabel relabeling).enteringSites child (func.relabel relabeling) =
        (owner.sitesBefore child ++ owner.enteringSites child func).map
          (Site.relabel relabeling) := by
    rw [List.map_append, Module.sitesBefore_relabel]
    rfl
  have remaining : (func.relabel relabeling).remainingSites
      [⟨.module (owner.relabel relabeling), child⟩] =
        (func.remainingSites [⟨.module owner, child⟩]).map
          (Site.relabel relabeling) := by
    rw [Function.remainingSites, Function.remainingSites, List.map_append,
      ← Expr.sites_relabel]
    rfl
  have split : owner.sites =
      (owner.sitesBefore child ++ owner.enteringSites child func) ++
        func.remainingSites [⟨.module owner, child⟩] ++ owner.sitesAfter child :=
    Module.sites_entered place
  have entered : ∀ site ∈ owner.sitesBefore child ++ owner.enteringSites child func,
      site.InDistinctBlocks :=
    fun site member => distinct.enclosing (by
      rw [split, List.append_assoc]
      exact List.mem_append_left _ member)
  have inside : ∀ site ∈ func.remainingSites [⟨.module owner, child⟩],
      site.InDistinctBlocks :=
    fun site member => distinct.enclosing (by
      rw [split, List.append_assoc]
      exact List.mem_append_right _ (List.mem_append_left _ member))
  rw [Module.evaluate, Module.evaluate, Module.enteredEvaluation, before, remaining]
  exact (Evaluation.after_relabel arith entered).returned arith inside

end Step

/-! ## Calling the relabeled module -/

theorem Module.firstNamed_relabel (owner : Module) (name : String) :
    (owner.relabel relabeling).firstNamed name = owner.firstNamed name := by
  rw [Module.firstNamed, Module.firstNamed, Module.relabel, List.findIdx?_map]
  congr 1
  funext entry
  cases entry <;> rfl

namespace ExprRunner

/-- The same datum, or the same fault up to the name of a variable. -/
inductive Answers (onName : String → String) :
    Except Fault (Option Datum) → Except Fault (Option Datum) → Prop where
  | datum (returned : Option Datum) : Answers onName (.ok returned) (.ok returned)
  | fault {fault other : Fault} (renamed : fault.Renamed onName other) :
      Answers onName (.error fault) (.error other)

theorem Answers.eq_of_id {answer other : Except Fault (Option Datum)}
    (answers : Answers id answer other) : answer = other := by
  cases answers with
  | datum returned => rfl
  | fault renamed => rw [renamed.eq_of_id]

/-- Calling a name of a relabeled module answers what the module does. -/
theorem addAndCall_relabel (arith : FloatArith) {owner : Module}
    (distinct : owner.DeclaresDistinct) (name : String) :
    Answers relabeling.onName (addAndCall arith owner name)
      (addAndCall arith (owner.relabel relabeling) name) := by
  have forecast := @Module.forecast_relabel relabeling owner distinct
  have first := @Module.firstNamed_relabel relabeling owner name
  cases refused : owner.forecast with
  | some fault =>
      rw [refused] at forecast
      generalize other : (owner.relabel relabeling).forecast = outcome at forecast
      cases forecast with
      | some renamed =>
          rw [addAndCall_of_refused arith refused,
            addAndCall_of_refused arith other]
          exact .fault renamed
  | none =>
      rw [refused] at forecast
      generalize other : (owner.relabel relabeling).forecast = outcome at forecast
      cases forecast
      by_cases empty : name = ""
      · rw [empty, addAndCall_of_empty arith refused, addAndCall_of_empty arith other]
        exact .fault (.same _)
      · cases named : owner.firstNamed name with
        | none =>
            rw [named] at first
            rw [addAndCall_of_missing arith refused named,
              addAndCall_of_missing arith other first]
            exact .fault (.same _)
        | some child =>
            rw [named] at first
            obtain ⟨func, place, -, -⟩ := Module.firstNamed_eq_some named
            have relabeled : (owner.relabel relabeling).functions[child]? =
                some (some (func.relabel relabeling)) := by
              simp [Module.relabel, place]
            rw [addAndCall_of_firstNamed arith refused empty named place,
              addAndCall_of_firstNamed arith other empty first relabeled,
              Module.evaluate_relabel arith distinct place]
            exact .datum _

end ExprRunner

end Llast
