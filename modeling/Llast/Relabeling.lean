import Llast.Surroundings

/-!
# Other variables and other scopes in the same tree

A relabeling exchanges the `Variable` objects and the `Scope` objects of a tree and
leaves everything else as it is.  Names are exchanged injectively, data types are kept,
and a scope may enumerate what it declares in another order.  The walk of the relabeled
tree issues the relabeled callbacks at the relabeled places.
-/

namespace Llast

/-! ## Relabelings -/

/-- How the variables and scopes of a tree are exchanged. -/
structure Relabeling where
  onName : String → String
  onVariable : Variable → Variable
  onScope : Scope → Scope
  injective : Function.Injective onName
  named : ∀ var, (onVariable var).name = onName var.name
  typed : ∀ var, (onVariable var).dataType = var.dataType
  declared : ∀ scope,
    (onScope scope).variables.Perm (scope.variables.map onVariable)

section Relabel

variable (relabeling : Relabeling)

mutual

/-- The relabeled expression. -/
def Expr.relabel : Expr → Expr
  | .null => .null
  | .literalInt32 value => .literalInt32 value
  | .literalFloat value => .literalFloat value
  | .binary lValue operation rValue =>
      .binary lValue.relabel operation rValue.relabel
  | .variableRef var => .variableRef (relabeling.onVariable var)
  | .assignVariable var valueExpr =>
      .assignVariable (relabeling.onVariable var) valueExpr.relabel
  | .return valueExpr => .return valueExpr.relabel
  | .block scope expressions =>
      .block (relabeling.onScope scope) (relabelEach expressions)
  | .conditional condition truePart falsePart =>
      .conditional condition.relabel truePart.relabel falsePart.relabel

/-- The relabeled expressions of a Block. -/
def relabelEach : List Expr → List Expr
  | [] => []
  | expr :: rest => expr.relabel :: relabelEach rest

end

theorem relabelEach_eq_map (expressions : List Expr) :
    relabelEach relabeling expressions =
      expressions.map (Expr.relabel relabeling) := by
  induction expressions with
  | nil => rfl
  | cons expr rest ih => rw [relabelEach, ih, List.map_cons]

/-- The relabeled function; its name and return type are not those of variables. -/
def Function.relabel (func : Function) : Function where
  name := func.name
  returnType := func.returnType
  parameterScope := relabeling.onScope func.parameterScope
  body := func.body.relabel relabeling

/-- The relabeled module. -/
def Module.relabel (owner : Module) : Module where
  name := owner.name
  functions := owner.functions.map (Option.map (Function.relabel relabeling))

/-- The relabeled node. -/
def Node.relabel : Node → Node
  | .expr expression => .expr (expression.relabel relabeling)
  | .function func => .function (func.relabel relabeling)
  | .module owner => .module (owner.relabel relabeling)

/-- The relabeled callback. -/
def Callback.relabel : Callback → Callback
  | .nullArgument => .nullArgument
  | .visitingNode node => .visitingNode (node.relabel relabeling)
  | .visitedNode node => .visitedNode (node.relabel relabeling)
  | .visitingBlock scope expressions =>
      .visitingBlock (relabeling.onScope scope) (relabelEach relabeling expressions)
  | .visitedBlock scope expressions =>
      .visitedBlock (relabeling.onScope scope) (relabelEach relabeling expressions)
  | .visitingConditional condition truePart falsePart =>
      .visitingConditional (condition.relabel relabeling)
        (truePart.relabel relabeling) (falsePart.relabel relabeling)
  | .visitedConditional condition truePart falsePart =>
      .visitedConditional (condition.relabel relabeling)
        (truePart.relabel relabeling) (falsePart.relabel relabeling)
  | .visitingBinary lValue operation rValue =>
      .visitingBinary (lValue.relabel relabeling) operation
        (rValue.relabel relabeling)
  | .visitedBinary lValue operation rValue =>
      .visitedBinary (lValue.relabel relabeling) operation
        (rValue.relabel relabeling)
  | .visitLiteralInt32 value => .visitLiteralInt32 value
  | .visitLiteralFloat value => .visitLiteralFloat value
  | .visitingReturn valueExpr => .visitingReturn (valueExpr.relabel relabeling)
  | .visitedReturn valueExpr => .visitedReturn (valueExpr.relabel relabeling)
  | .visitVariableRef var => .visitVariableRef (relabeling.onVariable var)
  | .visitingAssignVariable var valueExpr =>
      .visitingAssignVariable (relabeling.onVariable var)
        (valueExpr.relabel relabeling)
  | .visitedAssignVariable var valueExpr =>
      .visitedAssignVariable (relabeling.onVariable var)
        (valueExpr.relabel relabeling)
  | .visitingFunction func => .visitingFunction (func.relabel relabeling)
  | .visitedFunction func => .visitedFunction (func.relabel relabeling)
  | .visitingModule owner => .visitingModule (owner.relabel relabeling)
  | .visitedModule owner => .visitedModule (owner.relabel relabeling)

/-- The relabeled step. -/
def Step.relabel (step : Step) : Step where
  node := step.node.relabel relabeling
  child := step.child

/-- The relabeled path. -/
def Path.relabel (path : Path) : Path :=
  path.map (Step.relabel relabeling)

/-- The relabeled callback at the relabeled place. -/
def Site.relabel (site : Site) : Site where
  path := Path.relabel relabeling site.path
  callback := site.callback.relabel relabeling

/-! ## What does not change -/

variable {relabeling}

@[simp]
theorem Expr.isNull_relabel (expr : Expr) :
    (expr.relabel relabeling).isNull = expr.isNull := by
  cases expr <;> rfl

@[simp]
theorem Expr.nodeKind_relabel (expr : Expr) :
    (expr.relabel relabeling).nodeKind = expr.nodeKind := by
  cases expr <;> rfl

@[simp]
theorem Node.nodeKind_relabel (node : Node) :
    (node.relabel relabeling).nodeKind = node.nodeKind := by
  cases node with
  | expr expr => exact expr.nodeKind_relabel
  | function func => rfl
  | «module» owner => rfl

private theorem backDataType_relabelEach {expressions : List Expr}
    (each : ∀ expr ∈ expressions,
      (expr.relabel relabeling).dataType = expr.dataType) :
    backDataType (relabelEach relabeling expressions) =
      backDataType expressions := by
  induction expressions with
  | nil => rfl
  | cons expr rest ih =>
      cases rest with
      | nil =>
          rw [relabelEach, relabelEach, backDataType, backDataType]
          exact each expr List.mem_cons_self
      | cons next others =>
          rw [relabelEach, relabelEach, backDataType, backDataType]
          exact ih fun later member => each later (List.mem_cons_of_mem _ member)

/-- The data type of a tree is that of the relabeled tree. -/
@[simp]
theorem Expr.dataType_relabel (expr : Expr) :
    (expr.relabel relabeling).dataType = expr.dataType := by
  induction expr with
  | null => rfl
  | literalInt32 value => rfl
  | literalFloat value => rfl
  | binary lValue operation rValue leftIH rightIH =>
      rw [Expr.relabel, Expr.dataType, Expr.dataType, rightIH]
  | variableRef var =>
      rw [Expr.relabel, Expr.dataType, Expr.dataType, relabeling.typed]
  | assignVariable var valueExpr valueIH =>
      rw [Expr.relabel, Expr.dataType, Expr.dataType, relabeling.typed]
  | «return» valueExpr valueIH =>
      rw [Expr.relabel, Expr.dataType, Expr.dataType, valueIH]
  | block scope expressions each =>
      rw [Expr.relabel, Expr.dataType, Expr.dataType,
        backDataType_relabelEach each]
  | conditional condition truePart falsePart conditionIH trueIH falseIH =>
      rw [Expr.relabel, Expr.dataType, Expr.dataType, truePart.isNull_relabel,
        falsePart.isNull_relabel, trueIH, falseIH]

theorem Relabeling.types_perm (relabeling : Relabeling) (scope : Scope) :
    ((relabeling.onScope scope).variables.map Variable.dataType).Perm
      (scope.variables.map Variable.dataType) := by
  have perm := (relabeling.declared scope).map Variable.dataType
  rw [List.map_map] at perm
  have same : Variable.dataType ∘ relabeling.onVariable = Variable.dataType :=
    funext relabeling.typed
  rwa [same] at perm

theorem Relabeling.names_perm (relabeling : Relabeling) (scope : Scope) :
    ((relabeling.onScope scope).variables.map Variable.name).Perm
      ((scope.variables.map Variable.name).map relabeling.onName) := by
  have perm := (relabeling.declared scope).map Variable.name
  rw [List.map_map] at perm
  rw [List.map_map]
  have same : Variable.name ∘ relabeling.onVariable =
      relabeling.onName ∘ Variable.name :=
    funext relabeling.named
  rwa [same] at perm

theorem Scope.declares_iff_mem {scope : Scope} {name : String} :
    scope.Declares name ↔ name ∈ scope.variables.map Variable.name := by
  simp only [Scope.Declares, List.mem_map]

@[simp]
theorem Scope.declares_relabel (scope : Scope) (name : String) :
    (relabeling.onScope scope).Declares (relabeling.onName name) ↔
      scope.Declares name := by
  rw [Scope.declares_iff_mem, (relabeling.names_perm scope).mem_iff,
    Scope.declares_iff_mem]
  exact List.mem_map_of_injective relabeling.injective

theorem enclosingBlocks_relabel (path : Path) :
    enclosingBlocks (Path.relabel relabeling path) =
      (enclosingBlocks path).map fun block =>
        (Path.relabel relabeling block.1, relabeling.onScope block.2) := by
  induction path with
  | nil => rfl
  | cons step outer ih =>
      rcases step with ⟨node, child⟩
      cases node with
      | expr expr => cases expr <;> first | exact ih | exact congrArg _ ih
      | function func => rfl
      | «module» owner => exact ih

/-! ## The callbacks of the relabeled tree -/

theorem Expr.children_relabel (expr : Expr) :
    (expr.relabel relabeling).children =
      expr.children.map fun child => (child.1.relabel relabeling, child.2) := by
  cases expr with
  | block scope expressions =>
      rw [Expr.relabel, Expr.children, Expr.children, relabelEach_eq_map,
        List.zipIdx_map]
      rfl
  | conditional condition truePart falsePart =>
      simp only [Expr.relabel, Expr.children, Expr.isNull_relabel]
      split <;> split <;> rfl
  | _ => rfl

theorem Expr.opening_relabel (expr : Expr) :
    (expr.relabel relabeling).opening =
      expr.opening.map (Callback.relabel relabeling) := by
  cases expr <;> rfl

theorem Expr.closing_relabel (expr : Expr) :
    (expr.relabel relabeling).closing =
      expr.closing.map (Callback.relabel relabeling) := by
  cases expr <;> rfl

theorem bracket_relabel (path : Path) (node : Node) (opening : List Callback)
    (children : List Site) (closing : List Callback) :
    (bracket path node opening children closing).map (Site.relabel relabeling) =
      bracket (Path.relabel relabeling path) (node.relabel relabeling)
        (opening.map (Callback.relabel relabeling))
        (children.map (Site.relabel relabeling))
        (closing.map (Callback.relabel relabeling)) := by
  simp [bracket, Site.relabel, Callback.relabel, Function.comp_def]

theorem Expr.sites_relabel (expr : Expr) (path : Path) :
    (expr.relabel relabeling).sites (Path.relabel relabeling path) =
      (expr.sites path).map (Site.relabel relabeling) := by
  induction expr using Expr.children_induction generalizing path with
  | step expr each =>
      cases present : expr.isNull with
      | true =>
          cases expr <;> first | rfl | cases present
      | false =>
          have inner : (expr.relabel relabeling).innerSites
              (Path.relabel relabeling path) =
                (expr.innerSites path).map (Site.relabel relabeling) := by
            rw [Expr.innerSites, Expr.children_relabel, Expr.innerSites,
              List.flatMap_map, List.map_flatMap]
            refine List.flatMap_congr fun child member => ?_
            exact each child member (⟨.expr expr, child.2⟩ :: path)
          have stillPresent : (expr.relabel relabeling).isNull = false := by
            rw [expr.isNull_relabel, present]
          rw [Expr.sites_eq stillPresent, Expr.sites_eq present, bracket_relabel,
            inner, expr.opening_relabel, expr.closing_relabel]
          rfl

theorem Function.sites_relabel (func : Function) (path : Path) :
    (func.relabel relabeling).sites (Path.relabel relabeling path) =
      (func.sites path).map (Site.relabel relabeling) := by
  rw [Function.sites, Function.sites, bracket_relabel, ← Expr.sites_relabel]
  rfl

theorem functionSites_relabel (owner : Module)
    (functions : List (Option Function)) (child : Nat) :
    functionSites (owner.relabel relabeling)
        (functions.map (Option.map (Function.relabel relabeling))) child =
      (functionSites owner functions child).map (Site.relabel relabeling) := by
  induction functions generalizing child with
  | nil => rfl
  | cons entry rest ih =>
      cases entry with
      | none =>
          rw [List.map_cons, Option.map_none, functionSites, functionSites, ih]
          rfl
      | some func =>
          rw [List.map_cons, Option.map_some, functionSites, functionSites, ih,
            List.map_append, ← Function.sites_relabel]
          rfl

/-- The walk of the relabeled module issues the relabeled callbacks. -/
theorem Module.sites_relabel (owner : Module) :
    (owner.relabel relabeling).sites =
      owner.sites.map (Site.relabel relabeling) := by
  rw [Module.sites, Module.sites, bracket_relabel, ← functionSites_relabel]
  rfl

theorem Module.sitesBefore_relabel (owner : Module) (child : Nat) :
    (owner.relabel relabeling).sitesBefore child =
      (owner.sitesBefore child).map (Site.relabel relabeling) := by
  have taken : ((owner.relabel relabeling).functions.take child) =
      (owner.functions.take child).map
        (Option.map (Function.relabel relabeling)) :=
    List.map_take.symm
  rw [Module.sitesBefore, Module.sitesBefore, taken, functionSites_relabel]
  rfl

end Relabel

end Llast
