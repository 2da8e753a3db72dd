import Llast.EventRun
import Llast.ExpressionTreeVisitor

/-!
# The order of the callbacks

Which callbacks a walk issues does not depend on the visitor: it is a list that
can be read off the tree.  `sites` computes it, each callback together with its
place in the tree, and the theorems ending in `_eq_run` say that every walk
function of the walker performs exactly these callbacks, in this order, until
one of them fails.

A place is the path of steps from a node to the module, innermost first.  Two
nodes of a tree never have the same path, also when they are equal as trees.
-/

namespace Llast

open Llast.EventRun

/-! ## Callbacks and their places -/

/--
A call of a visitor's member function, or the failing null test that comes in
place of the walk of a missing child.
-/
inductive Callback where
  | nullArgument
  | visitingNode (node : Node)
  | visitedNode (node : Node)
  | visitingBlock (scope : Scope) (expressions : List Expr)
  | visitedBlock (scope : Scope) (expressions : List Expr)
  | visitingConditional (condition truePart falsePart : Expr)
  | visitedConditional (condition truePart falsePart : Expr)
  | visitingBinary (lValue : Expr) (operation : OperationKind) (rValue : Expr)
  | visitedBinary (lValue : Expr) (operation : OperationKind) (rValue : Expr)
  | visitLiteralInt32 (value : BitVec 32)
  | visitLiteralFloat (value : BitVec 32)
  | visitingReturn (valueExpr : Expr)
  | visitedReturn (valueExpr : Expr)
  | visitVariableRef (var : Variable)
  | visitingAssignVariable (var : Variable) (valueExpr : Expr)
  | visitedAssignVariable (var : Variable) (valueExpr : Expr)
  | visitingFunction (func : Function)
  | visitedFunction (func : Function)
  | visitingModule (owner : Module)
  | visitedModule (owner : Module)

/-- The step from a node to the child with the given number. -/
structure Step where
  node : Node
  child : Nat

/-- The steps that lead to a node, innermost first. -/
abbrev Path := List Step

/-- A callback and the path of the node it is about. -/
structure Site where
  path : Path
  callback : Callback

variable {State : Type}

/-- Carry out one callback. -/
def ExpressionTreeVisitor.perform (visitor : ExpressionTreeVisitor State) :
    Callback → Visit State Unit
  | .nullArgument => throw argNotNull
  | .visitingNode node => visitor.visitingNode node
  | .visitedNode node => visitor.visitedNode node
  | .visitingBlock scope expressions => visitor.visitingBlock scope expressions
  | .visitedBlock scope expressions => visitor.visitedBlock scope expressions
  | .visitingConditional condition truePart falsePart =>
      visitor.visitingConditional condition truePart falsePart
  | .visitedConditional condition truePart falsePart =>
      visitor.visitedConditional condition truePart falsePart
  | .visitingBinary lValue operation rValue =>
      visitor.visitingBinary lValue operation rValue
  | .visitedBinary lValue operation rValue =>
      visitor.visitedBinary lValue operation rValue
  | .visitLiteralInt32 value => visitor.visitLiteralInt32 value
  | .visitLiteralFloat value => visitor.visitLiteralFloat value
  | .visitingReturn valueExpr => visitor.visitingReturn valueExpr
  | .visitedReturn valueExpr => visitor.visitedReturn valueExpr
  | .visitVariableRef var => visitor.visitVariableRef var
  | .visitingAssignVariable var valueExpr =>
      visitor.visitingAssignVariable var valueExpr
  | .visitedAssignVariable var valueExpr =>
      visitor.visitedAssignVariable var valueExpr
  | .visitingFunction func => visitor.visitingFunction func
  | .visitedFunction func => visitor.visitedFunction func
  | .visitingModule owner => visitor.visitingModule owner
  | .visitedModule owner => visitor.visitedModule owner

/-- Carry out the callback of a site. -/
def ExpressionTreeVisitor.performAt (visitor : ExpressionTreeVisitor State)
    (site : Site) : Visit State Unit :=
  visitor.perform site.callback

/-! ## The sites of a tree -/

/-- The callbacks of a node: its own around those of its children. -/
def bracket (path : Path) (node : Node) (opening : List Callback)
    (children : List Site) (closing : List Callback) : List Site :=
  ⟨path, .visitingNode node⟩ :: opening.map (Site.mk path) ++
    children ++ closing.map (Site.mk path) ++ [⟨path, .visitedNode node⟩]

mutual

/-- The sites of an expression whose parents are `path`. -/
def Expr.sites : Expr → Path → List Site
  | .null, path => [⟨path, .nullArgument⟩]
  | .literalInt32 value, path =>
      bracket path (.expr (.literalInt32 value))
        [.visitLiteralInt32 value] [] []
  | .literalFloat value, path =>
      bracket path (.expr (.literalFloat value))
        [.visitLiteralFloat value] [] []
  | .binary lValue operation rValue, path =>
      let node := Node.expr (.binary lValue operation rValue)
      bracket path node
        [.visitingBinary lValue operation rValue]
        (lValue.sites (⟨node, 0⟩ :: path) ++ rValue.sites (⟨node, 1⟩ :: path))
        [.visitedBinary lValue operation rValue]
  | .variableRef var, path =>
      bracket path (.expr (.variableRef var)) [.visitVariableRef var] [] []
  | .assignVariable var valueExpr, path =>
      let node := Node.expr (.assignVariable var valueExpr)
      bracket path node
        [.visitingAssignVariable var valueExpr]
        (valueExpr.sites (⟨node, 0⟩ :: path))
        [.visitedAssignVariable var valueExpr]
  | .return valueExpr, path =>
      let node := Node.expr (.return valueExpr)
      bracket path node
        [.visitingReturn valueExpr]
        (valueExpr.sites (⟨node, 0⟩ :: path))
        [.visitedReturn valueExpr]
  | .block scope expressions, path =>
      let node := Node.expr (.block scope expressions)
      bracket path node
        [.visitingBlock scope expressions]
        (childSites expressions node path 0)
        [.visitedBlock scope expressions]
  | .conditional condition truePart falsePart, path =>
      let node := Node.expr (.conditional condition truePart falsePart)
      bracket path node
        [.visitingConditional condition truePart falsePart]
        (condition.sites (⟨node, 0⟩ :: path) ++
          (if truePart.isNull then []
            else truePart.sites (⟨node, 1⟩ :: path)) ++
          (if falsePart.isNull then []
            else falsePart.sites (⟨node, 2⟩ :: path)))
        [.visitedConditional condition truePart falsePart]

/-- The sites of the children of a block, numbered from `child` on. -/
def childSites : List Expr → Node → Path → Nat → List Site
  | [], _, _, _ => []
  | expr :: rest, node, path, child =>
      expr.sites (⟨node, child⟩ :: path) ++
        childSites rest node path (child + 1)

end

/-- The sites of a function. -/
def Function.sites (func : Function) (path : Path) : List Site :=
  bracket path (.function func)
    [.visitingFunction func]
    (func.body.sites (⟨.function func, 0⟩ :: path))
    [.visitedFunction func]

/-- The sites of the functions of a module, numbered from `child` on. -/
def functionSites (owner : Module) :
    List (Option Function) → Nat → List Site
  | [], _ => []
  | none :: rest, child =>
      ⟨[⟨.module owner, child⟩], .nullArgument⟩ ::
        functionSites owner rest (child + 1)
  | some func :: rest, child =>
      func.sites [⟨.module owner, child⟩] ++
        functionSites owner rest (child + 1)

/-- The sites of a module. -/
def Module.sites (owner : Module) : List Site :=
  bracket [] (.module owner)
    [.visitingModule owner]
    (functionSites owner owner.functions 0)
    [.visitedModule owner]

/-! ## Every walk performs the callbacks of its sites -/

section WalkerLaw

variable (visitor : ExpressionTreeVisitor State)

theorem run_append_eq_bind (first second : List Site) :
    run visitor.performAt (first ++ second) = (do
      run visitor.performAt first
      run visitor.performAt second) := by
  funext start
  rw [run_append]
  change _ = EStateM.bind _ _ start
  rw [EStateM.bind]
  cases run visitor.performAt first start <;> rfl

theorem run_cons_eq_bind (site : Site) (rest : List Site) :
    run visitor.performAt (site :: rest) = (do
      visitor.perform site.callback
      run visitor.performAt rest) :=
  rfl

theorem run_nil_eq_pure :
    run visitor.performAt [] = pure () :=
  rfl

private theorem bracket_eq_bind (path : Path) (node : Node)
    (opening closing : List Callback) (children : List Site) :
    run visitor.performAt (bracket path node opening children closing) = (do
      visitor.visitingNode node
      run visitor.performAt (opening.map (Site.mk path))
      run visitor.performAt children
      run visitor.performAt (closing.map (Site.mk path))
      visitor.visitedNode node) := by
  simp only [bracket, List.cons_append, run_cons_eq_bind, run_append_eq_bind,
    run_nil_eq_pure, ExpressionTreeVisitor.perform, bind_assoc, bind_pure_unit]

private theorem run_one_eq_perform (path : Path) (callback : Callback) :
    run visitor.performAt ([callback].map (Site.mk path)) =
      visitor.perform callback := by
  rw [List.map_singleton, run_cons_eq_bind, run_nil_eq_pure, bind_pure_unit]

private theorem run_none_eq_pure (path : Path) :
    run visitor.performAt (([] : List Callback).map (Site.mk path)) =
      pure () :=
  rfl

/-- The walk of the children of a block, given the walk of each of them. -/
private theorem walkEach_eq_run_of_each {expressions : List Expr}
    (each : ∀ expr ∈ expressions, ∀ path,
      walk visitor expr = run visitor.performAt (expr.sites path))
    (node : Node) (path : Path) (child : Nat) :
    walkEach visitor expressions =
      run visitor.performAt (childSites expressions node path child) := by
  induction expressions generalizing child with
  | nil => rfl
  | cons expr rest ih =>
      have later :
          ∀ expr ∈ rest, ∀ path,
            walk visitor expr = run visitor.performAt (expr.sites path) :=
        fun expr member => each expr (List.mem_cons_of_mem _ member)
      rw [walkEach, childSites, run_append_eq_bind, ← ih later (child + 1),
        ← each expr List.mem_cons_self]

/-- The walk of an arm of a conditional, which is skipped when it is absent. -/
private theorem walkArm_eq_run {arm : Expr} {path : Path}
    (present : walk visitor arm = run visitor.performAt (arm.sites path)) :
    (if !arm.isNull then walk visitor arm else pure ()) =
      run visitor.performAt (if arm.isNull then [] else arm.sites path) := by
  cases arm.isNull with
  | true => rfl
  | false => exact present

/-- The walk of an expression performs the callbacks of its sites. -/
theorem walk_eq_run (expr : Expr) (path : Path) :
    walk visitor expr = run visitor.performAt (expr.sites path) := by
  induction expr generalizing path with
  | null => rfl
  | literalInt32 value =>
      simp only [walk, Expr.sites, bracket_eq_bind, run_one_eq_perform,
        run_none_eq_pure, run_nil_eq_pure, ExpressionTreeVisitor.perform,
        pure_bind]
  | literalFloat value =>
      simp only [walk, Expr.sites, bracket_eq_bind, run_one_eq_perform,
        run_none_eq_pure, run_nil_eq_pure, ExpressionTreeVisitor.perform,
        pure_bind]
  | variableRef var =>
      simp only [walk, Expr.sites, bracket_eq_bind, run_one_eq_perform,
        run_none_eq_pure, run_nil_eq_pure, ExpressionTreeVisitor.perform,
        pure_bind]
  | binary lValue operation rValue leftIH rightIH =>
      rw [walk, Expr.sites]
      simp only [bracket_eq_bind, run_one_eq_perform, run_append_eq_bind,
        ExpressionTreeVisitor.perform, bind_assoc, ← leftIH, ← rightIH]
  | assignVariable var valueExpr valueIH =>
      rw [walk, Expr.sites]
      simp only [bracket_eq_bind, run_one_eq_perform,
        ExpressionTreeVisitor.perform, ← valueIH]
  | «return» valueExpr valueIH =>
      rw [walk, Expr.sites]
      simp only [bracket_eq_bind, run_one_eq_perform,
        ExpressionTreeVisitor.perform, ← valueIH]
  | block scope expressions each =>
      rw [walk, Expr.sites]
      simp only [bracket_eq_bind, run_one_eq_perform,
        ExpressionTreeVisitor.perform,
        ← walkEach_eq_run_of_each visitor each]
  | conditional condition truePart falsePart conditionIH trueIH falseIH =>
      rw [walk, Expr.sites]
      simp only [bracket_eq_bind, run_one_eq_perform, run_append_eq_bind,
        ExpressionTreeVisitor.perform, bind_assoc, ← conditionIH,
        ← walkArm_eq_run visitor (trueIH _),
        ← walkArm_eq_run visitor (falseIH _)]
      cases truePart.isNull <;> cases falsePart.isNull <;>
        simp only [Bool.not_true, Bool.not_false, Bool.false_eq_true,
          if_true, if_false, pure_bind]

/-- The walk of a function performs the callbacks of its sites. -/
theorem walkFunction_eq_run (func : Function) (path : Path) :
    walkFunction visitor (some func) =
      run visitor.performAt (func.sites path) := by
  rw [walkFunction, Function.sites]
  simp only [bracket_eq_bind, run_one_eq_perform,
    ExpressionTreeVisitor.perform, ← walk_eq_run]

theorem walkEachFunction_eq_run (owner : Module)
    (functions : List (Option Function)) (child : Nat) :
    walkEachFunction visitor functions =
      run visitor.performAt (functionSites owner functions child) := by
  induction functions generalizing child with
  | nil => rfl
  | cons func rest ih =>
      cases func with
      | none =>
          rw [walkEachFunction, functionSites, run_cons_eq_bind, ← ih]
          rfl
      | some func =>
          rw [walkEachFunction, functionSites, run_append_eq_bind, ← ih,
            ← walkFunction_eq_run]

/-- The walk of a module performs the callbacks of its sites. -/
theorem walkModule_eq_run (owner : Module) :
    walkModule visitor owner = run visitor.performAt owner.sites := by
  rw [walkModule, walkEachFunction_eq_run visitor owner _ 0, Module.sites]
  simp only [bracket_eq_bind, run_one_eq_perform,
    ExpressionTreeVisitor.perform]

end WalkerLaw

end Llast
