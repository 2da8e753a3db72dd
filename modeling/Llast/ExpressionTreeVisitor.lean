import Llast.Ast

/-!
# Visitors and the tree walker

`ExpressionTreeVisitor.hpp` declares the callbacks, all of them empty unless a
visitor overrides them, and `ExpressionTreeWalker.hpp` calls them.  A visitor is
the record of its callbacks over a state of its own.  A callback may fail, and
what it had written by then stays written.
-/

namespace Llast

/-- What a callback does: it changes the visitor's state and may fail. -/
abbrev Visit (State Result : Type) :=
  EStateM Fault State Result

section Sequencing

variable {State First Second : Type} {first : Visit State First}
variable {second : First → Visit State Second}

theorem bind_of_ok {start next : State} {result : First}
    (completes : first start = .ok result next) :
    (first >>= second) start = second result next := by
  change EStateM.bind first second start = _
  rw [EStateM.bind, completes]

theorem bind_of_error {start final : State} {fault : Fault}
    (fails : first start = .error fault final) :
    (first >>= second) start = .error fault final := by
  change EStateM.bind first second start = _
  rw [EStateM.bind, fails]

end Sequencing

/-- The virtual member functions of `ExpressionTreeVisitor`. -/
structure ExpressionTreeVisitor (State : Type) where
  initializeVisitor : Visit State Unit := pure ()
  cleanUp : Visit State Unit := pure ()
  visitingNode : Node → Visit State Unit := fun _ => pure ()
  visitedNode : Node → Visit State Unit := fun _ => pure ()
  visitingBlock : Scope → List Expr → Visit State Unit := fun _ _ => pure ()
  visitedBlock : Scope → List Expr → Visit State Unit := fun _ _ => pure ()
  visitingConditional : Expr → Expr → Expr → Visit State Unit := fun _ _ _ => pure ()
  visitedConditional : Expr → Expr → Expr → Visit State Unit := fun _ _ _ => pure ()
  visitingBinary : Expr → OperationKind → Expr → Visit State Unit :=
    fun _ _ _ => pure ()
  visitedBinary : Expr → OperationKind → Expr → Visit State Unit :=
    fun _ _ _ => pure ()
  visitLiteralInt32 : BitVec 32 → Visit State Unit := fun _ => pure ()
  visitLiteralFloat : BitVec 32 → Visit State Unit := fun _ => pure ()
  visitingReturn : Expr → Visit State Unit := fun _ => pure ()
  visitedReturn : Expr → Visit State Unit := fun _ => pure ()
  visitVariableRef : Variable → Visit State Unit := fun _ => pure ()
  visitingAssignVariable : Variable → Expr → Visit State Unit := fun _ _ => pure ()
  visitedAssignVariable : Variable → Expr → Visit State Unit := fun _ _ => pure ()
  visitingFunction : Function → Visit State Unit := fun _ => pure ()
  visitedFunction : Function → Visit State Unit := fun _ => pure ()
  visitingModule : Module → Visit State Unit := fun _ => pure ()
  visitedModule : Module → Visit State Unit := fun _ => pure ()

variable {State : Type}

mutual

/-- `ExpressionTreeWalker::walk`, with the `walk…` function of each kind. -/
def walk (visitor : ExpressionTreeVisitor State) : Expr → Visit State Unit
  | .null => throw argNotNull
  | .literalInt32 value => do
      -- walkLiteralInt32
      visitor.visitingNode (.expr (.literalInt32 value))
      visitor.visitLiteralInt32 value
      visitor.visitedNode (.expr (.literalInt32 value))
  | .literalFloat value => do
      -- walkLiteralFloat
      visitor.visitingNode (.expr (.literalFloat value))
      visitor.visitLiteralFloat value
      visitor.visitedNode (.expr (.literalFloat value))
  | .binary lValue operation rValue => do
      -- walkBinary
      visitor.visitingNode (.expr (.binary lValue operation rValue))
      visitor.visitingBinary lValue operation rValue
      walk visitor lValue
      walk visitor rValue
      visitor.visitedBinary lValue operation rValue
      visitor.visitedNode (.expr (.binary lValue operation rValue))
  | .variableRef var => do
      -- walkVariableRef
      visitor.visitingNode (.expr (.variableRef var))
      visitor.visitVariableRef var
      visitor.visitedNode (.expr (.variableRef var))
  | .assignVariable var valueExpr => do
      -- walkAssignVariable
      visitor.visitingNode (.expr (.assignVariable var valueExpr))
      visitor.visitingAssignVariable var valueExpr
      walk visitor valueExpr
      visitor.visitedAssignVariable var valueExpr
      visitor.visitedNode (.expr (.assignVariable var valueExpr))
  | .return valueExpr => do
      -- walkReturn
      visitor.visitingNode (.expr (.return valueExpr))
      visitor.visitingReturn valueExpr
      walk visitor valueExpr
      visitor.visitedReturn valueExpr
      visitor.visitedNode (.expr (.return valueExpr))
  | .block scope expressions => do
      -- walkBlock
      visitor.visitingNode (.expr (.block scope expressions))
      visitor.visitingBlock scope expressions
      walkEach visitor expressions
      visitor.visitedBlock scope expressions
      visitor.visitedNode (.expr (.block scope expressions))
  | .conditional condition truePart falsePart => do
      -- walkConditional
      visitor.visitingNode (.expr (.conditional condition truePart falsePart))
      visitor.visitingConditional condition truePart falsePart
      walk visitor condition
      if !truePart.isNull then
        walk visitor truePart
      if !falsePart.isNull then
        walk visitor falsePart
      visitor.visitedConditional condition truePart falsePart
      visitor.visitedNode (.expr (.conditional condition truePart falsePart))

/-- `Block::forEach` with `walk`. -/
def walkEach (visitor : ExpressionTreeVisitor State) : List Expr → Visit State Unit
  | [] => pure ()
  | child :: rest => do
      walk visitor child
      walkEach visitor rest

end

/-- `ExpressionTreeWalker::walkFunction`. -/
def walkFunction (visitor : ExpressionTreeVisitor State) :
    Option Function → Visit State Unit
  | none => throw argNotNull
  | some func => do
      visitor.visitingNode (.function func)
      visitor.visitingFunction func
      walk visitor func.body
      visitor.visitedFunction func
      visitor.visitedNode (.function func)

/-- `Module::forEachFunction` with `walkFunction`. -/
def walkEachFunction (visitor : ExpressionTreeVisitor State) :
    List (Option Function) → Visit State Unit
  | [] => pure ()
  | func :: rest => do
      walkFunction visitor func
      walkEachFunction visitor rest

/-- `ExpressionTreeWalker::walkModule`. -/
def walkModule (visitor : ExpressionTreeVisitor State) (owner : Module) :
    Visit State Unit := do
  visitor.visitingNode (.module owner)
  visitor.visitingModule owner
  walkEachFunction visitor owner.functions
  visitor.visitedModule owner
  visitor.visitedNode (.module owner)

/-- `ExpressionTreeWalker::walkTree`. -/
def walkTree (visitor : ExpressionTreeVisitor State) (owner : Module) :
    Visit State Unit := do
  visitor.initializeVisitor
  walkModule visitor owner
  visitor.cleanUp

end Llast
