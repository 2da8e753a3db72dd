import Llast.Llvm
import Llast.Traversal

/-!
# The code generator

`CodeGenVisitor` of `ExprRunner.cpp`: the visitor that turns a tree into LLVM
instructions.  The structure `CodeGenVisitor` holds the members of the class,
`codeGen` its callbacks.  Stacks are lists with the top, or the back of the
deque, at the head.

`irBuilder_` always inserts into `block_`, so the block is the insertion point.
Fresh instruction objects get the next address of the context.
-/

namespace Llast

/-- `typedef std::unordered_map<std::string, llvm::AllocaInst*> AllocaScope`. -/
abbrev AllocaScope :=
  List (String × AllocaInst)

/-- An `llvm::LLVMContext`, as the supplier of fresh objects. -/
structure LlvmContext where
  nextAddress : Nat := 0
deriving DecidableEq, Repr

/-- The members of the class `CodeGenVisitor`. -/
structure CodeGenVisitor where
  context_ : LlvmContext := {}
  module_ : LlvmModule := { name := "" }
  function_ : Nat := 0
  block_ : Nat := 0
  allocaScopeStack_ : List AllocaScope := []
  valueStack_ : List Value := []
  ancestryStack_ : List Node := []

/-- A member function of the class. -/
abbrev Generate (Result : Type) :=
  Visit CodeGenVisitor Result

namespace CodeGenVisitor

/-! ## The instruction builder -/

/-- The visitor after an instruction was inserted into the current block. -/
def inserted (visitor : CodeGenVisitor) (operation : Operation) :
    CodeGenVisitor :=
  { visitor with
    context_ := { nextAddress := visitor.context_.nextAddress + 1 }
    module_ := { visitor.module_ with
      instructions := visitor.module_.instructions ++
        [⟨visitor.context_.nextAddress, visitor.block_, operation⟩] } }

/-- `IRBuilder::Insert`: the address of the new instruction. -/
def insert (operation : Operation) : Generate Nat := do
  let visitor ← get
  set (visitor.inserted operation)
  return visitor.context_.nextAddress

/-- `IRBuilder::CreateAlloca`. -/
def createAlloca (type : LlvmType) (name : String) : Generate AllocaInst := do
  let address ← insert (.alloca type name)
  return ⟨address, type⟩

/-- `IRBuilder::CreateLoad`. -/
def createLoad (pointer : AllocaInst) : Generate Value := do
  let address ← insert (.load pointer)
  return .instruction address pointer.allocatedType

/-- `IRBuilder::CreateStore`. -/
def createStore (value : Value) (pointer : AllocaInst) : Generate Value := do
  let address ← insert (.store value pointer)
  return .instruction address .void

/-- `IRBuilder::CreateAdd` and its siblings: two constants are folded. -/
def createBinary (opcode : Opcode) (lhs rhs : Value) : Generate Value :=
  match lhs, rhs with
  | .constant left, .constant right =>
      return .constant (.binary opcode left right)
  | lhs, rhs => do
      let address ← insert (.binary opcode lhs rhs)
      return .instruction address lhs.type

/-- `IRBuilder::CreateRet`. -/
def createRet (value : Value) : Generate Unit := do
  let _ ← insert (.ret value)

/-! ## The value stack -/

/-- `valueStack_.push`. -/
def pushValue (value : Value) : Generate Unit :=
  modify fun visitor =>
    { visitor with valueStack_ := value :: visitor.valueStack_ }

/-- `valueStack_.top()` followed by `valueStack_.pop()`. -/
def popValue : Generate Value := do
  let visitor ← get
  match visitor.valueStack_ with
  | [] => throw (.undefined .emptyStack)
  | value :: rest => do
      set { visitor with valueStack_ := rest }
      return value

/-! ## Types and names -/

/-- `CodeGenVisitor::getType`. -/
def getType : DataType → Except Exception LlvmType
  | .void => .ok .void
  | .bool => .ok .int8
  | .int32 => .ok .int32
  | .float => .ok .float
  | .double => .ok .double
  | .pointer => .error .unhandledSwitchCase

/-- Throw the exception of a computation that has no state. -/
def orThrow {Result : Type} : Except Exception Result → Generate Result
  | .ok result => return result
  | .error exception => throw (.thrown exception)

/-- Run into the undefined behaviour of a computation that has no state. -/
def orUndefined {Result : Type} : Except Undefined Result → Generate Result
  | .ok result => return result
  | .error behaviour => throw (.undefined behaviour)

/-- The alloca of the innermost scope that holds the name. -/
def findAlloca (name : String) : List AllocaScope → Option AllocaInst
  | [] => none
  | scope :: outer =>
      match scope.lookup name with
      | some inst => some inst
      | none => findAlloca name outer

/-- What `lookupVariable` throws. -/
def notDefined (name : String) : Exception :=
  .invalidStateException ("Variable '" ++ name ++ "' was not defined.")

/-- `CodeGenVisitor::lookupVariable`. -/
def lookupVariable (name : String) : Generate AllocaInst := do
  let visitor ← get
  match findAlloca name visitor.allocaScopeStack_ with
  | some inst => return inst
  | none => throw (.thrown (notDefined name))

/-! ## The callbacks -/

/-- `CodeGenVisitor::visitingModule`. -/
def visitingModule (owner : Module) : Generate Unit :=
  modify fun visitor => { visitor with module_ := { name := owner.name } }

/-- `CodeGenVisitor::visitingFunction`. -/
def visitingFunction (func : Function) : Generate Unit := do
  let returnType ← orThrow (getType func.returnType)
  let visitor ← get
  -- the local vector `argTypes` is neither filled nor passed on
  match visitor.module_.getOrInsertFunction func.name returnType with
  -- `llvm::cast<llvm::Function>` of the cast of a function
  | (_, .bitCast _) => throw (.undefined .badCast)
  | (owner, .function index) =>
      set { visitor with
        module_ := { owner with
          blocks := owner.blocks ++ [BasicBlock.mk "functionBody" index] }
        function_ := index
        block_ := owner.blocks.length }

/-- `CodeGenVisitor::visitingNode`. -/
def visitingNode (node : Node) : Generate Unit :=
  modify fun visitor =>
    { visitor with ancestryStack_ := node :: visitor.ancestryStack_ }

/-- `CodeGenVisitor::visitedNode`. -/
def visitedNode (node : Node) : Generate Unit := do
  let visitor ← get
  match visitor.ancestryStack_ with
  | [] => throw (.undefined .emptyStack)
  | _ :: ancestry =>
      -- the test is on the kind of the node itself, not of its parent
      if ancestry.length ≥ 1 ∧ node.nodeKind = some .block ∧
          visitor.valueStack_.length > 0 then
        set { visitor with
          ancestryStack_ := ancestry
          valueStack_ := visitor.valueStack_.tail }
      else
        set { visitor with ancestryStack_ := ancestry }

/-- What `visitingBlock` throws for a name it has already seen. -/
def alreadyDefined (name : String) : Exception :=
  .invalidStateException
    ("More than one variable named '" ++ name ++
      "' was defined in the current scope.")

/-- The body of the loop of `visitingBlock`. -/
def declareVariable (var : Variable) : Generate Unit := do
  let visitor ← get
  match visitor.allocaScopeStack_ with
  | [] => throw (.undefined .emptyStack)
  | topScope :: _ =>
      if (topScope.lookup var.name).isSome then
        throw (.thrown (alreadyDefined var.name))
      let type ← orThrow (getType var.dataType)
      let allocaInst ← createAlloca type var.name
      modify fun visitor =>
        { visitor with
          allocaScopeStack_ :=
            ((var.name, allocaInst) :: topScope) ::
              visitor.allocaScopeStack_.tail }

/-- The loop of `visitingBlock`. -/
def declareVariables : List Variable → Generate Unit
  | [] => return ()
  | var :: rest => do
      declareVariable var
      declareVariables rest

/-- `CodeGenVisitor::visitingBlock`. -/
def visitingBlock (scope : Scope) (_expressions : List Expr) :
    Generate Unit := do
  modify fun visitor =>
    { visitor with allocaScopeStack_ := [] :: visitor.allocaScopeStack_ }
  declareVariables scope.variables

/-- `CodeGenVisitor::visitedBlock`. -/
def visitedBlock (_scope : Scope) (_expressions : List Expr) :
    Generate Unit := do
  let visitor ← get
  match visitor.allocaScopeStack_ with
  | [] => throw (.undefined .emptyStack)
  | _ :: outer => set { visitor with allocaScopeStack_ := outer }

/-- `CodeGenVisitor::visitedAssignVariable`. -/
def visitedAssignVariable (var : Variable) (_valueExpr : Expr) :
    Generate Unit := do
  let inst ← lookupVariable var.name
  let value ← popValue
  let stored ← createStore value inst
  pushValue stored

/-- `CodeGenVisitor::createOperation`. -/
def createOperation (lValue rValue : Value) (op : OperationKind)
    (dataType : DataType) : Generate Value :=
  match dataType with
  | .int32 =>
      match op with
      | .add => createBinary .add lValue rValue
      | .sub => createBinary .sub lValue rValue
      | .mul => createBinary .mul lValue rValue
      | .div => createBinary .sdiv lValue rValue
  | .float =>
      match op with
      | .add => createBinary .fadd lValue rValue
      | .sub => createBinary .fsub lValue rValue
      | .mul => createBinary .fmul lValue rValue
      | .div => createBinary .fdiv lValue rValue
  | _ => throw (.thrown .unhandledSwitchCase)

/-- What `visitedBinary` throws for operands of different types. -/
def dataTypeMismatch : Exception :=
  .compileException .binaryExprDataTypeMismatch
    "Data types of lvalue and rvalue in binary expression do not match"

/-- `CodeGenVisitor::visitedBinary`. -/
def visitedBinary (lValueExpr : Expr) (operation : OperationKind)
    (rValueExpr : Expr) : Generate Unit := do
  let lType ← orUndefined lValueExpr.dataType
  let rType ← orUndefined rValueExpr.dataType
  if lType ≠ rType then
    throw (.thrown dataTypeMismatch)
  let rValue ← popValue
  let lValue ← popValue
  let dataType ←
    orUndefined (Expr.binary lValueExpr operation rValueExpr).dataType
  let result ← createOperation lValue rValue operation dataType
  pushValue result

/-- `CodeGenVisitor::visitLiteralInt32`. -/
def visitLiteralInt32 (value : BitVec 32) : Generate Unit :=
  pushValue (.constant (.int value))

/-- `CodeGenVisitor::visitLiteralFloat`. -/
def visitLiteralFloat (value : BitVec 32) : Generate Unit :=
  pushValue (.constant (.float value))

/-- `CodeGenVisitor::visitVariableRef`. -/
def visitVariableRef (var : Variable) : Generate Unit := do
  let allocaInst ← lookupVariable var.name
  let loaded ← createLoad allocaInst
  pushValue loaded

/-- `CodeGenVisitor::visitedReturn`. -/
def visitedReturn (_valueExpr : Expr) : Generate Unit := do
  let retValue ← popValue
  createRet retValue

end CodeGenVisitor

/-- The callbacks `CodeGenVisitor` overrides. -/
def codeGen : ExpressionTreeVisitor CodeGenVisitor where
  visitingModule := CodeGenVisitor.visitingModule
  visitingFunction := CodeGenVisitor.visitingFunction
  visitingNode := CodeGenVisitor.visitingNode
  visitedNode := CodeGenVisitor.visitedNode
  visitingBlock := CodeGenVisitor.visitingBlock
  visitedBlock := CodeGenVisitor.visitedBlock
  visitedAssignVariable := CodeGenVisitor.visitedAssignVariable
  visitedBinary := CodeGenVisitor.visitedBinary
  visitLiteralInt32 := CodeGenVisitor.visitLiteralInt32
  visitLiteralFloat := CodeGenVisitor.visitLiteralFloat
  visitVariableRef := CodeGenVisitor.visitVariableRef
  visitedReturn := CodeGenVisitor.visitedReturn

/-- The callbacks `CodeGenVisitor` leaves empty. -/
def Callback.Silent : Callback → Prop
  | .visitingConditional _ _ _ => True
  | .visitedConditional _ _ _ => True
  | .visitingBinary _ _ _ => True
  | .visitingReturn _ => True
  | .visitingAssignVariable _ _ => True
  | .visitedFunction _ => True
  | .visitedModule _ => True
  | _ => False

end Llast
