import Llast.CodeGenVisitor

/-!
# Running one expression

`ExprRunner.cpp` wraps an expression into a module with one function, generates
the code of the module and calls the function.  The call itself belongs to the JIT
and is a parameter: it is given the generated module and what the symbol of the
function stands for in it.
-/

namespace Llast

/-- The result of a member function, without the state it leaves. -/
def resultOf {Result : Type} :
    EStateM.Result Fault CodeGenVisitor Result → Except Fault CodeGenVisitor
  | .ok _ visitor => .ok visitor
  | .error fault _ => .error fault

/-- An `ExecutionContext`, with the module that was added to its JIT. -/
structure ExecutionContext where
  llvmModule : LlvmModule
deriving DecidableEq, Repr

/-- `ExecutionContext::addModule` of a new context. -/
def ExecutionContext.addModule (owner : Module) :
    Except Fault ExecutionContext := do
  let visitor ← resultOf (walkTree codeGen owner {})
  return { llvmModule := visitor.module_ }

/--
A name of letters, digits and underscores.  The symbol of such a name is the name
itself, behind the prefix that the target gives to every symbol.
-/
def PlainName (name : String) : Prop :=
  name ≠ "" ∧ ∀ letter ∈ name.toList, letter.isAlphanum ∨ letter = '_'

/-- The functions of a module have plain names. -/
def Module.PlainNames (owner : Module) : Prop :=
  ∀ func ∈ owner.functions.reduceOption, PlainName func.name

/--
`ExecutionContext::getSymbolAddress` of a plain name, in a context whose functions have
plain names: the function of that name, if any.
-/
def ExecutionContext.getSymbolAddress (context : ExecutionContext)
    (name : String) : Option Nat :=
  context.llvmModule.getFunction name

namespace ExprRunner

/-- `FUNC_NAME`. -/
def funcName : String :=
  "exprFunc"

/-- The module of one function whose body is a Block of one expression. -/
def exprModule (moduleName functionName : String) (expr : Expr)
    (dataType : DataType) : Module :=
  let bb := BlockBuilder.addExpression {} expr
  let fb : FunctionBuilder :=
    { name_ := functionName, returnType_ := dataType, blockBuilder_ := bb }
  let mb : ModuleBuilder := { name_ := moduleName }
  (mb.addFunction (some (fb.build .insertion .insertion))).build

/-- What `expr->dataType()` of an entry point ends in. -/
def dataTypeOf (expr : Expr) : Except Fault DataType :=
  match expr.dataType with
  | .ok dataType => .ok dataType
  | .error behaviour => .error (.undefined behaviour)

/-- `makeExecutionContext`. -/
def makeExecutionContext (expr : Expr) : Except Fault ExecutionContext := do
  let dataType ← dataTypeOf expr
  ExecutionContext.addModule (exprModule "ExprModule" funcName expr dataType)

/-- `ExprRunner::compile`. -/
def compile (expr : Expr) : Except Fault Unit := do
  let dataType ← dataTypeOf expr
  let _ ← resultOf
    (walkTree codeGen (exprModule "someModule" "someFunc" expr dataType) {})

section Run

variable {Result : Type}

/-- What calling a function pointer yields, for the module it points into. -/
abbrev Call (Result : Type) :=
  ExecutionContext → Option Nat → Except Fault Result

variable (funcPtr : Call Result)

/-- The common body of `runFloatExpr` and `runInt32Expr`. -/
def runExpr (required : DataType) (refusal : String) (expr : Expr) :
    Except Fault Result := do
  let dataType ← dataTypeOf expr
  if dataType ≠ required then
    throw (.thrown (.fatalException refusal))
  let ec ← makeExecutionContext expr
  funcPtr ec (ec.getSymbolAddress funcName)

/-- `ExprRunner::runFloatExpr`. -/
def runFloatExpr (expr : Expr) : Except Fault Result :=
  runExpr funcPtr .float "expr->dataType() != DataType::Float" expr

/-- `ExprRunner::runInt32Expr`. -/
def runInt32Expr (expr : Expr) : Except Fault Result :=
  runExpr funcPtr .int32 "expr->dataType() != DataType::Int32" expr

end Run

end ExprRunner

end Llast
