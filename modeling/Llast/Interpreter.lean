import Llast.CodeGenVisitor
import Llast.Execution

/-!
# The meaning of a tree

A reference interpreter for trees, which knows nothing of instructions: an
environment of nested frames, one for each open Block, in which a name means what
the innermost frame that declares it says.  Operands are evaluated from left to
right, a variable that was not assigned to is `undef`, and a Return ends the
function.
-/

namespace Llast

/-! ## Environments -/

/-- What the variables of one Block hold. -/
abbrev Environment.Frame :=
  String → Option Datum

/-- The frames of the open Blocks, innermost first. -/
abbrev Environment :=
  List Environment.Frame

namespace Environment

/-- What a name holds. -/
def read (name : String) : Environment → Option Datum
  | [] => none
  | frame :: outer =>
      match frame name with
      | some datum => some datum
      | none => read name outer

/-- Assign to the innermost variable of a name. -/
def assign (name : String) (datum : Datum) : Environment → Option Environment
  | [] => none
  | frame :: outer =>
      match frame name with
      | some _ => some (Function.update frame name (some datum) :: outer)
      | none => (assign name datum outer).map (frame :: ·)

/-- The frame of a Block that has just been entered. -/
def declare (scope : Scope) : Frame :=
  fun name => if scope.Declares name then some .undef else none

end Environment

/-! ## Expressions -/

variable (arith : FloatArith)

/-- What an operation means on operands of a type. -/
def OperationKind.compute (dataType : DataType) :
    OperationKind → Datum → Datum → Option Datum :=
  match dataType with
  | .int32 => fun operation =>
      match operation with
      | .add => Datum.onInts (· + ·)
      | .sub => Datum.onInts (· - ·)
      | .mul => Datum.onInts (· * ·)
      | .div => Datum.divideInts
  | .float => fun operation =>
      match operation with
      | .add => Datum.onFloats arith.add
      | .sub => Datum.onFloats arith.sub
      | .mul => Datum.onFloats arith.mul
      | .div => Datum.onFloats arith.div
  | _ => fun _ _ _ => none

/-- The value of an expression without effects. -/
def Expr.evaluate (env : Environment) : Expr → Option Datum
  | .literalInt32 value => some (.int value)
  | .literalFloat value => some (.float value)
  | .variableRef var => env.read var.name
  | .binary lValue operation rValue => do
      let lhs ← lValue.evaluate env
      let rhs ← rValue.evaluate env
      let dataType ← rValue.dataType.toOption
      operation.compute arith dataType lhs rhs
  | _ => none

/-- How a statement ends. -/
inductive Outcome where
  | continues (env : Environment)
  | returned (datum : Datum)

mutual

/-- What a statement does. -/
def Expr.interpret (env : Environment) : Expr → Option Outcome
  | .assignVariable var valueExpr => do
      let datum ← valueExpr.evaluate arith env
      let next ← env.assign var.name datum
      return .continues next
  | .return valueExpr => do
      let datum ← valueExpr.evaluate arith env
      return .returned datum
  | .block scope expressions => do
      match ← interpretEach (Environment.declare scope :: env) expressions with
      | .continues inner => return .continues inner.tail
      | .returned datum => return .returned datum
  | expr => do
      let _ ← expr.evaluate arith env
      return .continues env

/-- What the statements of a Block do, one after another. -/
def interpretEach (env : Environment) : List Expr → Option Outcome
  | [] => some (.continues env)
  | statement :: rest => do
      match ← statement.interpret env with
      | .continues next => interpretEach next rest
      | .returned datum => return .returned datum

end

/-- What a function returns. -/
def Function.interpret (func : Function) : Option Datum := do
  match ← func.body.interpret arith [] with
  | .continues _ => none
  | .returned datum => return datum

end Llast
