import Mathlib.Logic.Function.Basic
import Llast.Llvm

/-!
# Executing the code of a block

What the instructions of one block compute.  Registers and memory are finite maps by
address: an instruction writes the register of its own address, an `alloca` the cell
of its own address.  An uninitialized cell holds `undef`, a value that is left open, and
so is what arithmetic makes of it, also where LLVM promises more, as for a product with
0.  Where LLVM leaves the behaviour undefined, as for a division by zero or a `ret` of a
value of another type than the function's, execution has no result.  Where it only
leaves a value open, as for a folded division by zero, the value is `undef`.

The arithmetic of binary32 is a parameter, on bit patterns.
-/

namespace Llast

/-! ## Data and arithmetic -/

/-- What a register or a cell holds; `undef` is a value that LLVM leaves open. -/
inductive Datum where
  | int (value : BitVec 32)
  | float (value : BitVec 32)
  | undef
deriving DecidableEq, Repr

/-- The four operations of binary32 on bit patterns. -/
structure FloatArith where
  add : BitVec 32 → BitVec 32 → BitVec 32
  sub : BitVec 32 → BitVec 32 → BitVec 32
  mul : BitVec 32 → BitVec 32 → BitVec 32
  div : BitVec 32 → BitVec 32 → BitVec 32

/-- The arithmetic of the processor. -/
def FloatArith.binary32 : FloatArith where
  add lhs rhs := (Float32.ofBits ⟨lhs⟩ + Float32.ofBits ⟨rhs⟩).toBits.toBitVec
  sub lhs rhs := (Float32.ofBits ⟨lhs⟩ - Float32.ofBits ⟨rhs⟩).toBits.toBitVec
  mul lhs rhs := (Float32.ofBits ⟨lhs⟩ * Float32.ofBits ⟨rhs⟩).toBits.toBitVec
  div lhs rhs := (Float32.ofBits ⟨lhs⟩ / Float32.ofBits ⟨rhs⟩).toBits.toBitVec

namespace Datum

/-- A total operation on integers. -/
def onInts (operation : BitVec 32 → BitVec 32 → BitVec 32) :
    Datum → Datum → Option Datum
  | .int lhs, .int rhs => some (.int (operation lhs rhs))
  | .int _, .undef => some .undef
  | .undef, .int _ => some .undef
  | .undef, .undef => some .undef
  | _, _ => none

/-- A total operation on floats. -/
def onFloats (operation : BitVec 32 → BitVec 32 → BitVec 32) :
    Datum → Datum → Option Datum
  | .float lhs, .float rhs => some (.float (operation lhs rhs))
  | .float _, .undef => some .undef
  | .undef, .float _ => some .undef
  | .undef, .undef => some .undef
  | _, _ => none

/--
The signed division of integers.  It is undefined for the divisor 0, for the least
integer divided by -1, and where `undef` could be one of these.
-/
def divideInts : Datum → Datum → Option Datum
  | .int lhs, .int rhs =>
      if rhs = 0 ∨ lhs = BitVec.intMin 32 ∧ rhs = -1 then
        none
      else
        some (.int (lhs.sdiv rhs))
  | .undef, .int rhs => if rhs = 0 ∨ rhs = -1 then none else some .undef
  | _, _ => none

/-- The division of constants: a quotient that is not defined is left open. -/
def foldDivision : Datum → Datum → Option Datum
  | .float _, _ => none
  | _, .float _ => none
  | lhs, rhs => some ((lhs.divideInts rhs).getD .undef)

theorem foldDivision_of_divideInts {lhs rhs datum : Datum}
    (defined : lhs.divideInts rhs = some datum) :
    lhs.foldDivision rhs = some datum := by
  cases lhs <;> cases rhs <;>
    first
      | exact congrArg (fun known => some (known.getD .undef)) defined
      | cases defined

end Datum

variable (arith : FloatArith)

/-- What an opcode computes. -/
def Opcode.compute : Opcode → Datum → Datum → Option Datum
  | .add => Datum.onInts (· + ·)
  | .sub => Datum.onInts (· - ·)
  | .mul => Datum.onInts (· * ·)
  | .sdiv => Datum.divideInts
  | .fadd => Datum.onFloats arith.add
  | .fsub => Datum.onFloats arith.sub
  | .fmul => Datum.onFloats arith.mul
  | .fdiv => Datum.onFloats arith.div

/--
What LLVM's folder makes of an opcode and two constants.  No code is executed, so
nothing is undefined here.
-/
def Opcode.fold : Opcode → Datum → Datum → Option Datum
  | .sdiv => Datum.foldDivision
  | opcode => opcode.compute arith

/-- Where an operation is defined, folding it computes the same. -/
theorem Opcode.fold_of_compute {opcode : Opcode} {lhs rhs datum : Datum}
    (computes : opcode.compute arith lhs rhs = some datum) :
    opcode.fold arith lhs rhs = some datum := by
  cases opcode with
  | sdiv => exact Datum.foldDivision_of_divideInts computes
  | _ => exact computes

/-- What a constant is worth. -/
def Constant.compute : Constant → Option Datum
  | .int value => some (.int value)
  | .float value => some (.float value)
  | .binary opcode lhs rhs => do
      opcode.fold arith (← lhs.compute) (← rhs.compute)

/-! ## The machine -/

/-- The registers and the memory of a call. -/
structure Machine where
  registers : Nat → Option Datum := fun _ => none
  memory : Nat → Option Datum := fun _ => none

namespace Machine

/-- The datum of a value. -/
def read (machine : Machine) : Value → Option Datum
  | .constant known => known.compute arith
  | .instruction address _ => machine.registers address

/-- The machine after a register was written. -/
def setRegister (machine : Machine) (address : Nat) (datum : Datum) :
    Machine :=
  { machine with
    registers := Function.update machine.registers address (some datum) }

/-- The machine after a cell was written. -/
def setCell (machine : Machine) (address : Nat) (datum : Datum) : Machine :=
  { machine with
    memory := Function.update machine.memory address (some datum) }

/--
What an instruction does after which execution goes on.  An instruction that is not
well typed has no meaning.
-/
def step (machine : Machine) (instruction : Instruction) : Option Machine :=
  match instruction.operation with
  | .alloca _ _ => some (machine.setCell instruction.address .undef)
  | .load pointer => do
      let datum ← machine.memory pointer.address
      return machine.setRegister instruction.address datum
  | .store value pointer =>
      if value.type = pointer.allocatedType then do
        let datum ← machine.read arith value
        let _ ← machine.memory pointer.address
        return machine.setCell pointer.address datum
      else
        none
  | .binary opcode lhs rhs =>
      if lhs.type = opcode.operandType ∧ rhs.type = opcode.operandType then do
        let datum ← opcode.compute arith (← machine.read arith lhs)
          (← machine.read arith rhs)
        return machine.setRegister instruction.address datum
      else
        none
  | .ret _ => none

/-- The machine after instructions none of which returns. -/
def proceed : Machine → List Instruction → Option Machine
  | machine, [] => some machine
  | machine, instruction :: rest => do
      let next ← machine.step arith instruction
      next.proceed rest

/--
What the code of a function of this return type returns.  Code that ends without a
`ret` has no result, and neither has a `ret` of a value of another type.
-/
def execute (returnType : LlvmType) :
    Machine → List Instruction → Option Datum
  | _, [] => none
  | machine, instruction :: rest =>
      match instruction.operation with
      | .ret value =>
          if value.type = returnType then machine.read arith value else none
      | _ => do
          let next ← machine.step arith instruction
          next.execute returnType rest

theorem proceed_append_eq_bind (machine : Machine)
    (first second : List Instruction) :
    machine.proceed arith (first ++ second) =
      (machine.proceed arith first).bind fun next =>
        next.proceed arith second := by
  induction first generalizing machine with
  | nil => rfl
  | cons instruction rest ih =>
      rw [List.cons_append, proceed, proceed]
      cases steps : machine.step arith instruction with
      | none => rfl
      | some next => exact ih next

theorem proceed_append {machine next : Machine}
    {first : List Instruction}
    (proceeds : machine.proceed arith first = some next)
    (second : List Instruction) :
    machine.proceed arith (first ++ second) = next.proceed arith second := by
  rw [proceed_append_eq_bind, proceeds, Option.bind_some]

/-- Execution goes on where instructions that do not return have led to. -/
theorem execute_append {machine next : Machine} {first : List Instruction}
    (returnType : LlvmType)
    (proceeds : machine.proceed arith first = some next)
    (second : List Instruction) :
    machine.execute arith returnType (first ++ second) =
      next.execute arith returnType second := by
  induction first generalizing machine with
  | nil =>
      cases proceeds
      rfl
  | cons instruction rest ih =>
      rw [proceed] at proceeds
      rcases Option.bind_eq_some_iff.mp proceeds with ⟨after, steps, remaining⟩
      have same :
          machine.execute arith returnType (instruction :: (rest ++ second)) =
            after.execute arith returnType (rest ++ second) := by
        rw [execute, steps]
        cases operation : instruction.operation with
        | ret value =>
            rw [step, operation] at steps
            cases steps
        | _ => rfl
      rw [List.cons_append, same]
      exact ih remaining

end Machine

end Llast
