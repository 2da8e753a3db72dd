import Mathlib.Data.List.Nodup
import Llast.Ast

/-!
# The part of LLVM that code generation touches

A module is kept as three tables in which everything names its parent, the way
`getParent()` does: functions, basic blocks (each belonging to a function) and
instructions (each belonging to a block, in the order of insertion).  An
instruction is identified by the address of its object, and a value carries its
type, so that no table is needed to ask for it.

An operation on two constants emits no instruction: `IRBuilder` hands it to its
folder, and the answer is again a constant.  `Constant.binary` is that
constant; what it is worth is decided where constants are evaluated.  Which type it
has is known only if both operands have the type of the opcode: LLVM asserts that
they do, and a build without assertions simplifies the operation in its own way.
-/

namespace Llast

/-- The types the code generator uses, and the one of what LLVM leaves open. -/
inductive LlvmType where
  | void
  | int8
  | int32
  | float
  | double
  | pointer (element : LlvmType)
  | unspecified
deriving DecidableEq, Repr

/-- The arithmetic opcodes of the `Create…` functions the generator calls. -/
inductive Opcode where
  | add
  | sub
  | mul
  | sdiv
  | fadd
  | fsub
  | fmul
  | fdiv
deriving DecidableEq, Repr

/-- The one type both operands of an opcode must have. -/
def Opcode.operandType : Opcode → LlvmType
  | .add | .sub | .mul | .sdiv => .int32
  | .fadd | .fsub | .fmul | .fdiv => .float

/-- An `llvm::Constant`. -/
inductive Constant where
  | int (value : BitVec 32)
  | float (value : BitVec 32)
  | binary (opcode : Opcode) (lhs rhs : Constant)
deriving DecidableEq, Repr

/--
The type of a constant.  That of a folded operation is specified only where both
operands have the type of the opcode.
-/
def Constant.type : Constant → LlvmType
  | .int _ => .int32
  | .float _ => .float
  | .binary opcode lhs rhs =>
      if lhs.type = opcode.operandType ∧ rhs.type = opcode.operandType then
        opcode.operandType
      else
        .unspecified

/-- An `llvm::Value *` that can lie on the value stack. -/
inductive Value where
  | constant (known : Constant)
  | instruction (address : Nat) (type : LlvmType)
deriving DecidableEq, Repr

/-- `Value::getType`. -/
def Value.type : Value → LlvmType
  | .constant known => known.type
  | .instruction _ type => type

/-- `isa<Constant>`. -/
def Value.isConstant : Value → Bool
  | .constant _ => true
  | .instruction _ _ => false

/-- An `llvm::AllocaInst *`. -/
structure AllocaInst where
  address : Nat
  allocatedType : LlvmType
deriving DecidableEq, Repr

/-- What an instruction does. -/
inductive Operation where
  | alloca (type : LlvmType) (name : String)
  | load (pointer : AllocaInst)
  | store (value : Value) (pointer : AllocaInst)
  | binary (opcode : Opcode) (lhs rhs : Value)
  | ret (value : Value)
deriving DecidableEq, Repr

/-- An `llvm::Instruction` object; `parent` is the number of its block. -/
structure Instruction where
  address : Nat
  parent : Nat
  operation : Operation
deriving DecidableEq, Repr

/-- An `llvm::Function` object of a module. -/
structure LlvmFunction where
  name : String
  returnType : LlvmType
  argTypes : List LlvmType
deriving DecidableEq, Repr

/-- An `llvm::BasicBlock` object; `parent` is the number of its function. -/
structure BasicBlock where
  name : String
  parent : Nat
deriving DecidableEq, Repr

/-- An `llvm::Module` object. -/
structure LlvmModule where
  name : String
  functions : List LlvmFunction := []
  blocks : List BasicBlock := []
  instructions : List Instruction := []
deriving DecidableEq, Repr

/-- The symbol table of a module has no entry for what is called `""`. -/
def LlvmFunction.IsNamed (name : String) (function : LlvmFunction) : Prop :=
  name ≠ "" ∧ function.name = name

instance (name : String) : DecidablePred (LlvmFunction.IsNamed name) :=
  fun function => inferInstanceAs (Decidable (name ≠ "" ∧ function.name = name))

/-- `Module::getFunction`: what a name stands for in the module's symbol table. -/
def LlvmModule.getFunction (owner : LlvmModule) (name : String) : Option Nat :=
  owner.functions.findIdx? fun function => function.IsNamed name

theorem LlvmModule.getFunction_empty (owner : LlvmModule) :
    owner.getFunction "" = none := by
  simp [LlvmModule.getFunction, LlvmFunction.IsNamed, List.findIdx?_eq_none_iff]

/-- What `getOrInsertFunction` returns. -/
inductive FunctionConstant where
  | function (index : Nat)
  | bitCast (index : Nat)
deriving DecidableEq, Repr

/--
`Module::getOrInsertFunction`, which takes the types of the arguments after the
return type: the function of that name when there is one of the same type, a cast
of it when its type is another, and a new function otherwise.
-/
def LlvmModule.getOrInsertFunction (owner : LlvmModule) (name : String)
    (returnType : LlvmType) (argTypes : List LlvmType := []) :
    LlvmModule × FunctionConstant :=
  match owner.getFunction name with
  | some index =>
      if (owner.functions[index]?.map fun function =>
          (function.returnType, function.argTypes)) =
          some (returnType, argTypes) then
        (owner, .function index)
      else
        (owner, .bitCast index)
  | none =>
      ({ owner with
          functions := owner.functions ++ [⟨name, returnType, argTypes⟩] },
        .function owner.functions.length)

section GetOrInsertFunction

variable {owner : LlvmModule} {name : String}

/-- A taken name stands for the first function of that name. -/
theorem LlvmModule.getFunction_of_find {entry : LlvmFunction}
    (found :
      owner.functions.find? (fun function => function.IsNamed name) =
        some entry) :
    ∃ index, owner.getFunction name = some index ∧
      owner.functions[index]? = some entry := by
  rw [List.find?_eq_bind_findIdx?_getElem?, Option.bind_eq_some_iff] at found
  exact found

theorem LlvmModule.getFunction_of_missing
    (missing :
      owner.functions.find? (fun function => function.IsNamed name) = none) :
    owner.getFunction name = none := by
  rw [List.find?_eq_none] at missing
  rw [LlvmModule.getFunction, List.findIdx?_eq_none_iff]
  intro function member
  simpa using missing function member

theorem LlvmModule.getOrInsertFunction_of_find {entry : LlvmFunction}
    (returnType : LlvmType)
    (found :
      owner.functions.find? (fun function => function.IsNamed name) =
        some entry) :
    ∃ index, owner.functions[index]? = some entry ∧
      owner.getOrInsertFunction name returnType =
        if entry.returnType = returnType ∧ entry.argTypes = [] then
          (owner, .function index)
        else
          (owner, .bitCast index) := by
  rcases LlvmModule.getFunction_of_find found with ⟨index, known, holds⟩
  refine ⟨index, holds, ?_⟩
  rw [LlvmModule.getOrInsertFunction, known]
  simp only [holds, Option.map_some, Option.some.injEq, Prod.mk.injEq]

theorem LlvmModule.getOrInsertFunction_of_missing (returnType : LlvmType)
    (missing :
      owner.functions.find? (fun function => function.IsNamed name) = none) :
    owner.getOrInsertFunction name returnType =
      ({ owner with
          functions := owner.functions ++ [⟨name, returnType, []⟩] },
        .function owner.functions.length) := by
  rw [LlvmModule.getOrInsertFunction, LlvmModule.getFunction_of_missing missing]

/-- A function that is returned as such has the name and the type asked for. -/
theorem LlvmModule.getOrInsertFunction_entry {next : LlvmModule}
    {returnType : LlvmType} {index : Nat}
    (inserts :
      owner.getOrInsertFunction name returnType = (next, .function index)) :
    next.blocks = owner.blocks ∧ next.instructions = owner.instructions ∧
      (∃ functions, next.functions = owner.functions ++ functions) ∧
        next.functions[index]? = some ⟨name, returnType, []⟩ := by
  cases found :
      owner.functions.find? (fun function => function.IsNamed name) with
  | some entry =>
      rcases LlvmModule.getOrInsertFunction_of_find returnType found with
        ⟨place, holds, inserted⟩
      rw [inserted] at inserts
      split at inserts
      · cases inserts
        rename_i same
        have isNamed : entry.IsNamed name := by
          simpa using List.find?_some found
        have named : entry.name = name := isNamed.2
        refine ⟨rfl, rfl, ⟨[], (List.append_nil _).symm⟩, ?_⟩
        rw [holds, ← named, ← same.1, ← same.2]
      · cases inserts
  | none =>
      rw [LlvmModule.getOrInsertFunction_of_missing returnType found]
        at inserts
      cases inserts
      exact ⟨rfl, rfl, ⟨_, rfl⟩, by simp⟩

/-- A known name keeps its meaning when functions are added. -/
theorem LlvmModule.getFunction_append {next : LlvmModule}
    {functions : List LlvmFunction} {index : Nat}
    (appended : next.functions = owner.functions ++ functions)
    (known : owner.getFunction name = some index) :
    next.getFunction name = some index := by
  rw [LlvmModule.getFunction] at known ⊢
  rw [appended, List.findIdx?_append, known]
  rfl

/-- What was inserted under a name is found under it, unless the name is empty. -/
theorem LlvmModule.getFunction_of_getOrInsertFunction {next : LlvmModule}
    {returnType : LlvmType} {index : Nat} (present : name ≠ "")
    (inserts :
      owner.getOrInsertFunction name returnType = (next, .function index)) :
    next.getFunction name = some index := by
  unfold LlvmModule.getOrInsertFunction at inserts
  cases known : owner.getFunction name with
  | some place =>
      simp only [known] at inserts
      split at inserts
      · cases inserts
        exact known
      · cases inserts
  | none =>
      simp only [known] at inserts
      cases inserts
      rw [LlvmModule.getFunction] at known ⊢
      rw [List.findIdx?_append, known]
      simp [LlvmFunction.IsNamed, present]

end GetOrInsertFunction

/-- The instructions of a block. -/
def LlvmModule.blockCode (owner : LlvmModule) (block : Nat) :
    List Instruction :=
  owner.instructions.filter fun instruction => instruction.parent = block

/-- The numbers of the blocks of a function. -/
def LlvmModule.functionBlocks (owner : LlvmModule) (function : Nat) :
    List Nat :=
  (owner.blocks.zipIdx.filter fun block => block.1.parent = function).map
    Prod.snd

theorem LlvmModule.mem_functionBlocks {owner : LlvmModule}
    {function block : Nat} :
    block ∈ owner.functionBlocks function ↔
      ∃ basicBlock, owner.blocks[block]? = some basicBlock ∧
        basicBlock.parent = function := by
  simp only [LlvmModule.functionBlocks, List.mem_map, List.mem_filter,
    decide_eq_true_eq]
  constructor
  · rintro ⟨⟨basicBlock, number⟩, ⟨member, parent⟩, rfl⟩
    exact ⟨basicBlock, List.mem_zipIdx_iff_getElem?.mp member, parent⟩
  · rintro ⟨basicBlock, place, parent⟩
    exact ⟨(basicBlock, block),
      ⟨List.mem_zipIdx_iff_getElem?.mpr place, parent⟩, rfl⟩

theorem LlvmModule.functionBlocks_nodup (owner : LlvmModule)
    (function : Nat) : (owner.functionBlocks function).Nodup := by
  have numbers : (owner.blocks.zipIdx.map Prod.snd).Nodup := by
    rw [List.zipIdx_map_snd]
    exact List.nodup_range'
  exact numbers.sublist (List.filter_sublist.map Prod.snd)

end Llast
