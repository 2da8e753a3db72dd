import Llast.StructuredModules

/-!
# Well-formed code does not get stuck

Progress and preservation for the instructions of a block.  While a block of a
well-formed module is executed, every register and every cell holds a datum of its
type, so that each instruction finds what it uses; only a division can be without a
result.  Where no division is, a call returns a datum of the function's type.
-/

namespace Llast

open Llast.EventRun
open Llast.CodeGenVisitor

/-! ## Data of a type -/

/-- The datum is of the type; `undef` is of any. -/
def Datum.FitsType (type : LlvmType) : Datum → Prop
  | .int _ => type = .int32
  | .float _ => type = .float
  | .undef => True

theorem Datum.fitsType_int32_iff {datum : Datum} :
    datum.FitsType .int32 ↔ datum.Fits .int32 := by
  cases datum <;> simp [Datum.FitsType, Datum.Fits]

theorem Datum.fitsType_float_iff {datum : Datum} :
    datum.FitsType .float ↔ datum.Fits .float := by
  cases datum <;> simp [Datum.FitsType, Datum.Fits]

/-- The divisor of a signed division is known, and neither 0 nor -1. -/
def Opcode.DividesBy (opcode : Opcode) (divisor : Value) : Prop :=
  opcode = .sdiv →
    ∃ value, divisor = .constant (.int value) ∧ value ≠ 0 ∧ value ≠ -1

/-- The folded operations have operands of their type, and divide safely. -/
def Constant.Defined : Constant → Prop
  | .int _ => True
  | .float _ => True
  | .binary opcode lhs rhs =>
      lhs.Defined ∧ rhs.Defined ∧ lhs.type = opcode.operandType ∧
        rhs.type = opcode.operandType ∧ opcode.DividesBy (.constant rhs)

def Value.Defined : Value → Prop
  | .constant known => known.Defined
  | .instruction _ _ => True

/-- The constants an operation uses are defined, and so is its division. -/
structure Operation.Defined (operation : Operation) : Prop where
  constants : ∀ value ∈ operation.operands, value.Defined
  divides : ∀ opcode lhs rhs, operation = .binary opcode lhs rhs →
    opcode.DividesBy rhs

variable (arith : FloatArith)

theorem Opcode.compute_fits (opcode : Opcode) {lhs rhs : Datum}
    (left : lhs.FitsType opcode.operandType)
    (right : rhs.FitsType opcode.operandType)
    (divisor : opcode = .sdiv →
      ∃ value, rhs = .int value ∧ value ≠ 0 ∧ value ≠ -1) :
    ∃ datum, opcode.compute arith lhs rhs = some datum ∧
      datum.FitsType opcode.operandType := by
  cases opcode with
  | add | sub | mul =>
      simp only [Opcode.operandType, Datum.fitsType_int32_iff] at left right ⊢
      exact Datum.onInts_fits _ left right
  | sdiv =>
      rcases divisor rfl with ⟨value, rfl, notZero, notMinusOne⟩
      simp only [Opcode.operandType, Datum.fitsType_int32_iff] at left ⊢
      exact Datum.divideInts_fits left notZero notMinusOne
  | fadd | fsub | fmul | fdiv =>
      simp only [Opcode.operandType, Datum.fitsType_float_iff] at left right ⊢
      exact Datum.onFloats_fits _ left right

/-- A divisor is read as what it is known to be. -/
theorem Opcode.DividesBy.datum {opcode : Opcode} {divisor : Value}
    (divides : opcode.DividesBy divisor) (machine : Machine) {datum : Datum}
    (reads : machine.read arith divisor = some datum) (isDivision : opcode = .sdiv) :
    ∃ value, datum = .int value ∧ value ≠ 0 ∧ value ≠ -1 := by
  rcases divides isDivision with ⟨value, rfl, notZero, notMinusOne⟩
  cases reads
  exact ⟨value, rfl, notZero, notMinusOne⟩

theorem Constant.compute_fits {known : Constant} (defined : known.Defined) :
    ∃ datum, known.compute arith = some datum ∧ datum.FitsType known.type := by
  induction known with
  | int value => exact ⟨.int value, rfl, rfl⟩
  | float value => exact ⟨.float value, rfl, rfl⟩
  | binary opcode lhs rhs leftIH rightIH =>
      rcases defined with ⟨left, right, leftType, rightType, divides⟩
      rcases leftIH left with ⟨leftDatum, leftComputes, leftFits⟩
      rcases rightIH right with ⟨rightDatum, rightComputes, rightFits⟩
      rw [leftType] at leftFits
      rw [rightType] at rightFits
      rcases opcode.compute_fits arith leftFits rightFits
        (divides.datum arith {} rightComputes) with ⟨datum, computes, fits⟩
      refine ⟨datum, ?_, ?_⟩
      · simp [Constant.compute, leftComputes, rightComputes,
          Opcode.fold_of_compute arith computes]
      · rw [Constant.type, if_pos ⟨leftType, rightType⟩]
        exact fits

/-! ## What holds while a block is executed -/

/-- The registers and cells of these instructions hold data of their types. -/
structure Machine.Holds (machine : Machine) (code : List Instruction) :
    Prop where
  registers : ∀ instruction ∈ code,
    instruction.operation.resultType.Sized →
      ∃ datum, machine.registers instruction.address = some datum ∧
        datum.FitsType instruction.operation.resultType
  memory : ∀ instruction ∈ code, ∀ type name,
    instruction.operation = .alloca type name →
      ∃ datum, machine.memory instruction.address = some datum ∧
        datum.FitsType type

/-- The code of one block, with all that it needs. -/
structure SafeBlock (returnType : Option LlvmType) (code : List Instruction) :
    Prop where
  ascending : (code.map Instruction.address).Pairwise (· < ·)
  supplied : Throughout
    (fun past instruction =>
      instruction.operation.SuppliedBy past instruction.parent) code
  wellTyped : ∀ instruction ∈ code, instruction.operation.WellTyped returnType
  sized : ∀ instruction ∈ code, instruction.operation.shape.Sized
  defined : ∀ instruction ∈ code, instruction.operation.Defined

section Holds

variable {machine : Machine} {past : List Instruction}

theorem Machine.Holds.read (holds : machine.Holds past) {value : Value}
    (supplied : value.DefinedIn past) (defined : value.Defined)
    (sized : value.type.Sized) :
    ∃ datum, machine.read arith value = some datum ∧
      datum.FitsType value.type := by
  cases value with
  | constant known => exact Constant.compute_fits arith defined
  | instruction address type =>
      rcases supplied with absurdity | ⟨definition, member, same⟩
      · cases absurdity
      · cases same
        exact holds.registers definition member sized

/-- An operation on two values of its type yields a datum of its type. -/
theorem Machine.Holds.computes (holds : machine.Holds past) {opcode : Opcode}
    {lhs rhs : Value} {block : Nat}
    (supplied : (Operation.binary opcode lhs rhs).SuppliedBy past block)
    (defined : (Operation.binary opcode lhs rhs).Defined)
    (leftType : lhs.type = opcode.operandType)
    (rightType : rhs.type = opcode.operandType) :
    ∃ left right datum, machine.read arith lhs = some left ∧
      machine.read arith rhs = some right ∧
        opcode.compute arith left right = some datum ∧
          datum.FitsType opcode.operandType := by
  have leftUsed : lhs ∈ (Operation.binary opcode lhs rhs).operands := by
    simp [Operation.operands]
  have rightUsed : rhs ∈ (Operation.binary opcode lhs rhs).operands := by
    simp [Operation.operands]
  have sized : opcode.operandType.Sized := by
    cases opcode <;> trivial
  rcases holds.read arith (supplied.operands lhs leftUsed)
    (defined.constants lhs leftUsed) (leftType ▸ sized) with
    ⟨left, leftReads, leftFits⟩
  rcases holds.read arith (supplied.operands rhs rightUsed)
    (defined.constants rhs rightUsed) (rightType ▸ sized) with
    ⟨right, rightReads, rightFits⟩
  rw [leftType] at leftFits
  rw [rightType] at rightFits
  have divides := defined.divides opcode lhs rhs rfl
  rcases opcode.compute_fits arith leftFits rightFits
    (divides.datum arith machine rightReads) with ⟨datum, computes, fits⟩
  exact ⟨left, right, datum, leftReads, rightReads, computes, fits⟩

theorem Machine.Holds.cell (holds : machine.Holds past) {pointer : AllocaInst}
    {block : Nat} (allocated : pointer.AllocatedIn past block) :
    ∃ datum, machine.memory pointer.address = some datum ∧
      datum.FitsType pointer.allocatedType := by
  rcases allocated with ⟨name, member⟩
  exact holds.memory _ member _ name rfl

/-- An instruction that makes no value keeps what holds of the registers. -/
theorem Machine.Holds.setRegister (holds : machine.Holds past)
    {instruction : Instruction} {datum : Datum}
    (fresh : ∀ earlier ∈ past, earlier.address ≠ instruction.address)
    (fits : datum.FitsType instruction.operation.resultType)
    (noAlloca : ∀ type name, instruction.operation ≠ .alloca type name) :
    (machine.setRegister instruction.address datum).Holds
      (past ++ [instruction]) := by
  constructor
  · intro other member sized
    rcases List.mem_append.mp member with member | member
    · rcases holds.registers other member sized with ⟨kept, found, fitsKept⟩
      refine ⟨kept, ?_, fitsKept⟩
      rw [← found]
      exact Function.update_of_ne (fresh other member) ..
    · rw [List.mem_singleton.mp member]
      exact ⟨datum, Function.update_self .., fits⟩
  · intro other member type name same
    rcases List.mem_append.mp member with member | member
    · exact holds.memory other member type name same
    · rw [List.mem_singleton.mp member] at same
      exact absurd same (noAlloca type name)

/-- Writing a datum of the cell's type keeps what holds of the cells. -/
theorem Machine.Holds.setCell (holds : machine.Holds past) {address : Nat}
    {datum : Datum}
    (fits : ∀ instruction ∈ past, ∀ type name,
      instruction.operation = .alloca type name →
        instruction.address = address → datum.FitsType type) :
    (machine.setCell address datum).Holds past := by
  refine ⟨holds.registers, ?_⟩
  intro other member type name same
  by_cases here : other.address = address
  · refine ⟨datum, ?_, fits other member type name same here⟩
    rw [here]
    exact Function.update_self ..
  · rcases holds.memory other member type name same with ⟨kept, found, fitsKept⟩
    refine ⟨kept, ?_, fitsKept⟩
    rw [← found]
    exact Function.update_of_ne here ..

/-- An instruction whose result is no value adds nothing to the registers. -/
theorem Machine.Holds.append_unsized (holds : machine.Holds past)
    {instruction : Instruction}
    (unsized : ¬ instruction.operation.resultType.Sized)
    (cell : ∀ type name, instruction.operation = .alloca type name →
      ∃ datum, machine.memory instruction.address = some datum ∧
        datum.FitsType type) :
    machine.Holds (past ++ [instruction]) := by
  constructor
  · intro other member sized
    rcases List.mem_append.mp member with member | member
    · exact holds.registers other member sized
    · rw [List.mem_singleton.mp member] at sized
      exact absurd sized unsized
  · intro other member type name same
    rcases List.mem_append.mp member with member | member
    · exact holds.memory other member type name same
    · rw [List.mem_singleton.mp member] at same ⊢
      exact cell type name same

end Holds

/-! ## Executing a block -/

section SafeBlock

variable {returnType : Option LlvmType} {past rest : List Instruction}
variable {instruction : Instruction}

theorem SafeBlock.fresh
    (safe : SafeBlock returnType (past ++ instruction :: rest)) :
    ∀ earlier ∈ past, earlier.address < instruction.address := by
  intro earlier member
  have ascending := safe.ascending
  rw [List.map_append, List.map_cons, List.pairwise_append] at ascending
  exact ascending.2.2 _ (List.mem_map_of_mem member) _ List.mem_cons_self

/-- An address tells the alloca. -/
theorem SafeBlock.alloca_unique
    (safe : SafeBlock returnType (past ++ instruction :: rest))
    {pointer : AllocaInst} {block : Nat}
    (allocated : pointer.AllocatedIn past block) :
    ∀ other ∈ past, ∀ type name, other.operation = .alloca type name →
      other.address = pointer.address → type = pointer.allocatedType := by
  intro other member type name same here
  rcases allocated with ⟨pointerName, pointerMember⟩
  have ascending := safe.ascending
  rw [List.map_append, List.pairwise_append] at ascending
  have equal := eq_of_address ascending.1 member pointerMember here
  rw [equal] at same
  cases same
  rfl

/-- The cells a block uses are sized. -/
theorem SafeBlock.allocated_sized
    (safe : SafeBlock returnType (past ++ instruction :: rest))
    {pointer : AllocaInst} {block : Nat}
    (allocated : pointer.AllocatedIn past block) :
    pointer.allocatedType.Sized := by
  rcases allocated with ⟨name, member⟩
  exact safe.sized _ (List.mem_append_left _ member)

/-- Every instruction that does not return finds what it uses. -/
theorem Machine.Holds.step {machine : Machine} (holds : machine.Holds past)
    (safe : SafeBlock returnType (past ++ instruction :: rest))
    (goesOn : ¬ instruction.operation.IsRet) :
    ∃ next, machine.step arith instruction = some next ∧
      next.Holds (past ++ [instruction]) := by
  have here : instruction ∈ past ++ instruction :: rest := by simp
  have supplied := safe.supplied past instruction rest rfl
  have wellTyped := safe.wellTyped instruction here
  have defined := safe.defined instruction here
  have fresh : ∀ earlier ∈ past, earlier.address ≠ instruction.address :=
    fun earlier member => (safe.fresh earlier member).ne
  rcases instruction with ⟨address, parent, operation⟩
  cases operation with
  | alloca type name =>
      refine ⟨machine.setCell address .undef, rfl, ?_⟩
      have kept := @Machine.Holds.setCell _ _ holds address .undef
        fun _ _ _ _ _ _ => trivial
      refine kept.append_unsized id fun other otherName _ => ?_
      exact ⟨.undef, Function.update_self .., trivial⟩
  | load pointer =>
      rcases holds.cell (supplied.pointer pointer rfl) with ⟨datum, found, fits⟩
      refine ⟨machine.setRegister address datum, ?_, ?_⟩
      · simp [Machine.step, found]
      · exact holds.setRegister fresh fits fun _ _ => Operation.noConfusion
  | store value pointer =>
      have allocated := supplied.pointer pointer rfl
      have typed : value.type = pointer.allocatedType := wellTyped
      have sized : value.type.Sized := by
        rw [wellTyped]
        exact safe.allocated_sized allocated
      rcases holds.read arith (supplied.operands value List.mem_cons_self)
        (defined.constants value List.mem_cons_self) sized with
        ⟨datum, reads, fits⟩
      rcases holds.cell allocated with ⟨old, found, -⟩
      refine ⟨machine.setCell pointer.address datum, ?_, ?_⟩
      · simp [Machine.step, reads, found, typed]
      · rw [wellTyped] at fits
        have kept := @Machine.Holds.setCell _ _ holds pointer.address datum
          fun other member type name same place => by
            rw [safe.alloca_unique allocated other member type name same place]
            exact fits
        exact kept.append_unsized id fun _ _ => Operation.noConfusion
  | binary opcode lhs rhs =>
      rcases holds.computes arith supplied defined wellTyped.1 wellTyped.2 with
        ⟨leftDatum, rightDatum, datum, leftReads, rightReads, computes, fits⟩
      refine ⟨machine.setRegister address datum, ?_, ?_⟩
      · simp [Machine.step, leftReads, rightReads, computes, wellTyped.1,
          wellTyped.2]
      · refine holds.setRegister fresh ?_ fun _ _ => Operation.noConfusion
        show datum.FitsType lhs.type
        rw [wellTyped.1]
        exact fits
  | ret value => exact absurd trivial goesOn

/-- Instructions that do not return are executed one after another. -/
theorem SafeBlock.proceed
    (safe : SafeBlock returnType (past ++ rest))
    (goesOn : ∀ instruction ∈ past, ¬ instruction.operation.IsRet) :
    ∃ machine, Machine.proceed arith {} past = some machine ∧
      machine.Holds past := by
  induction past using List.reverseRecOn generalizing rest with
  | nil => exact ⟨{}, rfl, ⟨nofun, nofun⟩⟩
  | append_singleton past instruction ih =>
      rw [List.append_assoc, List.cons_append, List.nil_append] at safe
      rw [List.forall_mem_append] at goesOn
      rcases ih safe goesOn.1 with ⟨machine, proceeds, holds⟩
      rcases holds.step arith safe (goesOn.2 _ List.mem_cons_self) with
        ⟨next, steps, after⟩
      refine ⟨next, ?_, after⟩
      rw [Machine.proceed_append arith proceeds, Machine.proceed, steps]
      rfl

/-- A block that ends in its only return returns a datum of its type. -/
theorem SafeBlock.execute {code : List Instruction}
    (safe : SafeBlock returnType code)
    (complete : CompleteBlock (code.map fun instruction =>
      instruction.operation.shape)) :
    ∃ type datum, returnType = some type ∧
      Machine.execute arith type {} code = some datum ∧ datum.FitsType type := by
  rcases complete.returns with ⟨shapes, type, parts, inner⟩
  rcases List.map_eq_append_iff.mp parts with ⟨before, last, rfl, rfl, ends⟩
  rcases List.map_eq_singleton_iff.mp ends with ⟨instruction, rfl, isRet⟩
  have goesOn : ∀ earlier ∈ before, ¬ earlier.operation.IsRet := by
    intro earlier member isReturn
    apply inner _ (List.mem_map_of_mem member)
    cases same : earlier.operation with
    | ret value => trivial
    | _ => rw [same] at isReturn; exact isReturn
  have here : instruction ∈ before ++ [instruction] := by simp
  have supplied := safe.supplied before instruction [] rfl
  have wellTyped := safe.wellTyped instruction here
  have sized := safe.sized instruction here
  have defined := safe.defined instruction here
  rcases safe.proceed arith goesOn with ⟨machine, proceeds, holds⟩
  rcases instruction with ⟨address, parent, operation⟩
  cases operation with
  | ret value =>
      rcases holds.read arith (supplied.operands value List.mem_cons_self)
        (defined.constants value List.mem_cons_self) sized with
        ⟨datum, reads, fits⟩
      refine ⟨value.type, datum, wellTyped, ?_, fits⟩
      rw [Machine.execute_append arith _ proceeds]
      exact (if_pos rfl).trans reads
  | _ => cases isRet

end SafeBlock

/-! ## Well-formed modules -/

/-- Each instruction of a block stands behind the block's part of the code before. -/
theorem LlvmModule.split_of_blockCode {owner : LlvmModule} {block : Nat}
    {past rest : List Instruction} {instruction : Instruction}
    (split : owner.blockCode block = past ++ instruction :: rest) :
    ∃ before after, owner.instructions = before ++ instruction :: after ∧
      before.filter (fun other => other.parent = block) = past ∧
        instruction.parent = block := by
  rcases List.filter_eq_append_iff.mp split with
    ⟨first, second, parts, firstEq, secondEq⟩
  rcases List.filter_eq_cons_iff.mp secondEq with
    ⟨skipped, after, partsAfter, none, here, -⟩
  refine ⟨first ++ skipped, after, ?_, ?_, of_decide_eq_true here⟩
  · rw [parts, partsAfter, List.append_assoc]
  · rw [List.filter_append, firstEq, List.filter_eq_nil_iff.mpr none,
      List.append_nil]

/-- A block of a well-formed module has all that it needs. -/
theorem LlvmModule.WellFormed.safeBlock {owner : LlvmModule}
    (wellFormed : owner.WellFormed) {block : Nat}
    (inside : block < owner.blocks.length)
    (defined : ∀ instruction ∈ owner.blockCode block,
      instruction.operation.Defined) :
    SafeBlock (owner.returnTypeOf block) (owner.blockCode block) where
  ascending :=
    wellFormed.ssa.ascending.sublist (List.filter_sublist.map _)
  supplied past instruction rest split := by
    rcases LlvmModule.split_of_blockCode split with
      ⟨before, after, parts, rfl, parent⟩
    have supplied := wellFormed.ssa.supplied before instruction after parts
    have usesLocally := wellFormed.usesLocally before instruction after parts
    constructor
    · intro value member
      rcases supplied.operands value member with constant | ⟨definition, known, same⟩
      · exact .inl constant
      · refine .inr ⟨definition, List.mem_filter.mpr ⟨known, ?_⟩, same⟩
        rw [usesLocally value member definition known same, parent]
        exact decide_eq_true rfl
    · intro pointer accesses
      rcases supplied.pointer pointer accesses with ⟨name, known⟩
      exact ⟨name, List.mem_filter.mpr ⟨known, decide_eq_true parent⟩⟩
  wellTyped instruction member := by
    rcases List.mem_filter.mp member with ⟨known, parent⟩
    rw [← of_decide_eq_true parent]
    exact wellFormed.wellTyped instruction known
  sized instruction member :=
    (wellFormed.complete block inside).sized _ (List.mem_map_of_mem member)
  defined := defined

/--
Calling a function of a plainly named module whose tree is sound returns a datum of
the function's type, if the function's code divides integers by known numbers other
than 0 and -1 only and its folded operations have operands of their type.
-/
theorem sound_call_returns {owner : Module} {final : CodeGenVisitor}
    (completes : walkTree codeGen owner {} = .ok () final)
    (sound : owner.Sound) (plain : owner.PlainNames) {name : String} {child : Nat}
    {func : Function} (first : owner.firstNamed name = some child)
    (place : owner.functions[child]? = some (some func))
    (defined : ∀ instruction ∈ final.module_.blockCode child,
      instruction.operation.Defined) :
    ∃ datum, ExprRunner.addAndCall arith owner name = .ok (some datum) ∧
      datum.FitsType (llvmType func.returnType) := by
  have wellFormed := sound.wellFormed completes
  rcases Module.symbol_of_walk completes place with ⟨block, found, -, entry⟩
  have inside := (List.getElem?_eq_some_iff.mp found).1
  have safe := wellFormed.safeBlock inside defined
  rcases safe.execute arith (wellFormed.complete child inside) with
    ⟨type, datum, returnType, executes, fits⟩
  have known : final.module_.returnTypeOf child =
      some (llvmType func.returnType) := by
    simp [LlvmModule.returnTypeOf, found, entry]
  rw [known] at returnType
  cases returnType
  have present : name ≠ "" := (Module.plainName_of_firstNamed plain first).1
  refine ⟨datum, ?_, fits⟩
  rw [ExprRunner.addAndCall_of_walk arith completes,
    ExprRunner.machineCall_of_firstNamed arith completes present first place,
    ← Module.execute_blockCode arith completes place, executes]

theorem sound_call_returns_restored :
    ∃ datum,
      ExprRunner.addAndCall .binary32 restoredModule "f" = .ok (some datum) ∧
        datum.FitsType .int32 := by
  have completed : completedWith (fun final =>
      decide ((final.module_.blockCode 0).map Instruction.operation =
        [.alloca .int32 "x", .store (.constant (.int 6)) ⟨0, .int32⟩,
          .alloca .float "x",
          .store (.constant (.float 0x3fc00000)) ⟨2, .float⟩,
          .load ⟨2, .float⟩, .load ⟨0, .int32⟩,
          .binary .mul (.instruction 5 .int32) (.constant (.int 7)),
          .ret (.instruction 6 .int32)]))
      (walkTree codeGen restoredModule {}) = true := by
    decide +kernel
  rcases exists_of_completedWith completed with ⟨final, completes, code⟩
  have first : restoredModule.firstNamed "f" = some 0 := rfl
  have place : restoredModule.functions[0]? = some (some restoredFunction) := rfl
  refine sound_call_returns .binary32 completes restoredModule_made.sound
    restoredModule_plain first place ?_
  intro instruction member
  have among := List.mem_map_of_mem (f := Instruction.operation) member
  rw [of_decide_eq_true code] at among
  -- the constants are literals, and the only operation is a multiplication
  generalize instruction.operation = operation at among ⊢
  constructor
  · revert operation
    simp [Operation.operands, Value.Defined, Constant.Defined]
  · rintro opcode lhs rhs rfl isDivision
    simp [isDivision] at among

end Llast
