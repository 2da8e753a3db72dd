import Llast.Forecast

/-!
# What a callback emits

Inside a function a callback changes the LLVM module in one way only: it appends
instructions to the current block, numbered from the next address on.  `operations`
is what a callback emits in a given state; functions and blocks are created where a
function is entered.
-/

namespace Llast

open Llast.EventRun

/-- Operations as instructions of a block, numbered from an address on. -/
def placed : Nat → Nat → List Operation → List Instruction
  | _, _, [] => []
  | address, block, operation :: rest =>
      ⟨address, block, operation⟩ :: placed (address + 1) block rest

theorem placed_append (address block : Nat) (first second : List Operation) :
    placed address block (first ++ second) =
      placed address block first ++
        placed (address + first.length) block second := by
  induction first generalizing address with
  | nil => rfl
  | cons operation rest ih =>
      rw [List.cons_append, placed, ih, placed, List.cons_append,
        List.length_cons, Nat.add_assoc, Nat.add_comm 1]

theorem map_operation_placed (address block : Nat)
    (operations : List Operation) :
    (placed address block operations).map Instruction.operation =
      operations := by
  induction operations generalizing address with
  | nil => rfl
  | cons operation rest ih => rw [placed, List.map_cons, ih]

theorem parent_of_mem_placed {address block : Nat}
    {operations : List Operation} {instruction : Instruction}
    (member : instruction ∈ placed address block operations) :
    instruction.parent = block := by
  induction operations generalizing address with
  | nil => cases member
  | cons operation rest ih =>
      rcases List.mem_cons.mp member with rfl | member
      · rfl
      · exact ih member

theorem declaredCode_eq_placed (vars : List Variable) (address block : Nat) :
    CodeGenVisitor.declaredCode vars address block =
      placed address block (vars.map fun var =>
        .alloca (CodeGenVisitor.llvmType var.dataType) var.name) := by
  induction vars generalizing address with
  | nil => rfl
  | cons var rest ih =>
      rw [CodeGenVisitor.declaredCode, ih, List.map_cons, placed]

/-- The callbacks that move the insertion point. -/
def Callback.Moves : Callback → Prop
  | .visitingFunction _ => True
  | .visitingModule _ => True
  | _ => False

theorem Callback.not_moves_of_not_outer {callback : Callback}
    (inner : ¬ callback.Outer) : ¬ callback.Moves := by
  cases callback <;> first | exact id | exact inner

/-- Where the insertion point moves, a function or a module is entered. -/
theorem CodeGenVisitor.Performs.of_moves {before after : CodeGenVisitor}
    {callback : Callback} (performs : Performs before callback after)
    (moves : callback.Moves) :
    (∃ func, callback = .visitingFunction func) ∨
      ∃ owner, callback = .visitingModule owner ∧
        after = { before with module_ := { name := owner.name } } := by
  cases performs with
  | visitingFunction mapped inserts => exact .inl ⟨_, rfl⟩
  | visitingModule visitor owner => exact .inr ⟨owner, rfl, rfl⟩
  | silent visitor notOverridden =>
      cases callback <;> first | exact notOverridden.elim | exact moves.elim
  | _ => exact moves.elim

namespace CodeGenVisitor

/-- The operation of a Binary, unless it is folded. -/
def binaryOperations (opcode : Opcode) (lhs rhs : Value) : List Operation :=
  if lhs.isConstant && rhs.isConstant then [] else [.binary opcode lhs rhs]

/-- What a callback that completes emits in this state. -/
def operations (visitor : CodeGenVisitor) : Callback → List Operation
  | .visitingBlock scope _ =>
      scope.variables.map fun var => .alloca (llvmType var.dataType) var.name
  | .visitVariableRef var =>
      match findAlloca var.name visitor.allocaScopeStack_ with
      | some inst => [.load inst]
      | none => []
  | .visitedAssignVariable var _ =>
      match findAlloca var.name visitor.allocaScopeStack_,
        visitor.valueStack_ with
      | some inst, value :: _ => [.store value inst]
      | _, _ => []
  | .visitedBinary _ operation rValueExpr =>
      match visitor.valueStack_, rValueExpr.dataType with
      | rValue :: lValue :: _, .ok dataType =>
          match opcodeOf dataType operation with
          | some opcode => binaryOperations opcode lValue rValue
          | none => []
      | _, _ => []
  | .visitedReturn _ =>
      match visitor.valueStack_ with
      | value :: _ => [.ret value]
      | [] => []
  | _ => []

/-- The second visitor is the first one after these operations. -/
structure Emits (before after : CodeGenVisitor)
    (operations : List Operation) : Prop where
  name : after.module_.name = before.module_.name
  functions : after.module_.functions = before.module_.functions
  blocks : after.module_.blocks = before.module_.blocks
  instructions :
    after.module_.instructions = before.module_.instructions ++
      placed before.context_.nextAddress before.block_ operations
  nextAddress :
    after.context_.nextAddress =
      before.context_.nextAddress + operations.length
  function : after.function_ = before.function_
  block : after.block_ = before.block_

theorem Emits.refl (visitor : CodeGenVisitor) : Emits visitor visitor [] :=
  ⟨rfl, rfl, rfl, (List.append_nil _).symm, rfl, rfl, rfl⟩

/-- A callback that leaves the LLVM module alone emits nothing. -/
theorem Emits.nothing {before after : CodeGenVisitor}
    (sameModule : after.module_ = before.module_)
    (sameContext : after.context_ = before.context_)
    (sameFunction : after.function_ = before.function_)
    (sameBlock : after.block_ = before.block_) : Emits before after [] where
  name := by rw [sameModule]
  functions := by rw [sameModule]
  blocks := by rw [sameModule]
  instructions := by
    rw [sameModule]
    exact (List.append_nil _).symm
  nextAddress := by
    rw [sameContext]
    rfl
  function := sameFunction
  block := sameBlock

theorem Emits.trans {first middle last : CodeGenVisitor}
    {before after : List Operation} (one : Emits first middle before)
    (two : Emits middle last after) : Emits first last (before ++ after) where
  name := two.name.trans one.name
  functions := two.functions.trans one.functions
  blocks := two.blocks.trans one.blocks
  instructions := by
    rw [two.instructions, one.instructions, one.nextAddress, one.block,
      placed_append, List.append_assoc]
  nextAddress := by
    rw [two.nextAddress, one.nextAddress, List.length_append, Nat.add_assoc]
  function := two.function.trans one.function
  block := two.block.trans one.block

theorem Emits.nextAddress_le {before after : CodeGenVisitor}
    {operations : List Operation} (emits : Emits before after operations) :
    before.context_.nextAddress ≤ after.context_.nextAddress := by
  rw [emits.nextAddress]
  exact Nat.le_add_right _ _

/-- An operation on two values emits its instruction unless it is folded. -/
theorem operated_emits (visitor : CodeGenVisitor) (opcode : Opcode)
    (lhs rhs : Value) :
    Emits visitor (visitor.operated opcode lhs rhs).2
      (binaryOperations opcode lhs rhs) := by
  cases lhs <;> cases rhs <;>
    first
      | exact Emits.refl visitor
      | exact ⟨rfl, rfl, rfl, rfl, rfl, rfl, rfl⟩

/-- Building an operation leaves the stacks as they are. -/
theorem operated_stacks (visitor : CodeGenVisitor)
    (opcode : Opcode) (lValue rValue : Value) :
    (visitor.operated opcode lValue rValue).2.allocaScopeStack_ =
        visitor.allocaScopeStack_ ∧
      (visitor.operated opcode lValue rValue).2.ancestryStack_ =
        visitor.ancestryStack_ := by
  cases lValue <;> cases rValue <;> exact ⟨rfl, rfl⟩

/-- A completed callback that stays in its block emits its operations. -/
theorem Performs.emits {before after : CodeGenVisitor} {callback : Callback}
    (performs : Performs before callback after) (stays : ¬ callback.Moves) :
    Emits before after (before.operations callback) := by
  cases performs with
  | visitingNode node => exact .nothing rfl rfl rfl rfl
  | visitedNode node inside => exact .nothing rfl rfl rfl rfl
  | visitedOutermost node outermost => exact .nothing rfl rfl rfl rfl
  | visitingBlock expressions faultless =>
      rename_i scope
      refine ⟨rfl, rfl, rfl, ?_, ?_, rfl, rfl⟩
      · simp [declared, operations, declaredCode_eq_placed]
      · simp [declared, operations]
  | visitedBlock scope expressions scopes => exact .nothing rfl rfl rfl rfl
  | visitedAssignVariable valueExpr found stack =>
      simp only [operations, found, stack]
      exact ⟨rfl, rfl, rfl, rfl, rfl, rfl, rfl⟩
  | visitedBinary left right chosen stack =>
      rename_i opcode lValue rValue rest
      simp only [operations, stack, right, chosen]
      have emits := operated_emits before opcode lValue rValue
      exact ⟨emits.name, emits.functions, emits.blocks, emits.instructions,
        emits.nextAddress, emits.function, emits.block⟩
  | visitLiteralInt32 visitor value => exact .nothing rfl rfl rfl rfl
  | visitLiteralFloat visitor value => exact .nothing rfl rfl rfl rfl
  | visitVariableRef found =>
      simp only [operations, found]
      exact ⟨rfl, rfl, rfl, rfl, rfl, rfl, rfl⟩
  | visitedReturn valueExpr stack =>
      simp only [operations, stack]
      exact ⟨rfl, rfl, rfl, rfl, rfl, rfl, rfl⟩
  | visitingFunction mapped inserts => exact absurd trivial stays
  | visitingModule visitor owner => exact absurd trivial stays
  | silent visitor notOverridden =>
      cases callback <;>
        first
          | exact notOverridden.elim
          | exact Emits.refl before

end CodeGenVisitor

end Llast
