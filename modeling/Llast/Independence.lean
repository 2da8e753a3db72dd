import Llast.Linkage

/-!
# Functions compile independently

`CodeGenVisitor` keeps its value stack from one function to the next, so a function
is compiled on top of what the functions before it have left there.  Two runs are
compared: that of the function as the only one of a module and that of the same
function after others.  As long as the first never reads an empty stack, the values
of the second are those of the first on top of what remains of the leftovers, and
the two emit the same instructions, with other addresses and in another block.
-/

namespace Llast

open Llast.EventRun
open Llast.CodeGenVisitor

/-! ## Moving code -/

/-- The value with the address of its instruction moved. -/
def Value.relocate (offset : Nat) : Value → Value
  | .constant known => .constant known
  | .instruction address type => .instruction (address + offset) type

/-- The alloca with its address moved. -/
def AllocaInst.relocate (offset : Nat) (inst : AllocaInst) : AllocaInst where
  address := inst.address + offset
  allocatedType := inst.allocatedType

/-- The operation with the addresses it refers to moved. -/
def Operation.relocate (offset : Nat) : Operation → Operation
  | .alloca type name => .alloca type name
  | .load pointer => .load (pointer.relocate offset)
  | .store value pointer =>
      .store (value.relocate offset) (pointer.relocate offset)
  | .binary opcode lhs rhs =>
      .binary opcode (lhs.relocate offset) (rhs.relocate offset)
  | .ret value => .ret (value.relocate offset)

/-- The instruction moved to another address and another block. -/
def Instruction.relocate (offset block : Nat) (instruction : Instruction) :
    Instruction where
  address := instruction.address + offset
  parent := block
  operation := instruction.operation.relocate offset

/-- The second code is the first one, up to the addresses and the block. -/
def SameCode (block : Nat) (code moved : List Instruction) : Prop :=
  ∃ offset, moved = code.map (Instruction.relocate offset block)

/-- The scope with its allocas moved. -/
def AllocaScope.relocate (offset : Nat) (scope : AllocaScope) : AllocaScope :=
  scope.map fun entry => (entry.1, entry.2.relocate offset)

theorem Value.relocate_isConstant (offset : Nat) (value : Value) :
    (value.relocate offset).isConstant = value.isConstant := by
  cases value <;> rfl

theorem placed_relocate (offset address block other : Nat)
    (operations : List Operation) :
    placed (address + offset) block
        (operations.map (Operation.relocate offset)) =
      (placed address other operations).map
        (Instruction.relocate offset block) := by
  induction operations generalizing address with
  | nil => rfl
  | cons operation rest ih =>
      rw [List.map_cons, placed, placed, List.map_cons, ← ih,
        Nat.add_right_comm]
      rfl

theorem lookup_relocate (offset : Nat) (scope : AllocaScope) (name : String) :
    (scope.relocate offset).lookup name =
      (scope.lookup name).map (AllocaInst.relocate offset) := by
  induction scope with
  | nil => rfl
  | cons entry rest ih =>
      rw [AllocaScope.relocate, List.map_cons, List.lookup_cons,
        List.lookup_cons]
      cases name == entry.1 with
      | true => rfl
      | false => exact ih

/-- A name keeps its meaning when its scopes are moved on top of others. -/
theorem findAlloca_relocate (offset : Nat) {name : String}
    {scopes : List AllocaScope} {inst : AllocaInst}
    (found : findAlloca name scopes = some inst) (outer : List AllocaScope) :
    findAlloca name (scopes.map (AllocaScope.relocate offset) ++ outer) =
      some (inst.relocate offset) := by
  induction scopes with
  | nil => cases found
  | cons scope rest ih =>
      rw [findAlloca] at found
      rw [List.map_cons, List.cons_append, findAlloca, lookup_relocate]
      cases here : scope.lookup name with
      | some other =>
          rw [here] at found
          cases found
          rfl
      | none =>
          rw [here] at found
          exact ih found

theorem declaredScope_relocate (offset : Nat) (vars : List Variable)
    (address : Nat) (scope : AllocaScope) :
    declaredScope vars (address + offset) (scope.relocate offset) =
      (declaredScope vars address scope).relocate offset := by
  induction vars generalizing address scope with
  | nil => rfl
  | cons var rest ih =>
      rw [declaredScope, declaredScope, ← ih, Nat.add_right_comm]
      rfl

/-! ## Two generators side by side -/

/--
The second generator is the first one with its addresses moved, its scopes and
values being on top of others.
-/
structure Shifted (offset : Nat) (alone inModule : CodeGenVisitor) : Prop where
  nextAddress :
    inModule.context_.nextAddress = alone.context_.nextAddress + offset
  nodes : inModule.ancestryStack_.length = alone.ancestryStack_.length
  scopes : ∃ outer, inModule.allocaScopeStack_ =
    alone.allocaScopeStack_.map (AllocaScope.relocate offset) ++ outer
  values : ∃ leftovers, inModule.valueStack_ =
    alone.valueStack_.map (Value.relocate offset) ++ leftovers

/-- Dropping a value takes a leftover where the function has none of its own. -/
theorem discarded_relocate (offset : Nat) (node : Node)
    (values leftovers : List Value) :
    ∃ remaining,
      discarded node (values.map (Value.relocate offset) ++ leftovers) =
        (discarded node values).map (Value.relocate offset) ++ remaining := by
  rw [discarded, discarded]
  split
  · cases values with
    | nil => exact ⟨leftovers.tail, rfl⟩
    | cons top rest => exact ⟨leftovers, rfl⟩
  · exact ⟨leftovers, rfl⟩

section Step

variable {offset : Nat} {alone inModule next : CodeGenVisitor}
variable {callback : Callback}

section Fresh

variable (nextAddress :
  inModule.context_.nextAddress = alone.context_.nextAddress + offset)

include nextAddress

/-- An instruction that both create stands for values that are moved alike. -/
theorem relocate_fresh (type : LlvmType) :
    Value.instruction inModule.context_.nextAddress type =
      (Value.instruction alone.context_.nextAddress type).relocate offset := by
  rw [nextAddress]
  rfl

theorem nextAddress_succ :
    inModule.context_.nextAddress + 1 =
      alone.context_.nextAddress + 1 + offset := by
  rw [nextAddress, Nat.add_right_comm]

/-- An operation on moved values is the moved operation, folded or not. -/
theorem operated_relocate (opcode : Opcode) (lhs rhs : Value) :
    (inModule.operated opcode (lhs.relocate offset) (rhs.relocate offset)).1 =
        (alone.operated opcode lhs rhs).1.relocate offset ∧
      (inModule.operated opcode (lhs.relocate offset)
          (rhs.relocate offset)).2.context_.nextAddress =
        (alone.operated opcode lhs rhs).2.context_.nextAddress + offset := by
  cases lhs <;> cases rhs <;>
    first
      | exact ⟨rfl, nextAddress⟩
      | exact ⟨relocate_fresh nextAddress _, nextAddress_succ nextAddress⟩

end Fresh

/-- What the first generator completes, the second one does too. -/
theorem Shifted.step (shifted : Shifted offset alone inModule)
    (stays : ¬ callback.Moves) (performs : Performs alone callback next) :
    ∃ after, Performs inModule callback after ∧ Shifted offset next after ∧
      inModule.operations callback =
        (alone.operations callback).map (Operation.relocate offset) := by
  rcases shifted with ⟨nextAddress, nodes, ⟨outer, scopes⟩, ⟨leftovers, values⟩⟩
  cases performs with
  | visitingNode visitor node =>
      exact ⟨_, .visitingNode inModule node,
        ⟨nextAddress, congrArg (· + 1) nodes, ⟨outer, scopes⟩,
          ⟨leftovers, values⟩⟩, rfl⟩
  | visitedNode node inside =>
      rw [inside] at nodes
      rcases same : inModule.ancestryStack_ with
        _ | ⟨top, _ | ⟨parent, ancestry⟩⟩
      · simp [same] at nodes
      · simp [same] at nodes
      · rw [same] at nodes
        rcases discarded_relocate offset node alone.valueStack_ leftovers with
          ⟨remaining, dropped⟩
        refine ⟨_, .visitedNode node same,
          ⟨nextAddress, Nat.succ_inj.mp nodes, ⟨outer, scopes⟩,
            ⟨remaining, ?_⟩⟩, rfl⟩
        rw [← dropped, ← values]
  | visitedOutermost node outermost =>
      rw [outermost] at nodes
      rcases List.length_eq_one_iff.mp nodes with ⟨top, same⟩
      exact ⟨_, .visitedOutermost node same,
        ⟨nextAddress, rfl, ⟨outer, scopes⟩, ⟨leftovers, values⟩⟩, rfl⟩
  | visitingBlock expressions faultless =>
      rename_i scope
      refine ⟨_, .visitingBlock expressions faultless,
        ⟨?_, nodes, ⟨outer, ?_⟩, ⟨leftovers, values⟩⟩, ?_⟩
      · change _ + _ = _ + _ + _
        rw [nextAddress, Nat.add_right_comm]
      · change _ :: _ = _ :: _
        rw [scopes, nextAddress, ← declaredScope_relocate]
        rfl
      · simp [operations, Operation.relocate]
  | visitedBlock scope expressions inside =>
      rw [inside, List.map_cons, List.cons_append] at scopes
      exact ⟨_, .visitedBlock scope expressions scopes,
        ⟨nextAddress, nodes, ⟨outer, rfl⟩, ⟨leftovers, values⟩⟩, rfl⟩
  | visitedAssignVariable valueExpr found stack =>
      rename_i var inst value rest
      have known := findAlloca_relocate offset found outer
      rw [← scopes] at known
      rw [stack, List.map_cons, List.cons_append] at values
      refine ⟨_, .visitedAssignVariable valueExpr known values,
        ⟨nextAddress_succ nextAddress, nodes, ⟨outer, scopes⟩,
          ⟨leftovers, ?_⟩⟩, ?_⟩
      · exact congrArg (· :: _) (relocate_fresh nextAddress .void)
      · simp [operations, known, values, found, stack, Operation.relocate]
  | visitedBinary left right chosen stack =>
      rename_i lValueExpr rValueExpr operation dataType opcode lValue rValue rest
      rw [stack, List.map_cons, List.map_cons, List.cons_append,
        List.cons_append] at values
      rcases operated_relocate nextAddress opcode lValue rValue with
        ⟨result, address⟩
      rcases inModule.operated_stacks opcode (lValue.relocate offset)
          (rValue.relocate offset) with ⟨scopesEq, nodesEq⟩
      rcases alone.operated_stacks opcode lValue rValue with
        ⟨aloneScopes, aloneNodes⟩
      refine ⟨_, .visitedBinary left right chosen values,
        ⟨address, ?_, ⟨outer, ?_⟩, ⟨leftovers, congrArg (· :: _) result⟩⟩, ?_⟩
      · rw [nodesEq, aloneNodes, nodes]
      · rw [scopesEq, aloneScopes, scopes]
      · simp only [operations, values, stack, right, chosen, binaryOperations,
          Value.relocate_isConstant]
        split <;> rfl
  | visitLiteralInt32 visitor value =>
      exact ⟨_, .visitLiteralInt32 inModule value,
        ⟨nextAddress, nodes, ⟨outer, scopes⟩,
          ⟨leftovers, congrArg (Value.constant (.int value) :: ·) values⟩⟩, rfl⟩
  | visitLiteralFloat visitor value =>
      exact ⟨_, .visitLiteralFloat inModule value,
        ⟨nextAddress, nodes, ⟨outer, scopes⟩,
          ⟨leftovers, congrArg (Value.constant (.float value) :: ·) values⟩⟩,
        rfl⟩
  | visitVariableRef found =>
      have known := findAlloca_relocate offset found outer
      rw [← scopes] at known
      refine ⟨_, .visitVariableRef known,
        ⟨nextAddress_succ nextAddress, nodes, ⟨outer, scopes⟩,
          ⟨leftovers, ?_⟩⟩, ?_⟩
      · exact congrArg₂ List.cons (relocate_fresh nextAddress _) values
      · simp [operations, known, found, Operation.relocate]
  | visitedReturn valueExpr stack =>
      rw [stack, List.map_cons, List.cons_append] at values
      refine ⟨_, .visitedReturn valueExpr values,
        ⟨nextAddress_succ nextAddress, nodes, ⟨outer, scopes⟩,
          ⟨leftovers, rfl⟩⟩, ?_⟩
      simp [operations, values, stack, Operation.relocate]
  | visitingFunction mapped inserts => exact absurd trivial stays
  | visitingModule visitor owner => exact absurd trivial stays
  | silent visitor notOverridden =>
      refine ⟨_, .silent inModule notOverridden,
        ⟨nextAddress, nodes, ⟨outer, scopes⟩, ⟨leftovers, values⟩⟩, ?_⟩
      cases callback <;> first | exact notOverridden.elim | rfl

end Step

/-- Both generators have emitted the same, and go on side by side. -/
structure Parallel (offset : Nat) (alone inModule : CodeGenVisitor)
    (one two : CodeGenVisitor) : Prop where
  shifted : Shifted offset one two
  emits : ∃ operations, Emits alone one operations ∧
    Emits inModule two (operations.map (Operation.relocate offset))

/-- What the first generator walks, the second one walks with the same code. -/
theorem Shifted.run {offset : Nat} {alone inModule final : CodeGenVisitor}
    {sites : List Site} (shifted : Shifted offset alone inModule)
    (stays : ∀ site ∈ sites, ¬ site.callback.Moves)
    (completes : EventRun.run codeGen.performAt sites alone = .ok () final) :
    ∃ finish, EventRun.run codeGen.performAt sites inModule = .ok () finish ∧
      Parallel offset alone inModule final finish := by
  refine run_simulates ?_ ⟨shifted, [], .refl _, .refl _⟩ completes
  rintro site member one two next ⟨related, earlier, first, second⟩ reacts
  have performs : Performs one site.callback next :=
    perform_eq_ok_iff.mp reacts
  have stay := stays site member
  rcases related.step stay performs with ⟨after, other, shifted, same⟩
  refine ⟨after, perform_eq_ok_iff.mpr other, shifted,
    earlier ++ one.operations site.callback,
    first.trans (performs.emits stay), ?_⟩
  rw [List.map_append, ← same]
  exact second.trans (other.emits stay)

/-- A function whose name is new compiles on top of leftovers as it does alone. -/
theorem Shifted.walkFunction {offset : Nat}
    {alone inModule final : CodeGenVisitor} {func : Function}
    (shifted : Shifted offset alone inModule)
    (fresh : inModule.module_.functions.find?
      (fun function => function.IsNamed func.name) = none)
    (completes : Llast.walkFunction codeGen (some func) alone =
      .ok () final) :
    ∃ finish operations,
      Llast.walkFunction codeGen (some func) inModule = .ok () finish ∧
        final.module_.instructions = alone.module_.instructions ++
          placed alone.context_.nextAddress alone.module_.blocks.length
            operations ∧
          finish.module_.instructions = inModule.module_.instructions ++
            placed inModule.context_.nextAddress
              inModule.module_.blocks.length
              (operations.map (Operation.relocate offset)) := by
  rw [walkFunction_eq_run codeGen func []] at completes ⊢
  rcases run_function_eq_ok_iff.mp completes with
    ⟨returnType, owner, index, mapped, inserts, remaining⟩
  have missing := LlvmModule.getOrInsertFunction_of_missing returnType fresh
  have nodes : (Node.function func :: inModule.ancestryStack_).length =
      (Node.function func :: alone.ancestryStack_).length :=
    congrArg (· + 1) shifted.nodes
  have opened : Shifted offset (alone.opened func owner index)
      (inModule.opened func
        { inModule.module_ with
          functions := inModule.module_.functions ++
            [⟨func.name, returnType, []⟩] }
        inModule.module_.functions.length) :=
    ⟨shifted.nextAddress, nodes, shifted.scopes, shifted.values⟩
  obtain ⟨finish, finishes, -, operations, first, second⟩ := opened.run
    (fun _ member => Function.stays_of_mem_remainingSites member) remaining
  rcases LlvmModule.getOrInsertFunction_entry inserts with
    ⟨blocks, instructions, -⟩
  refine ⟨finish, operations, run_function_eq_ok_iff.mpr
    ⟨_, _, _, mapped, missing, finishes⟩, ?_, second.instructions⟩
  rw [← instructions, ← blocks]
  exact first.instructions

/-! ## A function alone and in a module -/

/-- A module of one function. -/
def Module.only (name : String) (func : Function) : Module where
  name := name
  functions := [some func]

/--
The walk of the functions before an entry has come to an end, with nothing in the
symbol table but their names.
-/
theorem Module.start_of_entry {owner : Module} (distinct : owner.DistinctNames)
    {child : Nat} {func : Function}
    (place : owner.functions[child]? = some (some func))
    {start : CodeGenVisitor}
    (before : run codeGen.performAt (owner.sitesBefore child) {} =
      .ok () start) :
    start.ancestryStack_ = [.module owner] ∧
      start.module_.functions.find?
        (fun function => function.IsNamed func.name) = none := by
  have reached : owner.Reaches (owner.sitesBefore child)
      ⟨[⟨.module owner, child⟩], .visitingNode (.function func)⟩ start :=
    ⟨⟨_, Module.sites_around place⟩, before⟩
  refine ⟨reached.ancestryStack, reached.linked.find_eq_none ?_⟩
  rw [enteredFunctions_sitesBefore]
  exact distinct.fresh place

/--
In a module of functions with distinct names, if the functions before one of them
walk to completion, and that function does so as the only function of a module, then
it walks to completion after the others, and the instructions emitted into its block
are those emitted when it is compiled alone.  Functions after it leave its block as
it is.
-/
theorem compiles_independently (owner : Module)
    (distinct : owner.DistinctNames) {child : Nat} {func : Function}
    (place : owner.functions[child]? = some (some func))
    {name : String} {alone start : CodeGenVisitor}
    (compiles : walkTree codeGen (Module.only name func) {} = .ok () alone)
    (before : walkEachFunction codeGen (owner.functions.take child)
      owner.entryState = .ok () start) :
    ∃ finish, walkFunction codeGen (some func) start = .ok () finish ∧
      SameCode child (alone.module_.blockCode 0)
        (finish.module_.blockCode child) ∧
      ∀ final, walkTree codeGen owner {} = .ok () final →
        final.module_.blockCode child = finish.module_.blockCode child := by
  rw [walkEachFunction_eq_run codeGen owner _ 0,
    ← Module.run_sitesBefore] at before
  rcases Module.start_of_entry distinct place before with ⟨nodes, fresh⟩
  rcases List.getElem?_eq_some_iff.mp place with ⟨inside, -⟩
  rcases Module.before_of_run inside.le before with ⟨number, -⟩
  -- the function alone
  have onlyPlace : (Module.only name func).functions[0]? = some (some func) :=
    rfl
  rcases Module.walk_around compiles onlyPlace with
    ⟨entry, left, enters, walked, closes⟩
  have code := Module.blockCode_of_walk (Nat.zero_le _) enters walked closes
  cases enters
  rw [← walkFunction_eq_run] at walked
  -- the function in the module
  have shifted : Shifted start.context_.nextAddress
      (Module.only name func).entryState start :=
    ⟨(Nat.zero_add _).symm, by rw [nodes]; rfl, ⟨_, rfl⟩, ⟨_, rfl⟩⟩
  rcases shifted.walkFunction fresh walked with
    ⟨finish, operations, finishes, first, second⟩
  rw [number] at second
  refine ⟨finish, finishes, ⟨start.context_.nextAddress, ?_⟩, ?_⟩
  · rw [Module.blockCode_of_function inside.le before second]
    have alone : alone.module_.blockCode 0 = placed 0 0 operations :=
      code.symm.trans first
    rw [alone, ← placed_relocate, Nat.zero_add]
  · intro final completes
    rcases Module.walk_around completes place with
      ⟨other, otherFinish, otherBefore, during, after⟩
    rw [before] at otherBefore
    cases otherBefore
    rw [← walkFunction_eq_run, finishes] at during
    cases during
    refine Module.blockCode_of_after ?_ after
    rw [walkFunction_eq_run codeGen func []] at finishes
    rw [(code_of_run finishes).1, number]
    exact Nat.lt_succ_self child

/-- `int f() { {} return 3; }`; leaving the inner Block drops what is there. -/
def emptyBlockFirst : Function :=
  let empty := BlockBuilder.build {} .insertion
  let bb := (BlockBuilder.addExpression {} empty).addExpression
    (.return (.literalInt32 3))
  let fb : FunctionBuilder :=
    { name_ := "f", returnType_ := .int32, blockBuilder_ := bb }
  fb.build .insertion .insertion

/-- `int g() { 1; 2; return 0; }`, which leaves a value behind. -/
def leavesValue : Function :=
  let bb := ((BlockBuilder.addExpression {} (.literalInt32 1)).addExpression
    (.literalInt32 2)).addExpression (.return (.literalInt32 0))
  let fb : FunctionBuilder :=
    { name_ := "g", returnType_ := .int32, blockBuilder_ := bb }
  fb.build .insertion .insertion

/-- `g` and then `f`. -/
def leftoversModule : Module where
  name := "leftovers"
  functions := [some leavesValue, some emptyBlockFirst]

/-- The value left behind is dropped in `f`, which compiles as it does alone. -/
theorem compiles_independently_leftovers :
    ∃ alone start,
      walkTree codeGen (Module.only "alone" emptyBlockFirst) {} =
        .ok () alone ∧
      walkEachFunction codeGen (leftoversModule.functions.take 1)
        leftoversModule.entryState = .ok () start ∧
      start.valueStack_.length = 1 ∧
      ∃ finish, walkFunction codeGen (some emptyBlockFirst) start =
        .ok () finish ∧
      SameCode 1 (alone.module_.blockCode 0) (finish.module_.blockCode 1) ∧
      ∀ final, walkTree codeGen leftoversModule {} = .ok () final →
        final.module_.blockCode 1 = finish.module_.blockCode 1 := by
  have compiles :
      faultOf (walkTree codeGen (Module.only "alone" emptyBlockFirst) {}) =
        none := by
    decide +kernel
  rcases ends_iff.mpr compiles with ⟨alone, compiles⟩
  have leftover : completedWith
      (fun start => decide (start.valueStack_.length = 1))
      (walkEachFunction codeGen (leftoversModule.functions.take 1)
        leftoversModule.entryState) = true := by
    decide +kernel
  rcases exists_of_completedWith leftover with ⟨start, before, height⟩
  have distinct : leftoversModule.DistinctNames := by
    rw [Module.DistinctNames]
    decide
  exact ⟨alone, start, compiles, before, of_decide_eq_true height,
    compiles_independently leftoversModule distinct rfl compiles before⟩

end Llast
