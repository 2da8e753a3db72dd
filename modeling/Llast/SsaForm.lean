import Llast.EntryBlock
import Llast.Linkage
import Llast.OperandOrigins
import Llast.StraightEvaluation
import Llast.VariableIdentity

/-!
# The emitted code is in SSA form

The generator builds an instruction from the values that happen to lie on the value
stack and from the allocas that happen to lie on the scope stack.  Whatever the tree
is, each of them was emitted before with the type it is used at, and an alloca was
emitted into the same block.  The value stack however is never cleared between two
functions, so that a value may be one of another function; this is decided by the
callbacks that pushed the values.
-/

namespace Llast

open Llast.EventRun
open Llast.CodeGenVisitor

/-! ## What an instruction uses -/

/-- The type of an instruction as a value. -/
def Operation.resultType : Operation → LlvmType
  | .alloca type _ => .pointer type
  | .load pointer => pointer.allocatedType
  | .store _ _ => .void
  | .binary _ lhs _ => lhs.type
  | .ret _ => .void

/-- The values an operation uses, besides the alloca it reads or writes. -/
def Operation.operands : Operation → List Value
  | .store value _ => [value]
  | .binary _ lhs rhs => [lhs, rhs]
  | .ret value => [value]
  | _ => []

/-- The value an instruction is. -/
def Instruction.value (instruction : Instruction) : Value :=
  .instruction instruction.address instruction.operation.resultType

/-- The value is a constant or one of these instructions. -/
def Value.DefinedIn (code : List Instruction) (value : Value) : Prop :=
  value.isConstant = true ∨ ∃ definition ∈ code, definition.value = value

/-- The alloca is among these instructions, in this block. -/
def AllocaInst.AllocatedIn (code : List Instruction) (block : Nat)
    (pointer : AllocaInst) : Prop :=
  ∃ name, ⟨pointer.address, block, .alloca pointer.allocatedType name⟩ ∈ code

/-- All that an operation uses in a block is in the code before. -/
structure Operation.SuppliedBy (code : List Instruction) (block : Nat)
    (operation : Operation) : Prop where
  operands : ∀ value ∈ operation.operands, value.DefinedIn code
  pointer : ∀ pointer, operation.accessed = some pointer →
    pointer.AllocatedIn code block

/--
Every instruction has an address of its own and uses only what was emitted before,
with the type that it has: its operands, and the alloca of its own block that it
reads or writes.
-/
structure LlvmModule.InSsaForm (owner : LlvmModule) : Prop where
  ascending : (owner.instructions.map Instruction.address).Pairwise (· < ·)
  supplied : Throughout
    (fun past instruction =>
      instruction.operation.SuppliedBy past instruction.parent)
    owner.instructions

/-- No instruction uses an instruction of another block. -/
def LlvmModule.UsesLocally (owner : LlvmModule) : Prop :=
  Throughout
    (fun past instruction => ∀ value ∈ instruction.operation.operands,
      ∀ definition ∈ past, definition.value = value →
        definition.parent = instruction.parent)
    owner.instructions

section Supplied

variable {code more : List Instruction} {block : Nat}

theorem Value.DefinedIn.append {value : Value}
    (defined : value.DefinedIn code) : value.DefinedIn (code ++ more) := by
  rcases defined with constant | ⟨definition, member, same⟩
  · exact .inl constant
  · exact .inr ⟨definition, List.mem_append_left _ member, same⟩

theorem AllocaInst.AllocatedIn.append {pointer : AllocaInst}
    (allocated : pointer.AllocatedIn code block) :
    pointer.AllocatedIn (code ++ more) block := by
  rcases allocated with ⟨name, member⟩
  exact ⟨name, List.mem_append_left _ member⟩

theorem Operation.SuppliedBy.append {operation : Operation}
    (supplied : operation.SuppliedBy code block) :
    operation.SuppliedBy (code ++ more) block where
  operands value member := (supplied.operands value member).append
  pointer pointer accesses := (supplied.pointer pointer accesses).append

/-- An alloca uses nothing. -/
theorem Operation.suppliedBy_alloca (type : LlvmType) (name : String) :
    (Operation.alloca type name).SuppliedBy code block where
  operands value member := by cases member
  pointer pointer accesses := by cases accesses

end Supplied

/--
Code grows by some operations in one block: whether everything fits what comes before
is asked of the old code and of each operation.
-/
theorem throughout_append_placed {Fits : List Instruction → Instruction → Prop}
    {Holds : Operation → Prop} {code : List Instruction} {block : Nat}
    (address : Nat) {operations : List Operation}
    (fits : ∀ operation ∈ operations, ∀ more place,
      (∀ instruction ∈ more, instruction.parent = block) →
        (Fits (code ++ more) ⟨place, block, operation⟩ ↔ Holds operation)) :
    Throughout Fits (code ++ placed address block operations) ↔
      Throughout Fits code ∧ ∀ operation ∈ operations, Holds operation := by
  induction operations generalizing code address with
  | nil => simp [placed]
  | cons operation rest ih =>
      have here : Fits code ⟨address, block, operation⟩ ↔ Holds operation := by
        simpa using fits operation List.mem_cons_self [] address (by simp)
      have others : ∀ other ∈ rest, ∀ more place,
          (∀ instruction ∈ more, instruction.parent = block) →
            (Fits (code ++ [⟨address, block, operation⟩] ++ more)
              ⟨place, block, other⟩ ↔ Holds other) := by
        intro other member more place inBlock
        rw [List.append_assoc]
        apply fits other (List.mem_cons_of_mem _ member)
        simpa using inBlock
      have parts : code ++ placed address block (operation :: rest) =
          code ++ [⟨address, block, operation⟩] ++
            placed (address + 1) block rest := by
        simp [placed]
      rw [parts, ih (address + 1) others, throughout_append_singleton, here,
        List.forall_mem_cons, and_assoc]

/-! ## Addresses -/

/-- Outside the opening of a module every callback adds instructions. -/
theorem CodeGenVisitor.Performs.instructions {before after : CodeGenVisitor}
    {callback : Callback} (performs : Performs before callback after)
    (inside : ∀ owner, callback ≠ .visitingModule owner) :
    after.module_.instructions = before.module_.instructions ++
      placed before.context_.nextAddress before.block_
        (before.operations callback) := by
  by_cases moves : callback.Moves
  · rcases performs.of_moves moves with ⟨func, rfl⟩ | ⟨owner, rfl, -⟩
    · rcases performs.of_visitingFunction with
        ⟨returnType, owner, index, -, inserts, rfl⟩
      have same := (LlvmModule.getOrInsertFunction_entry inserts).2.1
      simpa [entered, operations, placed] using same
    · exact absurd rfl (inside owner)
  · exact (performs.emits moves).instructions

theorem mem_placed {address block : Nat} {operations : List Operation}
    {instruction : Instruction}
    (member : instruction ∈ placed address block operations) :
    address ≤ instruction.address ∧
      instruction.address < address + operations.length ∧
        instruction.operation ∈ operations := by
  induction operations generalizing address with
  | nil => cases member
  | cons operation rest ih =>
      rw [List.length_cons]
      rcases List.mem_cons.mp member with rfl | member
      · exact ⟨Nat.le_refl _, by simp, List.mem_cons_self⟩
      · rcases ih member with ⟨lower, upper, inside⟩
        exact ⟨by omega, by omega, List.mem_cons_of_mem _ inside⟩

theorem placed_ascending (address block : Nat) (operations : List Operation) :
    ((placed address block operations).map Instruction.address).Pairwise
      (· < ·) := by
  induction operations generalizing address with
  | nil => exact .nil
  | cons operation rest ih =>
      rw [placed, List.map_cons, List.pairwise_cons]
      refine ⟨?_, ih (address + 1)⟩
      intro later member
      rcases List.mem_map.mp member with ⟨instruction, inside, rfl⟩
      exact (mem_placed inside).1

/-- The addresses in use ascend and are all below the next one. -/
structure AddressesAscend (visitor : CodeGenVisitor) : Prop where
  below : ∀ instruction ∈ visitor.module_.instructions,
    instruction.address < visitor.context_.nextAddress
  ascending :
    (visitor.module_.instructions.map Instruction.address).Pairwise (· < ·)

theorem AddressesAscend.emits {before after : CodeGenVisitor}
    {operations : List Operation} (ascend : AddressesAscend before)
    (emits : Emits before after operations) : AddressesAscend after := by
  constructor
  · intro instruction member
    rw [emits.instructions] at member
    rw [emits.nextAddress]
    rcases List.mem_append.mp member with member | member
    · exact (ascend.below instruction member).trans_le (Nat.le_add_right _ _)
    · exact (mem_placed member).2.1
  · rw [emits.instructions, List.map_append, List.pairwise_append]
    refine ⟨ascend.ascending, placed_ascending _ _ _, ?_⟩
    intro first firstMember second secondMember
    rcases List.mem_map.mp firstMember with ⟨old, oldMember, rfl⟩
    rcases List.mem_map.mp secondMember with ⟨new, newMember, rfl⟩
    exact (ascend.below old oldMember).trans_le (mem_placed newMember).1

theorem Module.addressesAscend_of_run {owner : Module}
    {past future : List Site} {visitor : CodeGenVisitor}
    (split : owner.sites = past ++ future)
    (reaches : run codeGen.performAt past {} = .ok () visitor) :
    AddressesAscend visitor := by
  refine owner.reached_induction
    (motive := fun _ visitor => AddressesAscend visitor)
    ⟨by simp, by simp⟩ ?_ split reaches
  intro past site before after reached performs ascend
  by_cases moves : site.callback.Moves
  · rcases performs.of_moves moves with ⟨func, same⟩ | ⟨other, -, rfl⟩
    · rw [same] at performs
      rcases performs.of_visitingFunction with
        ⟨returnType, llvmOwner, index, -, inserts, rfl⟩
      have same := (LlvmModule.getOrInsertFunction_entry inserts).2.1
      refine ⟨?_, ?_⟩
      · simpa [entered, same] using ascend.below
      · simpa [entered, same] using ascend.ascending
    · exact ⟨by simp, by simp⟩
  · exact ascend.emits (performs.emits moves)

/-- An address tells the instruction. -/
theorem eq_of_address {code : List Instruction} {first second : Instruction}
    (ascending : (code.map Instruction.address).Pairwise (· < ·))
    (firstMember : first ∈ code) (secondMember : second ∈ code)
    (same : first.address = second.address) : first = second := by
  have distinct : (code.map Instruction.address).Nodup :=
    ascending.imp fun less => less.ne
  exact List.inj_on_of_nodup_map distinct firstMember secondMember same

/-! ## The allocas of the open Blocks -/

/-- What the scopes hold was emitted into the current block. -/
def ScopesAllocated (visitor : CodeGenVisitor) : Prop :=
  ∀ scope ∈ visitor.allocaScopeStack_, ∀ name inst,
    scope.lookup name = some inst →
      ⟨inst.address, visitor.block_, .alloca inst.allocatedType name⟩ ∈
        visitor.module_.instructions

theorem ScopesAllocated.emits {before after : CodeGenVisitor}
    {operations : List Operation} (allocated : ScopesAllocated before)
    (emits : Emits before after operations)
    (scopes : after.allocaScopeStack_ = before.allocaScopeStack_) :
    ScopesAllocated after := by
  intro scope member name inst found
  rw [scopes] at member
  rw [emits.block, emits.instructions]
  exact List.mem_append_left _ (allocated scope member name inst found)

theorem Module.scopesAllocated_of_run {owner : Module}
    {past future : List Site} {visitor : CodeGenVisitor}
    (split : owner.sites = past ++ future)
    (reaches : run codeGen.performAt past {} = .ok () visitor) :
    ScopesAllocated visitor := by
  refine owner.reached_induction
    (motive := fun _ visitor => ScopesAllocated visitor)
    (by simp [ScopesAllocated]) ?_ split reaches
  intro past site before after reached performs allocated
  by_cases moves : site.callback.Moves
  · -- no Block is open where the insertion point moves
    rcases reached.occurs with ⟨future, occurs⟩
    rcases reached.framed with ⟨frames, framed⟩
    have member : site ∈ owner.sites := by simp [occurs]
    have closed := Module.openBlocks_of_moves member moves
    have none : before.allocaScopeStack_ = [] := by
      have blocks := framed.blocks_eq
      rw [closed] at blocks
      rw [framed.scopes_eq, List.map_eq_nil_iff.mp blocks.symm, List.map_nil]
    have after_none : after.allocaScopeStack_ = [] := by
      rcases performs.of_moves moves with ⟨func, same⟩ | ⟨other, -, rfl⟩
      · rw [same] at performs
        rcases performs.of_visitingFunction with
          ⟨returnType, llvmOwner, index, -, inserts, rfl⟩
        exact none
      · exact none
    intro scope member
    rw [after_none] at member
    cases member
  · have emits := performs.emits moves
    rcases site with ⟨path, callback⟩
    cases performs with
    | visitingBlock expressions faultless =>
        intro scope member name inst found
        rcases List.mem_cons.mp member with rfl | outer
        · rcases lookup_declaredScope found with ⟨var, -, -, -, created⟩ | absent
          · exact List.mem_append_right _ created
          · cases absent
        · exact List.mem_append_left _ (allocated scope outer name inst found)
    | visitedBlock scope expressions scopes =>
        intro inner member
        have kept : inner ∈ before.allocaScopeStack_ := by
          rw [scopes]
          exact List.mem_cons_of_mem _ member
        exact allocated inner kept
    | visitedBinary left right chosen stack =>
        exact allocated.emits emits (operated_stacks _ _ _ _).1
    | silent visitor notOverridden => exact allocated
    | _ => exact allocated.emits emits rfl

/-- What a lookup finds was emitted into the current block. -/
theorem ScopesAllocated.find {visitor : CodeGenVisitor}
    (allocated : ScopesAllocated visitor) {name : String} {inst : AllocaInst}
    (found : findAlloca name visitor.allocaScopeStack_ = some inst) :
    inst.AllocatedIn visitor.module_.instructions visitor.block_ := by
  rcases findAlloca_eq_some found with ⟨inner, scope, outer, split, -, holds⟩
  exact ⟨name, allocated scope (by simp [split]) name inst holds⟩

/-! ## The entry of the module a callback belongs to -/

/-- The number of the entry of the module the place is in. -/
def Site.entry (site : Site) : Option Nat :=
  site.path.getLast?.map Step.child

theorem Site.entry_of_suffix {site : Site} {owner : Module} {child : Nat}
    (inside : [⟨.module owner, child⟩] <:+ site.path) :
    site.entry = some child := by
  rcases inside with ⟨below, same⟩
  rw [Site.entry, ← same, List.getLast?_append]
  rfl

/-- A callback about an expression is issued in the body of a function. -/
theorem Module.inBody_of_inner {owner : Module} {site : Site}
    (member : site ∈ owner.sites) (inner : ¬ site.callback.Outer)
    (present : site.callback ≠ .nullArgument) :
    ∃ (child : Nat) (func : Function),
      owner.functions[child]? = some (some func) ∧
        site ∈ func.body.sites (owner.bodyPath func child) := by
  rcases Module.mem_sites member with
    ⟨-, own⟩ | ⟨child, -, same⟩ | ⟨child, func, place, ⟨-, own⟩ | inBody⟩
  · refine absurd ?_ inner
    simp only [Module.ownCallbacks, List.mem_cons, List.not_mem_nil, or_false]
      at own
    rcases own with own | own | own | own <;> rw [own] <;> trivial
  · rw [same] at present
    exact absurd rfl present
  · refine absurd ?_ inner
    simp only [Function.ownCallbacks, List.mem_cons, List.not_mem_nil, or_false]
      at own
    rcases own with own | own | own | own <;> rw [own] <;> trivial
  · exact ⟨child, func, place, inBody⟩

theorem Module.bodyPath_suffix {owner : Module} {func : Function} {child : Nat}
    {site : Site} (inBody : site ∈ func.body.sites (owner.bodyPath func child)) :
    [⟨.module owner, child⟩] <:+ site.path :=
  (List.suffix_cons _ _).trans (func.body.suffix_of_mem_sites inBody)

/-- A function is walked with its own block as the current one. -/
theorem Module.Reaches.entry_eq {owner : Module} {past : List Site}
    {site : Site} {visitor : CodeGenVisitor}
    (reached : owner.Reaches past site visitor)
    (inner : ¬ site.callback.Outer) (present : site.callback ≠ .nullArgument) :
    site.entry = some visitor.block_ := by
  rcases reached.occurs with ⟨future, occurs⟩
  have member : site ∈ owner.sites := by simp [occurs]
  rcases Module.inBody_of_inner member inner present with
    ⟨child, func, place, inBody⟩
  rw [Site.entry_of_suffix (Module.bodyPath_suffix inBody)]
  rcases List.append_of_mem inBody with ⟨earlier, later, body⟩
  let path : Path := [⟨.module owner, child⟩]
  have whole : owner.sites =
      (owner.sitesBefore child ++ ⟨path, .visitingNode (.function func)⟩ ::
        ⟨path, .visitingFunction func⟩ :: earlier) ++
        site :: (later ++ ⟨path, .visitedFunction func⟩ ::
          ⟨path, .visitedNode (.function func)⟩ :: owner.sitesAfter child) := by
    rw [Module.sites_around place, body]
    simp [path]
  have reaches := reached.reaches
  rw [Module.past_unique occurs whole] at reaches
  rcases (run_append_eq_ok_iff _).mp reaches with ⟨start, before, walked⟩
  rcases (run_cons_eq_ok_iff _).mp walked with ⟨named, names, walked⟩
  cases names
  rcases (run_cons_eq_ok_iff _).mp walked with ⟨inside, enters, remaining⟩
  rcases (perform_eq_ok_iff.mp enters).of_visitingFunction with
    ⟨returnType, llvmOwner, index, -, inserts, rfl⟩
  have stays : ∀ other ∈ earlier, ¬ other.callback.Moves := by
    intro other member
    exact Expr.stays_of_mem_sites (body ▸ List.mem_append_left _ member)
  obtain ⟨operations, emits⟩ := emits_of_run stays remaining
  rcases List.getElem?_eq_some_iff.mp place with ⟨bound, -⟩
  have number := (Module.before_of_run bound.le before).1
  have blocks := (LlvmModule.getOrInsertFunction_entry inserts).1
  have current : visitor.block_ = llvmOwner.blocks.length := emits.block
  rw [current, blocks]
  exact congrArg some number.symm

/-! ## The values on the stack -/

/-- A constant, or an instruction in the block of the entry of its source. -/
def Value.EmittedBy (code : List Instruction) (value : Value)
    (source : Site) : Prop :=
  value.isConstant = true ∨
    ∃ definition ∈ code, definition.value = value ∧
      source.entry = some definition.parent

theorem Value.EmittedBy.append {code more : List Instruction} {value : Value}
    {source : Site} (emitted : value.EmittedBy code source) :
    value.EmittedBy (code ++ more) source := by
  rcases emitted with constant | ⟨definition, member, same, entry⟩
  · exact .inl constant
  · exact .inr ⟨definition, List.mem_append_left _ member, same, entry⟩

theorem Value.EmittedBy.defined {code : List Instruction} {value : Value}
    {source : Site} (emitted : value.EmittedBy code source) :
    value.DefinedIn code := by
  rcases emitted with constant | ⟨definition, member, same, -⟩
  · exact .inl constant
  · exact .inr ⟨definition, member, same⟩

/-- With ascending addresses, where a value comes from tells its block. -/
theorem Value.EmittedBy.local_iff {code : List Instruction} {value : Value}
    {source : Site} (emitted : value.EmittedBy code source)
    (ascending : (code.map Instruction.address).Pairwise (· < ·))
    (block : Nat) :
    (∀ definition ∈ code, definition.value = value →
        definition.parent = block) ↔
      (value.isConstant = false → source.entry = some block) := by
  rcases emitted with constant | ⟨origin, member, rfl, entry⟩
  · refine iff_of_true ?_ (by simp [constant])
    intro definition _ same
    rw [← same] at constant
    cases constant
  · rw [entry]
    constructor
    · intro inBlock _
      rw [inBlock origin member rfl]
    · intro fromBlock definition definitionMember same
      have addresses : definition.address = origin.address := by
        injection same
      rw [eq_of_address ascending definitionMember member addresses]
      exact Option.some.inj (fromBlock rfl)

/-- What a callback pushes is a constant or the one instruction it emits. -/
theorem CodeGenVisitor.Performs.pushed {before after : CodeGenVisitor}
    {callback : Callback} (performs : Performs before callback after)
    (pushes : callback.pushes = true) {value : Value} {rest : List Value}
    (stack : after.valueStack_ = value :: rest) :
    value.isConstant = true ∨
      ∃ operation, before.operations callback = [operation] ∧
        value =
          .instruction before.context_.nextAddress operation.resultType := by
  cases performs with
  | visitLiteralInt32 visitor literal =>
      cases stack
      exact .inl rfl
  | visitLiteralFloat visitor literal =>
      cases stack
      exact .inl rfl
  | visitVariableRef found =>
      rename_i var inst
      cases stack
      exact .inr ⟨.load inst, by simp only [operations, found], rfl⟩
  | visitedAssignVariable valueExpr found values =>
      rename_i var inst assigned below
      cases stack
      exact .inr ⟨.store assigned inst,
        by simp only [operations, found, values], rfl⟩
  | visitedBinary left right chosen values =>
      rename_i opcode lValue rValue below
      simp only [operations, values, right, chosen, binaryOperations]
      cases lValue <;> cases rValue <;> cases stack <;>
        first
          | exact .inl rfl
          | exact .inr ⟨_, rfl, rfl⟩
  | silent visitor notOverridden =>
      cases callback <;>
        first
          | exact notOverridden.elim
          | exact absurd pushes Bool.false_ne_true
  | _ => exact absurd pushes Bool.false_ne_true

theorem Callback.inner_of_pushes {callback : Callback}
    (pushes : callback.pushes = true) :
    ¬ callback.Outer ∧ callback ≠ .nullArgument := by
  cases callback <;>
    first
      | exact absurd pushes Bool.false_ne_true
      | exact ⟨id, nofun⟩

/-- Every value on the stack was emitted into the block of its source. -/
theorem Module.emittedBy_of_run {owner : Module} {past future : List Site}
    {visitor : CodeGenVisitor} (split : owner.sites = past ++ future)
    (reaches : run codeGen.performAt past {} = .ok () visitor) :
    List.Forall₂ (Value.EmittedBy visitor.module_.instructions)
      visitor.valueStack_ (origins past) := by
  refine owner.reached_induction (motive := fun past visitor =>
    List.Forall₂ (Value.EmittedBy visitor.module_.instructions)
      visitor.valueStack_ (origins past)) .nil ?_ split reaches
  intro past site before after reached performs emitted
  by_cases opening : ∃ other, site.callback = .visitingModule other
  · -- nothing is on the stack where the module is entered
    rcases opening with ⟨other, entering⟩
    rcases site with ⟨path, callback⟩
    rcases reached.occurs with ⟨future, occurs⟩
    subst entering
    rw [Module.past_of_visitingModule occurs] at emitted ⊢
    cases performs with
    | visitingModule visitor other =>
        have none : before.valueStack_ = [] :=
          List.forall₂_nil_right_iff.mp emitted
        simp only [none]
        exact .nil
    | silent visitor notOverridden => exact notOverridden.elim
  · have code := performs.instructions (not_exists.mp opening)
    rcases performs.valueStack reached.ancestryStack with ⟨value, values⟩
    rw [origins_append_singleton, values, code]
    apply site.onStack_related (emitted.imp fun _ _ => Value.EmittedBy.append)
    intro pushes
    rw [Site.onStack_of_pushes _ _ pushes] at values
    rcases performs.pushed pushes values with constant | ⟨operation, emits, rfl⟩
    · exact .inl constant
    · rcases Callback.inner_of_pushes pushes with ⟨inner, present⟩
      refine .inr ⟨⟨before.context_.nextAddress, before.block_, operation⟩,
        ?_, rfl, reached.entry_eq inner present⟩
      rw [emits]
      exact List.mem_append_right _ List.mem_cons_self

/-! ## What a callback emits -/

/--
The values a callback takes from the stack are constants or were pushed by callbacks
in the same entry of the module.
-/
def Site.TakesLocally (past : List Site) (site : Site) : Prop :=
  ∀ taken ∈ ((origins past).zip (kindsAfter past)).take site.callback.operands,
    taken.2.constant = false → taken.1.entry = site.entry

instance (past : List Site) (site : Site) : Decidable (site.TakesLocally past) :=
  inferInstanceAs (Decidable (∀ taken ∈ List.take _ _, _))

/-- What a callback emits uses what has been emitted. -/
theorem CodeGenVisitor.Performs.supplied {before after : CodeGenVisitor}
    {callback : Callback} (performs : Performs before callback after)
    (allocated : ScopesAllocated before)
    (defined : ∀ value ∈ before.valueStack_,
      value.DefinedIn before.module_.instructions) :
    ∀ operation ∈ before.operations callback,
      operation.SuppliedBy before.module_.instructions before.block_ := by
  intro operation emitted
  cases performs with
  | visitingBlock expressions faultless =>
      rcases List.mem_map.mp emitted with ⟨var, -, rfl⟩
      exact Operation.suppliedBy_alloca _ _
  | visitVariableRef found =>
      simp only [operations, found, List.mem_singleton] at emitted
      subst emitted
      refine ⟨by simp [Operation.operands], fun pointer accesses => ?_⟩
      cases accesses
      exact allocated.find found
  | visitedAssignVariable valueExpr found stack =>
      simp only [operations, found, stack, List.mem_singleton] at emitted
      subst emitted
      refine ⟨fun value member => defined value ?_, fun pointer accesses => ?_⟩
      · rw [stack, List.mem_singleton.mp member]
        exact List.mem_cons_self
      · cases accesses
        exact allocated.find found
  | visitedBinary left right chosen stack =>
      simp only [operations, stack, right, chosen, binaryOperations] at emitted
      split at emitted
      · cases emitted
      · rw [List.mem_singleton.mp emitted]
        refine ⟨fun value member => defined value ?_, fun pointer accesses => ?_⟩
        · simp only [Operation.operands, List.mem_cons, List.not_mem_nil,
            or_false] at member
          rw [stack]
          rcases member with rfl | rfl <;> simp
        · cases accesses
  | visitedReturn valueExpr stack =>
      simp only [operations, stack, List.mem_singleton] at emitted
      subst emitted
      refine ⟨fun value member => defined value ?_, fun pointer accesses => ?_⟩
      · rw [stack, List.mem_singleton.mp member]
        exact List.mem_cons_self
      · cases accesses
  | silent visitor notOverridden =>
      cases callback <;> first | exact notOverridden.elim | cases emitted
  | _ => cases emitted

/-- A callback that takes one value takes it locally if its own block made it. -/
theorem Module.Reaches.takesLocally_iff {owner : Module} {past : List Site}
    {site : Site} {before : CodeGenVisitor} (reached : owner.Reaches past site before)
    (inner : ¬ site.callback.Outer) (present : site.callback ≠ .nullArgument)
    (one : site.callback.operands = 1) {value : Value} {rest : List Value}
    (stack : before.valueStack_ = value :: rest) :
    site.TakesLocally past ↔
      ∀ definition ∈ before.module_.instructions,
        definition.value = value → definition.parent = before.block_ := by
  rcases reached.occurs with ⟨future, occurs⟩
  have kinds := reached.kinds
  have emitted := Module.emittedBy_of_run occurs reached.reaches
  have ascending :=
    (Module.addressesAscend_of_run occurs reached.reaches).ascending
  rw [stack] at emitted kinds
  rcases List.forall₂_cons_left_iff.mp emitted with ⟨source, sources, top, -, same⟩
  simp only [Site.TakesLocally, same, ← kinds, one, List.map_cons,
    List.zip_cons_cons, List.take_succ_cons, List.take_zero,
    List.forall_mem_singleton, reached.entry_eq inner present]
  exact (top.local_iff ascending before.block_).symm

/-- What a callback emits uses its own block exactly if what it takes does. -/
theorem Module.Reaches.usesLocally_iff {owner : Module} {past : List Site}
    {site : Site} {before after : CodeGenVisitor}
    (reached : owner.Reaches past site before)
    (performs : Performs before site.callback after) :
    (∀ operation ∈ before.operations site.callback,
        ∀ value ∈ operation.operands,
          ∀ definition ∈ before.module_.instructions,
            definition.value = value → definition.parent = before.block_) ↔
      site.TakesLocally past := by
  rcases reached.occurs with ⟨future, occurs⟩
  have kinds := reached.kinds
  have emitted := Module.emittedBy_of_run occurs reached.reaches
  have ascending :=
    (Module.addressesAscend_of_run occurs reached.reaches).ascending
  have entry := reached.entry_eq
  rcases site with ⟨path, callback⟩
  cases performs with
  | visitedAssignVariable valueExpr found stack =>
      simp only [operations, found, stack, List.forall_mem_singleton,
        Operation.operands]
      exact (reached.takesLocally_iff id (by simp) rfl stack).symm
  | visitedReturn valueExpr stack =>
      simp only [operations, stack, List.forall_mem_singleton, Operation.operands]
      exact (reached.takesLocally_iff id (by simp) rfl stack).symm
  | visitedBinary left right chosen stack =>
      rename_i opcode lValue rValue rest
      rw [stack] at emitted kinds
      rcases List.forall₂_cons_left_iff.mp emitted with
        ⟨rSource, others, rEmitted, emitted, same⟩
      rcases List.forall₂_cons_left_iff.mp emitted with
        ⟨lSource, sources, lEmitted, -, rfl⟩
      have rLocal := rEmitted.local_iff ascending before.block_
      have lLocal := lEmitted.local_iff ascending before.block_
      simp only [operations, stack, right, chosen, Site.TakesLocally, same,
        ← kinds, List.map_cons, List.zip_cons_cons, Callback.operands,
        List.take_succ_cons, List.take_zero, List.forall_mem_cons,
        List.not_mem_nil, entry id (by simp), binaryOperations]
      cases folded : lValue.isConstant && rValue.isConstant with
      | true =>
          rcases Bool.and_eq_true_iff.mp folded with ⟨lConstant, rConstant⟩
          simp [Value.kind, lConstant, rConstant]
      | false =>
          simp only [Bool.false_eq_true, if_false, List.forall_mem_singleton,
            Operation.operands, List.forall_mem_cons, false_imp_iff,
            implies_true, and_true, Value.kind]
          rw [lLocal, rLocal]
          exact and_comm
  | visitingBlock expressions faultless =>
      simp [operations, Site.TakesLocally, Callback.operands,
        Operation.operands]
  | visitVariableRef found =>
      simp [operations, found, Site.TakesLocally, Callback.operands,
        Operation.operands]
  | silent visitor notOverridden =>
      cases callback <;>
        first
          | exact notOverridden.elim
          | simp [operations, Site.TakesLocally, Callback.operands]
  | _ => simp [operations, Site.TakesLocally, Callback.operands]

/-! ## The whole code -/

/-- The code so far, with what decides whether it is local. -/
structure SsaSoFar (past : List Site) (visitor : CodeGenVisitor) : Prop where
  supplied : Throughout
    (fun past instruction =>
      instruction.operation.SuppliedBy past instruction.parent)
    visitor.module_.instructions
  usesLocally_iff : visitor.module_.UsesLocally ↔
    Throughout Site.TakesLocally past

theorem SsaSoFar.step {owner : Module} {past : List Site} {site : Site}
    {before after : CodeGenVisitor}
    (reached : owner.Reaches past site before)
    (performs : Performs before site.callback after)
    (inside : ∀ other, site.callback ≠ .visitingModule other)
    (sofar : SsaSoFar past before) : SsaSoFar (past ++ [site]) after := by
  rcases reached.occurs with ⟨future, occurs⟩
  have allocated := Module.scopesAllocated_of_run occurs reached.reaches
  have emitted := Module.emittedBy_of_run occurs reached.reaches
  have defined : ∀ value ∈ before.valueStack_,
      value.DefinedIn before.module_.instructions := by
    intro value member
    rcases List.mem_iff_getElem.mp member with ⟨depth, bound, same⟩
    have each := emitted.get bound (emitted.length_eq ▸ bound)
    rw [List.get_eq_getElem, same] at each
    exact each.defined
  have code := performs.instructions inside
  constructor
  · have each : ∀ operation ∈ before.operations site.callback, ∀ more place,
        (∀ instruction ∈ more, instruction.parent = before.block_) →
          (operation.SuppliedBy (before.module_.instructions ++ more)
            (Instruction.mk place before.block_ operation).parent ↔ True) := by
      intro operation member more place _
      have supplied := performs.supplied allocated defined operation member
      exact iff_of_true supplied.append trivial
    rw [code]
    exact (throughout_append_placed _ each).mpr
      ⟨sofar.supplied, fun _ _ => trivial⟩
  · rw [throughout_append_singleton, ← sofar.usesLocally_iff,
      ← reached.usesLocally_iff performs, LlvmModule.UsesLocally, code]
    apply throughout_append_placed
    intro operation member more place inBlock
    apply forall₂_congr
    intro value _
    rw [List.forall_mem_append]
    refine and_iff_left ?_
    intro definition defines _
    exact inBlock definition defines

theorem Module.ssaSoFar_of_run {owner : Module} {past future : List Site}
    {visitor : CodeGenVisitor} (split : owner.sites = past ++ future)
    (reaches : run codeGen.performAt past {} = .ok () visitor) :
    SsaSoFar past visitor := by
  refine owner.reached_induction (motive := SsaSoFar)
    ⟨throughout_nil, iff_of_true throughout_nil throughout_nil⟩ ?_ split reaches
  intro past site before after reached performs sofar
  by_cases opening : ∃ other, site.callback = .visitingModule other
  · rcases opening with ⟨other, entering⟩
    rcases site with ⟨path, callback⟩
    rcases reached.occurs with ⟨future, occurs⟩
    subst entering
    rw [Module.past_of_visitingModule occurs]
    have takesNothing : Throughout Site.TakesLocally
        ([⟨[], .visitingNode (.module owner)⟩] ++
          [⟨path, .visitingModule other⟩]) := by
      have opening : Throughout Site.TakesLocally
          ([] ++ [⟨[], .visitingNode (.module owner)⟩]) :=
        throughout_nil.append_singleton nofun
      exact opening.append_singleton nofun
    cases performs with
    | visitingModule visitor other =>
        exact ⟨throughout_nil, iff_of_true throughout_nil takesNothing⟩
    | silent visitor notOverridden => exact notOverridden.elim
  · exact sofar.step reached performs (not_exists.mp opening)

/--
Whatever the walk of a module has emitted is in SSA form: addresses ascend, every
operand was emitted before with the type it is used at, and every load and store goes
through an alloca that was emitted before into the same block.
-/
theorem emitted_code_is_ssa {owner : Module} {past future : List Site}
    {visitor : CodeGenVisitor} (split : owner.sites = past ++ future)
    (reaches : run codeGen.performAt past {} = .ok () visitor) :
    visitor.module_.InSsaForm where
  ascending := (Module.addressesAscend_of_run split reaches).ascending
  supplied := (Module.ssaSoFar_of_run split reaches).supplied

/--
If the walk of a module completes, no instruction uses an instruction of another
function's block exactly if every value that is no constant is taken in the entry of
the module in which it was pushed.
-/
theorem uses_locally_iff (owner : Module) {final : CodeGenVisitor}
    (completes : walkTree codeGen owner {} = .ok () final) :
    final.module_.UsesLocally ↔
      ∀ past site future, owner.sites = past ++ site :: future →
        site.TakesLocally past := by
  rw [walkTree_eq_run] at completes
  exact (Module.ssaSoFar_of_run (List.append_nil owner.sites).symm
    completes).usesLocally_iff

/-- `float f() { float x; x; x; x; }` and `float g() { return {}; }`. -/
def leftoverModule : Module :=
  let x : Expr := .variableRef ⟨0, "x", .float⟩
  let f : FunctionBuilder :=
    { name_ := "f", returnType_ := .float,
      blockBuilder_ :=
        (((BlockBuilder.addVariable {} ⟨0, "x", .float⟩).addExpression
          x).addExpression x).addExpression x }
  let g : FunctionBuilder :=
    { name_ := "g", returnType_ := .float,
      blockBuilder_ := BlockBuilder.addExpression {}
        (.return (BlockBuilder.build {} .insertion)) }
  ((ModuleBuilder.addFunction { name_ := "leftover" }
    (some (f.build .insertion .insertion))).addFunction
      (some (g.build .insertion .insertion))).build

theorem leftoverModule_completes :
    ∃ final, walkTree codeGen leftoverModule {} = .ok () final ∧
      final.module_.instructions =
        [⟨0, 0, .alloca .float "x"⟩, ⟨1, 0, .load ⟨0, .float⟩⟩,
          ⟨2, 0, .load ⟨0, .float⟩⟩, ⟨3, 0, .load ⟨0, .float⟩⟩,
          ⟨4, 1, .ret (.instruction 1 .float)⟩] := by
  have completed : completedWith (fun final =>
      decide (final.module_.instructions =
        [⟨0, 0, .alloca .float "x"⟩, ⟨1, 0, .load ⟨0, .float⟩⟩,
          ⟨2, 0, .load ⟨0, .float⟩⟩, ⟨3, 0, .load ⟨0, .float⟩⟩,
          ⟨4, 1, .ret (.instruction 1 .float)⟩]))
      (walkTree codeGen leftoverModule {}) = true := by
    decide +kernel
  rcases exists_of_completedWith completed with ⟨final, completes, code⟩
  exact ⟨final, completes, of_decide_eq_true code⟩

theorem emitted_code_is_ssa_leftover :
    ∃ final, walkTree codeGen leftoverModule {} = .ok () final ∧
      final.module_.InSsaForm := by
  rcases leftoverModule_completes with ⟨final, completes, -⟩
  refine ⟨final, completes, ?_⟩
  rw [walkTree_eq_run] at completes
  exact emitted_code_is_ssa (List.append_nil leftoverModule.sites).symm completes

theorem uses_locally_iff_leftover :
    ∃ final, walkTree codeGen leftoverModule {} = .ok () final ∧
      (final.module_.UsesLocally ↔
        ∀ past site future, leftoverModule.sites = past ++ site :: future →
          site.TakesLocally past) := by
  rcases leftoverModule_completes with ⟨final, completes, -⟩
  exact ⟨final, completes, uses_locally_iff leftoverModule completes⟩

end Llast
