import Llast.CompilerCorrectness
import Llast.TypeSoundness

/-!
# Evaluating a tree straight through

The generator emits the code of the condition and of both arms of a Conditional one
after another.  `Evaluation.step` evaluates the callbacks of a tree in the same way,
without a generator: on a stack of what values are worth and an environment of nested
frames, until a Return or an operation that is undefined.  `executed_eq_evaluated` says
that executing the generated code computes exactly this.
-/

namespace Llast

open Llast.EventRun
open Llast.CodeGenVisitor

/-! ## Straight evaluation -/

/-- What a value is worth; an operation on constants is a constant. -/
structure Worth where
  kind : Kind
  datum : Option Datum
deriving DecidableEq, Repr

/-- Only constants keep their worth in another function. -/
def Worth.elsewhere (worth : Worth) : Worth :=
  if worth.kind.constant then worth else { worth with datum := none }

theorem Worth.kind_elsewhere (worth : Worth) :
    worth.elsewhere.kind = worth.kind := by
  rw [Worth.elsewhere]
  split <;> rfl

theorem Worth.elsewhere_elsewhere (worth : Worth) :
    worth.elsewhere.elsewhere = worth.elsewhere := by
  rw [Worth.elsewhere, Worth.kind_elsewhere, Worth.elsewhere]
  split <;> rfl

/--
The state of an evaluation: whether it goes on, the worths of the values on the stack,
and the frames of the open Blocks.
-/
structure Evaluation where
  running : Bool := true
  worths : List Worth := []
  env : Environment := []

section Step

variable (arith : FloatArith)

/-- What folding an operation on constants of a type makes of them. -/
def OperationKind.fold (dataType : DataType) (operation : OperationKind)
    (lhs rhs : Datum) : Option Datum :=
  match dataType, operation with
  | .int32, .div => lhs.foldDivision rhs
  | _, _ => operation.compute arith dataType lhs rhs

/-- What an operation is worth. -/
def Worth.operate (operation : OperationKind) (rValueExpr : Expr)
    (lhs rhs : Worth) : Option Datum := do
  let dataType ← rValueExpr.dataType.toOption
  if lhs.kind.constant && rhs.kind.constant then
    operation.fold arith dataType (← lhs.datum) (← rhs.datum)
  else
    operation.compute arith dataType (← lhs.datum) (← rhs.datum)

/-- The datum of what a callback pushes; an assignment leaves a value without one. -/
def Site.datum (env : Environment) (site : Site) (worths : List Worth) :
    Option Datum :=
  match site.callback, worths with
  | .visitLiteralInt32 value, _ => some (.int value)
  | .visitLiteralFloat value, _ => some (.float value)
  | .visitVariableRef var, _ => env.read var.name
  | .visitedBinary _ operation rValueExpr, rhs :: lhs :: _ =>
      lhs.operate arith operation rValueExpr rhs
  | _, _ => none

/-- What a callback pushes is worth. -/
def Site.worth (env : Environment) (site : Site) (worths : List Worth) : Worth where
  kind := site.kind (worths.map Worth.kind)
  datum := site.datum arith env worths

/-- What a callback assigns. -/
def Site.assignment (site : Site) (worths : List Worth) : Option (String × Datum) :=
  match site.callback, worths with
  | .visitedAssignVariable var _, value :: _ =>
      if site.KindsFit (worths.map Worth.kind) then
        value.datum.map fun datum => (var.name, datum)
      else
        none
  | _, _ => none

/--
Evaluation goes on after a callback: it is no Return, and if it has an instruction,
this is well typed and defined.
-/
def Site.goesOn (site : Site) (worths : List Worth) : Bool :=
  match site.callback, worths with
  | .visitedAssignVariable _ _, _ => (site.assignment worths).isSome
  | .visitedBinary _ operation rValueExpr, rhs :: lhs :: _ =>
      lhs.kind.constant && rhs.kind.constant ||
        decide (site.KindsFit (worths.map Worth.kind)) &&
          (lhs.operate arith operation rValueExpr rhs).isSome
  | .visitedReturn _, _ => false
  | _, _ => true

/-- The environment after a callback. -/
def Site.onEnvironment (site : Site) (worths : List Worth) (env : Environment) :
    Environment :=
  match site.callback, site.assignment worths with
  | .visitingBlock scope _, _ => Environment.declare scope :: env
  | .visitedBlock _ _, _ => env.tail
  | _, some (name, datum) => (env.assign name datum).getD env
  | _, none => env

namespace Evaluation

/-- A function is entered: its evaluation starts anew. -/
def enter (evaluation : Evaluation) : Evaluation where
  running := true
  worths := evaluation.worths.map Worth.elsewhere
  env := []

/-- What a callback does that stays in its function. -/
def advance (evaluation : Evaluation) (site : Site) : Evaluation where
  running := evaluation.running && site.goesOn arith evaluation.worths
  worths := site.onStack (Site.worth arith evaluation.env) evaluation.worths
  env := site.onEnvironment evaluation.worths evaluation.env

/-- What a callback does. -/
def step (evaluation : Evaluation) (site : Site) : Evaluation :=
  match site.callback with
  | .visitingFunction _ => evaluation.enter
  | .visitingModule _ => evaluation.enter
  | _ => evaluation.advance arith site

/-- What the value at this depth of the stack is worth. -/
def worthAt (evaluation : Evaluation) (depth : Nat) : Option Datum :=
  evaluation.worths[depth]?.bind Worth.datum

/-- The evaluation of some callbacks. -/
def after (past : List Site) : Evaluation :=
  past.foldl (step arith) {}

end Evaluation

theorem Evaluation.after_append_singleton (past : List Site) (site : Site) :
    Evaluation.after arith (past ++ [site]) =
      (Evaluation.after arith past).step arith site := by
  rw [Evaluation.after, List.foldl_append, List.foldl_cons, List.foldl_nil,
    Evaluation.after]

theorem Evaluation.step_of_moves (evaluation : Evaluation) {site : Site}
    (moves : site.callback.Moves) :
    evaluation.step arith site = evaluation.enter := by
  rcases site with ⟨path, callback⟩
  cases callback <;> first | rfl | exact moves.elim

theorem Evaluation.step_of_stays (evaluation : Evaluation) {site : Site}
    (stays : ¬ site.callback.Moves) :
    evaluation.step arith site = evaluation.advance arith site := by
  rcases site with ⟨path, callback⟩
  cases callback <;> first | rfl | exact absurd trivial stays

/-- What the values on the stack are worth, if evaluation gets so far. -/
def evaluated (past : List Site) : Option (List (Option Datum)) :=
  let evaluation := Evaluation.after arith past
  if evaluation.running then
    some (evaluation.worths.map Worth.datum)
  else
    none

end Step

/-! ## Executing what was generated -/

section Execute

variable (arith : FloatArith)

/-- The machine that has executed the code in the current block. -/
def CodeGenVisitor.machine (visitor : CodeGenVisitor) : Option Machine :=
  Machine.proceed arith {} (visitor.module_.blockCode visitor.block_)

/-- Emitted code is executed after the code that was there. -/
theorem CodeGenVisitor.Emits.machine {before after : CodeGenVisitor}
    {operations : List Operation} (emits : Emits before after operations) :
    after.machine arith =
      (before.machine arith).bind fun machine =>
        machine.proceed arith (placed before.context_.nextAddress before.block_
          operations) := by
  rw [CodeGenVisitor.machine, LlvmModule.blockCode, emits.instructions,
    emits.block, List.filter_append, filter_parent_placed,
    Machine.proceed_append_eq_bind]
  rfl

/-- Instructions write the registers of their own addresses only. -/
theorem Machine.step_registers {machine next : Machine} {instruction : Instruction}
    (steps : machine.step arith instruction = some next) {address : Nat}
    (other : address ≠ instruction.address) :
    next.registers address = machine.registers address := by
  rw [Machine.step] at steps
  cases operation : instruction.operation with
  | alloca type name =>
      rw [operation] at steps
      cases steps
      rfl
  | load pointer =>
      rw [operation] at steps
      rcases Option.bind_eq_some_iff.mp steps with ⟨datum, -, same⟩
      cases same
      exact Function.update_of_ne other ..
  | store value pointer =>
      rw [operation] at steps
      rcases Option.ite_none_right_eq_some.mp steps with ⟨-, stores⟩
      rcases Option.bind_eq_some_iff.mp stores with ⟨datum, -, writes⟩
      rcases Option.bind_eq_some_iff.mp writes with ⟨old, -, same⟩
      cases same
      rfl
  | binary opcode lhs rhs =>
      rw [operation] at steps
      rcases Option.ite_none_right_eq_some.mp steps with ⟨-, computes⟩
      simp only [Option.bind_eq_bind, Option.bind_eq_some_iff] at computes
      rcases computes with ⟨left, -, right, -, datum, -, same⟩
      cases same
      exact Function.update_of_ne other ..
  | ret value =>
      rw [operation] at steps
      cases steps

theorem proceed_placed_registers {address block : Nat}
    {operations : List Operation} {machine next : Machine}
    (proceeds : machine.proceed arith (placed address block operations) =
      some next) {register : Nat}
    (outside : register < address ∨ address + operations.length ≤ register) :
    next.registers register = machine.registers register := by
  induction operations generalizing address machine with
  | nil =>
      cases proceeds
      rfl
  | cons operation rest ih =>
      rw [placed, Machine.proceed] at proceeds
      rcases Option.bind_eq_some_iff.mp proceeds with ⟨middle, steps, remaining⟩
      rw [List.length_cons] at outside
      rw [ih remaining (by omega), Machine.step_registers arith steps]
      simp only
      omega

/-! ## Worths of values -/

/-- The value was created before the next address and is worth this in the machine. -/
def Value.IsWorth (nextAddress : Nat) (machine : Option Machine) :
    Value → Worth → Prop
  | .constant known, worth => worth = ⟨⟨known.type, true⟩, known.compute arith⟩
  | .instruction address type, worth =>
      address < nextAddress ∧ worth.kind = ⟨type, false⟩ ∧
        ∀ running, machine = some running →
          running.registers address = worth.datum

theorem Value.IsWorth.kind {nextAddress : Nat} {machine : Option Machine}
    {value : Value} {worth : Worth}
    (isWorth : value.IsWorth arith nextAddress machine worth) :
    worth.kind = value.kind := by
  cases value with
  | constant known =>
      rw [show worth = _ from isWorth]
      rfl
  | instruction address type => exact isWorth.2.1

theorem Value.IsWorth.read {nextAddress : Nat} {machine : Machine}
    {value : Value} {worth : Worth}
    (isWorth : value.IsWorth arith nextAddress (some machine) worth) :
    machine.read arith value = worth.datum := by
  cases value with
  | constant known =>
      rw [show worth = _ from isWorth]
      rfl
  | instruction address type => exact isWorth.2.2 machine rfl

/-- Values keep their worth while older registers are kept. -/
theorem Value.IsWorth.later {nextAddress later : Nat}
    {machine after : Option Machine} {value : Value} {worth : Worth}
    (isWorth : value.IsWorth arith nextAddress machine worth)
    (grown : nextAddress ≤ later)
    (kept : ∀ next, after = some next → ∃ known, machine = some known ∧
      ∀ address < nextAddress,
        next.registers address = known.registers address) :
    value.IsWorth arith later after worth := by
  cases value with
  | constant known => exact isWorth
  | instruction address type =>
      rcases isWorth with ⟨older, flag, holds⟩
      refine ⟨older.trans_le grown, flag, fun next runs => ?_⟩
      rcases kept next runs with ⟨known, same, registers⟩
      rw [registers address older, holds known same]

/-- In a function that has just been entered no register holds anything. -/
theorem Value.IsWorth.elsewhere {nextAddress : Nat} {machine : Option Machine}
    {value : Value} {worth : Worth}
    (isWorth : value.IsWorth arith nextAddress machine worth) :
    value.IsWorth arith nextAddress (some {}) worth.elsewhere := by
  cases value with
  | constant known =>
      rw [show worth = _ from isWorth]
      rfl
  | instruction address type =>
      rcases isWorth with ⟨older, kind, -⟩
      refine ⟨older, worth.kind_elsewhere.trans kind, fun running same => ?_⟩
      cases same
      rw [Worth.elsewhere, kind]
      rfl

/-- The evaluation says what executing the generated code has computed. -/
structure Simulates (visitor : CodeGenVisitor) (evaluation : Evaluation) :
    Prop where
  parents : ∀ instruction ∈ visitor.module_.instructions,
    instruction.parent < visitor.module_.blocks.length
  values : List.Forall₂
    (Value.IsWorth arith visitor.context_.nextAddress (visitor.machine arith))
    visitor.valueStack_ evaluation.worths
  running : evaluation.running = (visitor.machine arith).isSome
  environment : ∀ machine, visitor.machine arith = some machine →
    Represents visitor.context_.nextAddress visitor.allocaScopeStack_ machine
      evaluation.env
  fresh : ∀ machine, visitor.machine arith = some machine →
    ∀ address, visitor.context_.nextAddress ≤ address →
      machine.registers address = none

/-! ## One callback -/

/-- A name that stands for an alloca is declared in the environment. -/
theorem read_of_findAlloca {memory : Nat → Option Datum}
    {scopes : List AllocaScope} {env : Environment} {name : String}
    {inst : AllocaInst} (frames : List.Forall₂ (FrameHolds memory) scopes env)
    (found : findAlloca name scopes = some inst) :
    ∃ datum, env.read name = some datum ∧
      memory inst.address = some datum := by
  induction frames with
  | nil => cases found
  | cons first others ih =>
      rename_i scope frame scopes env
      rw [findAlloca] at found
      rw [Environment.read]
      cases here : scope.lookup name with
      | some other =>
          rw [here] at found
          cases found
          rcases first.declared name inst here with ⟨datum, cell, entry⟩
          exact ⟨datum, by rw [entry], cell⟩
      | none =>
          rw [here] at found
          rw [first.undeclared name here]
          exact ih found

theorem assign_of_findAlloca {memory : Nat → Option Datum}
    {scopes : List AllocaScope} {env : Environment} {name : String}
    {inst : AllocaInst} (frames : List.Forall₂ (FrameHolds memory) scopes env)
    (found : findAlloca name scopes = some inst) (datum : Datum) :
    ∃ next, env.assign name datum = some next := by
  induction frames with
  | nil => cases found
  | cons first others ih =>
      rename_i scope frame scopes env
      rw [findAlloca] at found
      rw [Environment.assign]
      cases here : scope.lookup name with
      | some other =>
          rcases first.declared name other here with ⟨old, -, entry⟩
          rw [entry]
          exact ⟨_, rfl⟩
      | none =>
          rw [here] at found
          rw [first.undeclared name here]
          rcases ih found with ⟨next, assigned⟩
          rw [assigned]
          exact ⟨_, rfl⟩

theorem fold_of_opcodeOf {dataType : DataType} {operation : OperationKind}
    {opcode : Opcode} (chosen : opcodeOf dataType operation = some opcode) :
    opcode.fold arith = operation.fold arith dataType := by
  cases dataType <;> cases operation <;> cases chosen <;> rfl

theorem compute_of_opcodeOf {dataType : DataType} {operation : OperationKind}
    {opcode : Opcode} (chosen : opcodeOf dataType operation = some opcode) :
    opcode.compute arith = operation.compute arith dataType := by
  cases dataType <;> cases operation <;> cases chosen <;> rfl

/-- What an operation is worth, when the type of its operands is known. -/
theorem Worth.operate_eq {operation : OperationKind} {rValueExpr : Expr}
    {dataType : DataType} {opcode : Opcode} (lhs rhs : Worth)
    (typed : rValueExpr.dataType = .ok dataType)
    (chosen : opcodeOf dataType operation = some opcode) :
    lhs.operate arith operation rValueExpr rhs = (do
      if lhs.kind.constant && rhs.kind.constant then
        opcode.fold arith (← lhs.datum) (← rhs.datum)
      else
        opcode.compute arith (← lhs.datum) (← rhs.datum)) := by
  rw [Worth.operate, typed, compute_of_opcodeOf arith chosen,
    fold_of_opcodeOf arith chosen]
  rfl

section Advance

variable {before after : CodeGenVisitor} {evaluation : Evaluation}
variable {site : Site} {operations : List Operation}

/-- Where the machine goes on, the older registers are those of the machine before. -/
theorem kept_of_emits (emits : Emits before after operations) :
    ∀ next, after.machine arith = some next → ∃ known,
      before.machine arith = some known ∧
        ∀ address < before.context_.nextAddress,
          next.registers address = known.registers address := by
  intro next runs
  rw [emits.machine arith] at runs
  rcases Option.bind_eq_some_iff.mp runs with ⟨known, ran, proceeds⟩
  exact ⟨known, ran, fun address older =>
    proceed_placed_registers arith proceeds (.inl older)⟩

/-- A callback that stays in its function advances the evaluation. -/
theorem Simulates.advance (simulates : Simulates arith before evaluation)
    (emits : Emits before after operations)
    (inside : operations ≠ [] → before.block_ < before.module_.blocks.length)
    {value : Value}
    (stack : after.valueStack_ =
      site.onStack (fun _ _ => value) before.valueStack_)
    (pushed : site.callback.pushes = true →
      value.IsWorth arith after.context_.nextAddress (after.machine arith)
        (site.worth arith evaluation.env evaluation.worths))
    (goesOn : ∀ machine, before.machine arith = some machine →
      (machine.proceed arith (placed before.context_.nextAddress before.block_
        operations)).isSome = site.goesOn arith evaluation.worths)
    (environment : ∀ machine next, before.machine arith = some machine →
      machine.proceed arith (placed before.context_.nextAddress before.block_
        operations) = some next →
        Represents after.context_.nextAddress after.allocaScopeStack_ next
          (site.onEnvironment evaluation.worths evaluation.env)) :
    Simulates arith after (evaluation.advance arith site) where
  parents := by
    intro instruction member
    rw [emits.instructions, List.mem_append] at member
    rw [emits.blocks]
    rcases member with member | member
    · exact simulates.parents instruction member
    · rw [parent_of_mem_placed member]
      apply inside
      rintro rfl
      cases member
  values := by
    rw [stack]
    refine site.onStack_related ?_ pushed
    exact simulates.values.imp fun value worth isWorth =>
      isWorth.later arith emits.nextAddress_le (kept_of_emits arith emits)
  running := by
    rw [emits.machine arith, Evaluation.advance, simulates.running]
    cases ran : before.machine arith with
    | none => rfl
    | some machine =>
        rw [← goesOn machine ran]
        rfl
  environment := by
    intro next runs
    rw [emits.machine arith] at runs
    rcases Option.bind_eq_some_iff.mp runs with ⟨machine, ran, proceeds⟩
    exact environment machine next ran proceeds
  fresh := by
    intro next runs address newer
    rw [emits.machine arith] at runs
    rw [emits.nextAddress] at newer
    rcases Option.bind_eq_some_iff.mp runs with ⟨machine, ran, proceeds⟩
    rw [proceed_placed_registers arith proceeds (.inr newer)]
    exact simulates.fresh machine ran address (by omega)

/-- A callback that emits nothing and leaves the environment alone. -/
theorem Simulates.advance_silent (simulates : Simulates arith before evaluation)
    (emits : Emits before after [])
    (scopes : after.allocaScopeStack_ = before.allocaScopeStack_)
    (silent : site.goesOn arith evaluation.worths = true)
    (same : site.onEnvironment evaluation.worths evaluation.env =
      evaluation.env)
    {value : Value}
    (stack : after.valueStack_ =
      site.onStack (fun _ _ => value) before.valueStack_)
    (pushed : site.callback.pushes = true →
      value.IsWorth arith after.context_.nextAddress (after.machine arith)
        (site.worth arith evaluation.env evaluation.worths)) :
    Simulates arith after (evaluation.advance arith site) := by
  refine simulates.advance arith emits (fun some => absurd rfl some) stack pushed
    ?_ ?_
  · intro machine ran
    rw [silent]
    rfl
  · intro machine next ran proceeds
    cases proceeds
    rw [scopes, same]
    exact (simulates.environment machine ran).later emits.nextAddress_le rfl

end Advance

/-! ## The callbacks that emit something -/

theorem proceed_one (machine : Machine) (address block : Nat)
    (operation : Operation) :
    machine.proceed arith (placed address block [operation]) =
      machine.step arith ⟨address, block, operation⟩ := by
  rw [placed, placed, Machine.proceed]
  cases machine.step arith ⟨address, block, operation⟩ <;> rfl

/-- A store of a value of the cell's type writes what the value is worth. -/
theorem Machine.step_store (machine : Machine) (address block : Nat) (value : Value)
    {inst : AllocaInst} {old : Datum} (cell : machine.memory inst.address = some old) :
    machine.step arith ⟨address, block, .store value inst⟩ =
      if value.type = inst.allocatedType then
        (machine.read arith value).map (machine.setCell inst.address)
      else
        none := by
  simp only [Machine.step, cell]
  split
  · cases machine.read arith value <;> rfl
  · rfl

/-- An operation on operands of its type writes what it computes. -/
theorem Machine.step_binary (machine : Machine) (address block : Nat)
    (opcode : Opcode) (lhs rhs : Value) :
    machine.step arith ⟨address, block, .binary opcode lhs rhs⟩ =
      if lhs.type = opcode.operandType ∧ rhs.type = opcode.operandType then
        ((machine.read arith lhs).bind fun left =>
          (machine.read arith rhs).bind (opcode.compute arith left)).map
            (machine.setRegister address)
      else
        none := by
  simp only [Machine.step]
  split
  · cases machine.read arith lhs with
    | none => rfl
    | some left =>
        cases machine.read arith rhs with
        | none => rfl
        | some right =>
            simp only [Option.bind_eq_bind, Option.bind_some]
            cases opcode.compute arith left right <;> rfl
  · rfl

/-- An inserted instruction is worth what executing it leaves in its register. -/
theorem CodeGenVisitor.Emits.isWorth {before after : CodeGenVisitor}
    {operation : Operation} (emits : Emits before after [operation])
    {type : LlvmType} {worth : Worth} (kind : worth.kind = ⟨type, false⟩)
    (holds : ∀ machine next, before.machine arith = some machine →
      machine.proceed arith (placed before.context_.nextAddress before.block_
        [operation]) = some next →
        next.registers before.context_.nextAddress = worth.datum) :
    (Value.instruction before.context_.nextAddress type).IsWorth arith
      after.context_.nextAddress (after.machine arith) worth := by
  refine ⟨?_, kind, fun next runs => ?_⟩
  · rw [emits.nextAddress]
    exact Nat.lt_succ_self _
  · rw [emits.machine arith] at runs
    rcases Option.bind_eq_some_iff.mp runs with ⟨machine, ran, proceeds⟩
    exact holds machine next ran proceeds

/-- What the two operands of an operation are worth. -/
theorem Simulates.operands {before : CodeGenVisitor} {evaluation : Evaluation}
    (simulates : Simulates arith before evaluation) {lValue rValue : Value}
    {rest : List Value} (stack : before.valueStack_ = rValue :: lValue :: rest) :
    ∃ lWorth rWorth others, evaluation.worths = rWorth :: lWorth :: others ∧
      lValue.IsWorth arith before.context_.nextAddress (before.machine arith)
          lWorth ∧
        rValue.IsWorth arith before.context_.nextAddress (before.machine arith)
          rWorth := by
  have values := simulates.values
  rw [stack] at values
  rcases List.forall₂_cons_left_iff.mp values with
    ⟨rWorth, remaining, rIsWorth, values, worths⟩
  rcases List.forall₂_cons_left_iff.mp values with
    ⟨lWorth, others, lIsWorth, -, same⟩
  rw [same] at worths
  exact ⟨lWorth, rWorth, others, worths, lIsWorth, rIsWorth⟩

section Operands

variable {path : Path} {lValueExpr rValueExpr : Expr} {operation : OperationKind}
variable {lWorth rWorth : Worth} {others : List Worth}

/-- An operation on worths of which one is no constant makes none of them. -/
theorem Site.worth_of_operands {env : Environment}
    (varies : (lWorth.kind.constant && rWorth.kind.constant) = false) :
    Site.worth arith env ⟨path, .visitedBinary lValueExpr operation rValueExpr⟩
        (rWorth :: lWorth :: others) =
      ⟨⟨lWorth.kind.type, false⟩,
        lWorth.operate arith operation rValueExpr rWorth⟩ := by
  have kind : lWorth.kind.operate (operandType rValueExpr) rWorth.kind =
      ⟨lWorth.kind.type, false⟩ := by
    rw [Kind.operate, varies, if_neg Bool.false_ne_true]
  exact congrArg₂ Worth.mk kind rfl

/-- Evaluation goes on after an operation that is well typed and defined. -/
theorem Site.goesOn_of_operands
    (varies : (lWorth.kind.constant && rWorth.kind.constant) = false) :
    Site.goesOn arith ⟨path, .visitedBinary lValueExpr operation rValueExpr⟩
        (rWorth :: lWorth :: others) =
      (decide (Site.KindsFit
          ⟨path, .visitedBinary lValueExpr operation rValueExpr⟩
            ((rWorth :: lWorth :: others).map Worth.kind)) &&
        (lWorth.operate arith operation rValueExpr rWorth).isSome) := by
  simp [Site.goesOn, varies]

/-- Executing an operation writes what it is worth, if its operands fit. -/
theorem Value.IsWorth.proceed_operation {lValue rValue : Value}
    {nextAddress block : Nat} {machine : Machine} {dataType : DataType}
    {opcode : Opcode}
    (lIsWorth : lValue.IsWorth arith nextAddress (some machine) lWorth)
    (rIsWorth : rValue.IsWorth arith nextAddress (some machine) rWorth)
    (right : rValueExpr.dataType = .ok dataType)
    (chosen : opcodeOf dataType operation = some opcode)
    (varies : (lWorth.kind.constant && rWorth.kind.constant) = false)
    (others : List Worth) :
    machine.proceed arith
        (placed nextAddress block [.binary opcode lValue rValue]) =
      if Site.KindsFit ⟨path, .visitedBinary lValueExpr operation rValueExpr⟩
          ((rWorth :: lWorth :: others).map Worth.kind) then
        (lWorth.operate arith operation rValueExpr rWorth).map
          (machine.setRegister nextAddress)
      else
        none := by
  have fits : Site.KindsFit ⟨path, .visitedBinary lValueExpr operation rValueExpr⟩
      ((rWorth :: lWorth :: others).map Worth.kind) ↔
        lValue.type = opcode.operandType ∧ rValue.type = opcode.operandType := by
    simp [Site.KindsFit, Site.usedAt, lIsWorth.kind, rIsWorth.kind, Value.kind,
      operandType_of_opcodeOf right chosen, and_comm, eq_comm]
  have datum := lWorth.operate_eq arith rWorth right chosen
  rw [if_neg (by simp [varies])] at datum
  rw [proceed_one, Machine.step_binary, datum, ← lIsWorth.read, ← rIsWorth.read]
  simp only [fits]
  rfl

end Operands

section Emitting

variable {before after : CodeGenVisitor} {evaluation : Evaluation}
variable (simulates : Simulates arith before evaluation)
variable (inside : before.block_ < before.module_.blocks.length)

include simulates inside

/-- A variable is loaded from the cell its name stands for. -/
theorem Simulates.load {path : Path} {var : Variable} {inst : AllocaInst}
    (found : findAlloca var.name before.allocaScopeStack_ = some inst)
    (typed : inst.allocatedType = resolvedType path var.name) :
    Simulates arith
      { before.inserted (.load inst) with
        valueStack_ :=
          .instruction before.context_.nextAddress inst.allocatedType ::
            before.valueStack_ }
      (evaluation.advance arith ⟨path, .visitVariableRef var⟩) := by
  have emits := Performs.emits (.visitVariableRef found) id
  simp only [CodeGenVisitor.operations, found] at emits
  have loads : ∀ machine, before.machine arith = some machine →
      ∃ datum, evaluation.env.read var.name = some datum ∧
        machine.proceed arith (placed before.context_.nextAddress before.block_
          [.load inst]) =
            some (machine.setRegister before.context_.nextAddress datum) := by
    intro machine ran
    rcases read_of_findAlloca (simulates.environment machine ran).frames found with
      ⟨datum, holds, cell⟩
    refine ⟨datum, holds, ?_⟩
    rw [proceed_one]
    simp [Machine.step, cell]
  refine simulates.advance arith emits (fun _ => inside) rfl ?_ ?_ ?_
  · intro _
    refine emits.isWorth arith (congrArg (Kind.mk · false) typed.symm)
      fun machine next ran proceeds => ?_
    rcases loads machine ran with ⟨datum, holds, loaded⟩
    rw [loaded] at proceeds
    cases proceeds
    exact (Function.update_self ..).trans holds.symm
  · intro machine ran
    rcases loads machine ran with ⟨datum, -, loaded⟩
    rw [loaded]
    rfl
  · intro machine next ran proceeds
    rcases loads machine ran with ⟨datum, -, loaded⟩
    rw [loaded] at proceeds
    cases proceeds
    exact (simulates.environment machine ran).later (Nat.le_succ _) rfl

omit inside in
/-- What an assignment stores, if the value has the type of the variable. -/
theorem Simulates.assignment_eq {path : Path} {var : Variable} {inst : AllocaInst}
    {value : Value} {rest : List Value} (valueExpr : Expr)
    (typed : inst.allocatedType = resolvedType path var.name)
    (stack : before.valueStack_ = value :: rest) :
    ∃ worth,
      value.IsWorth arith before.context_.nextAddress (before.machine arith) worth ∧
        Site.assignment ⟨path, .visitedAssignVariable var valueExpr⟩
            evaluation.worths =
          if value.type = inst.allocatedType then
            worth.datum.map fun datum => (var.name, datum)
          else
            none := by
  have values := simulates.values
  rw [stack] at values
  rcases List.forall₂_cons_left_iff.mp values with
    ⟨worth, others, isWorth, -, worths⟩
  refine ⟨worth, isWorth, ?_⟩
  simp [Site.assignment, worths, Site.KindsFit, Site.usedAt, isWorth.kind,
    Value.kind, typed, eq_comm]

/-- An assignment stores into the cell its name stands for. -/
theorem Simulates.store {path : Path} {var : Variable} {inst : AllocaInst}
    {value : Value} {rest : List Value} (valueExpr : Expr)
    (found : findAlloca var.name before.allocaScopeStack_ = some inst)
    (typed : inst.allocatedType = resolvedType path var.name)
    (stack : before.valueStack_ = value :: rest) :
    Simulates arith
      { before.inserted (.store value inst) with
        valueStack_ :=
          .instruction before.context_.nextAddress .void :: rest }
      (evaluation.advance arith
        ⟨path, .visitedAssignVariable var valueExpr⟩) := by
  have emits := Performs.emits
    (.visitedAssignVariable valueExpr found stack) id
  simp only [CodeGenVisitor.operations, found, stack] at emits
  obtain ⟨worth, isWorth, assigns⟩ :=
    simulates.assignment_eq arith valueExpr typed stack
  have stores : ∀ machine, before.machine arith = some machine →
      machine.proceed arith (placed before.context_.nextAddress before.block_
          [.store value inst]) =
        (Site.assignment ⟨path, .visitedAssignVariable var valueExpr⟩
          evaluation.worths).map fun assignment =>
            machine.setCell inst.address assignment.2 := by
    intro machine ran
    rcases read_of_findAlloca (simulates.environment machine ran).frames found with
      ⟨old, -, cell⟩
    rw [ran] at isWorth
    rw [proceed_one, Machine.step_store arith machine _ _ value cell, assigns,
      isWorth.read]
    split
    · rw [Option.map_map]
      rfl
    · rfl
  have pushed : .instruction before.context_.nextAddress .void :: rest =
      Site.onStack (fun _ _ => .instruction before.context_.nextAddress .void)
        before.valueStack_ ⟨path, .visitedAssignVariable var valueExpr⟩ := by
    rw [stack]
    rfl
  refine simulates.advance arith emits (fun _ => inside) pushed ?_ ?_ ?_
  · intro _
    refine emits.isWorth arith rfl fun machine next ran proceeds => ?_
    rw [stores machine ran] at proceeds
    rcases Option.map_eq_some_iff.mp proceeds with ⟨assignment, -, rfl⟩
    exact simulates.fresh machine ran _ (Nat.le_refl _)
  · intro machine ran
    rw [stores machine ran, Option.isSome_map]
    rfl
  · intro machine next ran proceeds
    rw [stores machine ran] at proceeds
    rcases Option.map_eq_some_iff.mp proceeds with ⟨assignment, known, rfl⟩
    have named : assignment.1 = var.name := by
      rw [assigns] at known
      rcases Option.ite_none_right_eq_some.mp known with ⟨-, holds⟩
      rcases Option.map_eq_some_iff.mp holds with ⟨datum, -, rfl⟩
      rfl
    have represents := simulates.environment machine ran
    rcases assign_of_findAlloca represents.frames found assignment.2 with
      ⟨assigned, becomes⟩
    rcases assign_represented represents.frames represents.distinct becomes with
      ⟨other, otherFound, -, -, frames⟩
    rw [found] at otherFound
    cases otherFound
    have same : Site.onEnvironment
        ⟨path, .visitedAssignVariable var valueExpr⟩ evaluation.worths
          evaluation.env = assigned := by
      simp [Site.onEnvironment, known, named, becomes]
    rw [same]
    exact ⟨frames, represents.distinct, fun address member =>
      (represents.older address member).trans (Nat.lt_succ_self _)⟩

/-- A Return ends the execution. -/
theorem Simulates.ret {path : Path} {value : Value} {rest : List Value}
    (valueExpr : Expr) (stack : before.valueStack_ = value :: rest) :
    Simulates arith
      { before.inserted (.ret value) with valueStack_ := rest }
      (evaluation.advance arith ⟨path, .visitedReturn valueExpr⟩) := by
  have emits := Performs.emits (.visitedReturn valueExpr stack) id
  simp only [CodeGenVisitor.operations, stack] at emits
  have popped : rest =
      Site.onStack (fun _ _ => value) before.valueStack_
        ⟨path, .visitedReturn valueExpr⟩ := by
    rw [stack]
    rfl
  have ends : ∀ machine : Machine,
      machine.proceed arith (placed before.context_.nextAddress before.block_
        [.ret value]) = none := by
    intro machine
    rw [proceed_one]
    rfl
  refine simulates.advance arith emits (fun _ => inside) popped ?_ ?_ ?_
  · intro pushes
    cases pushes
  · intro machine ran
    rw [ends]
    rfl
  · intro machine next ran proceeds
    rw [ends] at proceeds
    cases proceeds

/-- An operation on values of which one is no constant is executed. -/
theorem Simulates.operation {path : Path} {lValueExpr rValueExpr : Expr}
    {operation : OperationKind} {dataType : DataType} {opcode : Opcode}
    {lValue rValue : Value} {rest : List Value}
    (left : lValueExpr.dataType = .ok dataType)
    (right : rValueExpr.dataType = .ok dataType)
    (chosen : opcodeOf dataType operation = some opcode)
    (stack : before.valueStack_ = rValue :: lValue :: rest)
    (mixed : (lValue.isConstant && rValue.isConstant) = false) :
    Simulates arith
      { (before.operated opcode lValue rValue).2 with
        valueStack_ := (before.operated opcode lValue rValue).1 :: rest }
      (evaluation.advance arith
        ⟨path, .visitedBinary lValueExpr operation rValueExpr⟩) := by
  have emits := Performs.emits
    (.visitedBinary left right chosen stack) id
  simp only [CodeGenVisitor.operations, stack, right, chosen,
    binaryOperations, mixed, Bool.false_eq_true, if_false] at emits
  have made : before.operated opcode lValue rValue =
      (.instruction before.context_.nextAddress lValue.type,
        before.inserted (.binary opcode lValue rValue)) := by
    cases lValue <;> cases rValue <;> first | rfl | cases mixed
  rw [made] at emits ⊢
  obtain ⟨lWorth, rWorth, others, worths, lIsWorth, rIsWorth⟩ :=
    simulates.operands arith stack
  have varies : (lWorth.kind.constant && rWorth.kind.constant) = false := by
    rw [lIsWorth.kind, rIsWorth.kind]
    exact mixed
  have computes : ∀ machine, before.machine arith = some machine →
      machine.proceed arith (placed before.context_.nextAddress before.block_
          [.binary opcode lValue rValue]) =
        if Site.KindsFit ⟨path, .visitedBinary lValueExpr operation rValueExpr⟩
            (evaluation.worths.map Worth.kind) then
          (lWorth.operate arith operation rValueExpr rWorth).map
            (machine.setRegister before.context_.nextAddress)
        else
          none := by
    intro machine ran
    rw [ran] at lIsWorth rIsWorth
    rw [worths]
    exact lIsWorth.proceed_operation arith rIsWorth right chosen varies others
  have pushed : .instruction before.context_.nextAddress lValue.type :: rest =
      Site.onStack
        (fun _ _ => .instruction before.context_.nextAddress lValue.type)
        before.valueStack_
        ⟨path, .visitedBinary lValueExpr operation rValueExpr⟩ := by
    rw [stack]
    rfl
  refine simulates.advance arith emits (fun _ => inside) pushed ?_ ?_ ?_
  · intro _
    rw [worths, Site.worth_of_operands arith varies, lIsWorth.kind]
    refine emits.isWorth arith rfl fun machine next ran proceeds => ?_
    rw [computes machine ran] at proceeds
    rcases Option.ite_none_right_eq_some.mp proceeds with ⟨-, runs⟩
    rcases Option.map_eq_some_iff.mp runs with ⟨result, known, rfl⟩
    exact (Function.update_self ..).trans known.symm
  · intro machine ran
    rw [computes machine ran, worths, Site.goesOn_of_operands arith varies]
    split
    next typed => rw [Option.isSome_map, decide_eq_true typed, Bool.true_and]
    next illTyped => rw [decide_eq_false illTyped, Bool.false_and]; rfl
  · intro machine next ran proceeds
    rw [computes machine ran] at proceeds
    rcases Option.ite_none_right_eq_some.mp proceeds with ⟨-, runs⟩
    rcases Option.map_eq_some_iff.mp runs with ⟨result, -, rfl⟩
    have represents := (simulates.environment machine ran).later
      (Nat.le_succ _)
      (show (machine.setRegister before.context_.nextAddress result).memory =
        machine.memory from rfl)
    have same : Site.onEnvironment
        ⟨path, .visitedBinary lValueExpr operation rValueExpr⟩
          evaluation.worths evaluation.env = evaluation.env := by
      rw [worths]
      rfl
    rw [same]
    exact represents

omit inside in
/-- An operation on constants is folded, and is worth what the constant is. -/
theorem Simulates.fold {path : Path} {lValueExpr rValueExpr : Expr}
    {operation : OperationKind} {dataType : DataType} {opcode : Opcode}
    {lKnown rKnown : Constant} {rest : List Value}
    (right : rValueExpr.dataType = .ok dataType)
    (chosen : opcodeOf dataType operation = some opcode)
    (stack : before.valueStack_ = .constant rKnown :: .constant lKnown :: rest) :
    Simulates arith
      { before with
        valueStack_ := .constant (.binary opcode lKnown rKnown) :: rest }
      (evaluation.advance arith
        ⟨path, .visitedBinary lValueExpr operation rValueExpr⟩) := by
  obtain ⟨lWorth, rWorth, others, worths, lIsWorth, rIsWorth⟩ :=
    simulates.operands arith stack
  have rSame : rWorth = ⟨⟨rKnown.type, true⟩, rKnown.compute arith⟩ := rIsWorth
  have lSame : lWorth = ⟨⟨lKnown.type, true⟩, lKnown.compute arith⟩ := lIsWorth
  have datum := lWorth.operate_eq arith rWorth right chosen
  rw [if_pos (by rw [lSame, rSame]; rfl)] at datum
  have pushed : .constant (.binary opcode lKnown rKnown) :: rest =
      Site.onStack (fun _ _ => .constant (.binary opcode lKnown rKnown))
        before.valueStack_
        ⟨path, .visitedBinary lValueExpr operation rValueExpr⟩ := by
    rw [stack]
    rfl
  have kind : Kind.operate (operandType rValueExpr) ⟨lKnown.type, true⟩
      ⟨rKnown.type, true⟩ = ⟨(Constant.binary opcode lKnown rKnown).type, true⟩ := by
    rw [operandType_of_opcodeOf right chosen]
    rfl
  have emits : Emits before { before with
      valueStack_ := .constant (.binary opcode lKnown rKnown) :: rest } [] :=
    .nothing rfl rfl rfl rfl
  refine simulates.advance_silent arith emits rfl ?_ ?_ pushed ?_
  · rw [worths, lSame, rSame]
    rfl
  · rw [worths]
    rfl
  · intro _
    rw [worths]
    refine congrArg₂ Worth.mk ?_ ?_
    · rw [lSame, rSame]
      exact kind
    · rw [lSame, rSame] at datum
      rw [lSame, rSame]
      exact datum

/-- A Block makes a cell for each of its variables. -/
theorem Simulates.allocate {path : Path} {scope : Scope}
    (expressions : List Expr)
    (faultless : declarationFault scope.variables [] = none) :
    Simulates arith
      (before.declared scope.variables [] before.allocaScopeStack_)
      (evaluation.advance arith ⟨path, .visitingBlock scope expressions⟩) := by
  have performs : Performs before (.visitingBlock scope expressions)
      (before.declared scope.variables [] before.allocaScopeStack_) :=
    .visitingBlock expressions faultless
  have unchanged : before.valueStack_ =
      Site.onStack (fun _ _ => .constant (.int 0)) before.valueStack_
        ⟨path, .visitingBlock scope expressions⟩ := rfl
  refine simulates.advance arith (performs.emits id) (fun _ => inside) unchanged
    ?_ ?_ ?_
  · intro pushes
    cases pushes
  · intro machine ran
    rcases (simulates.environment machine ran).enter arith scope
        before.block_ with ⟨after, proceeds, -⟩
    have proceeds : machine.proceed arith (placed before.context_.nextAddress
        before.block_ (before.operations (.visitingBlock scope expressions))) =
          some after := proceeds
    rw [proceeds]
    rfl
  · intro machine next ran proceeds
    rcases (simulates.environment machine ran).enter arith scope
        before.block_ with ⟨after, allocates, represents⟩
    have same : machine.proceed arith (placed before.context_.nextAddress
        before.block_ (before.operations (.visitingBlock scope expressions))) =
          some after := allocates
    rw [same] at proceeds
    cases proceeds
    exact represents

end Emitting

/-! ## Whole walks -/

/-- An expression is walked inside a block. -/
theorem Module.Reaches.block_lt {owner : Module} {past : List Site} {site : Site}
    {visitor : CodeGenVisitor} (reached : owner.Reaches past site visitor)
    (inner : ¬ site.callback.Outer) (present : site.callback ≠ .nullArgument) :
    visitor.block_ < visitor.module_.blocks.length := by
  rcases reached.inFunction inner present with ⟨func, -, typed⟩
  rw [CodeGenVisitor.InFunction, LlvmModule.returnTypeOf] at typed
  rcases Option.bind_eq_some_iff.mp typed with ⟨block, found, -⟩
  exact (List.getElem?_eq_some_iff.mp found).1

/-- No Block is open where a function or a module is entered. -/
theorem Module.openBlocks_of_moves {owner : Module} {site : Site}
    (member : site ∈ owner.sites) (moves : site.callback.Moves) :
    site.openBlocks = [] := by
  rcases site with ⟨path, callback⟩
  have outside : enclosingBlocks path = [] := by
    rcases Module.mem_sites member with
      ⟨outermost, -⟩ | ⟨child, -, same⟩ | ⟨child, func, -, ⟨here, -⟩ | inBody⟩
    · simp only at outermost
      rw [outermost]
      rfl
    · cases same
      exact moves.elim
    · simp only at here
      rw [here]
      rfl
    · exact absurd moves (Expr.stays_of_mem_sites inBody)
  cases callback <;> first | exact outside | exact moves.elim

section Run

variable {owner : Module} {past : List Site} {site : Site}
variable {before after : CodeGenVisitor} {evaluation : Evaluation}

/-- Every callback inside a function is followed by the evaluation. -/
theorem Simulates.step (reached : owner.Reaches past site before)
    (performs : Performs before site.callback after)
    (stays : ¬ site.callback.Moves)
    (simulates : Simulates arith before evaluation) :
    Simulates arith after (evaluation.advance arith site) := by
  have emits := performs.emits stays
  rcases performs.valueStack reached.ancestryStack with ⟨value, stack⟩
  rcases reached.framed with ⟨frames, framed⟩
  rcases site with ⟨path, callback⟩
  have inside : ¬ callback.Outer → callback ≠ .nullArgument →
      before.block_ < before.module_.blocks.length := reached.block_lt
  cases performs with
  | visitingNode node =>
      exact simulates.advance_silent arith emits rfl rfl rfl stack nofun
  | visitedNode node inside =>
      exact simulates.advance_silent arith emits rfl rfl rfl stack nofun
  | visitedOutermost node outermost =>
      exact simulates.advance_silent arith emits rfl rfl rfl stack nofun
  | visitingBlock expressions faultless =>
      exact simulates.allocate arith (inside id nofun) expressions faultless
  | visitedBlock scope expressions scopes =>
      refine simulates.advance arith emits (fun some => absurd rfl some) stack
        nofun (fun _ _ => rfl) ?_
      intro machine next ran proceeds
      cases proceeds
      have represents := simulates.environment machine ran
      rw [scopes] at represents
      exact represents.leave
  | visitedAssignVariable valueExpr found values =>
      exact simulates.store arith (inside id nofun) valueExpr found
        (framed.allocatedType found) values
  | visitedBinary left right chosen values =>
      rename_i lValueExpr rValueExpr operation dataType opcode lValue rValue rest
      cases mixed : lValue.isConstant && rValue.isConstant with
      | false =>
          exact simulates.operation arith (inside id nofun) left right chosen
            values mixed
      | true =>
          cases lValue with
          | instruction address type => cases mixed
          | constant lKnown =>
              cases rValue with
              | instruction address type => cases mixed
              | constant rKnown =>
                  exact simulates.fold arith right chosen values
  | visitLiteralInt32 visitor known =>
      cases stack
      exact simulates.advance_silent arith emits rfl rfl rfl rfl fun _ => rfl
  | visitLiteralFloat visitor known =>
      cases stack
      exact simulates.advance_silent arith emits rfl rfl rfl rfl fun _ => rfl
  | visitVariableRef found =>
      exact simulates.load arith (inside id nofun) found
        (framed.allocatedType found)
  | visitedReturn valueExpr values =>
      exact simulates.ret arith (inside id nofun) valueExpr values
  | visitingFunction mapped inserts => exact absurd trivial stays
  | visitingModule visitor owner => exact absurd trivial stays
  | silent visitor notOverridden =>
      cases callback <;>
        first
          | exact notOverridden.elim
          | exact simulates.advance_silent arith emits rfl rfl rfl stack nofun

/-- Entering a function or the module starts the evaluation anew. -/
theorem Simulates.enter (reached : owner.Reaches past site before)
    (performs : Performs before site.callback after)
    (moves : site.callback.Moves)
    (simulates : Simulates arith before evaluation) :
    Simulates arith after evaluation.enter := by
  rcases reached.occurs with ⟨future, split⟩
  have member : site ∈ owner.sites := by simp [split]
  have scopes : before.allocaScopeStack_ = [] := by
    rcases reached.framed with ⟨frames, framed⟩
    have none := framed.blocks_eq
    rw [Module.openBlocks_of_moves member moves] at none
    rw [framed.scopes_eq, List.map_eq_nil_iff.mp none.symm]
    rfl
  -- what matters of the new state: an empty block, and the stacks of the old one
  have opened : ∀ later : CodeGenVisitor,
      (∀ instruction ∈ later.module_.instructions,
        instruction.parent < later.module_.blocks.length) →
        later.module_.blockCode later.block_ = [] →
          later.context_ = before.context_ →
            later.valueStack_ = before.valueStack_ →
              later.allocaScopeStack_ = before.allocaScopeStack_ →
                Simulates arith later evaluation.enter := by
    intro later parents empty context values sameScopes
    have runs : later.machine arith = some {} := by
      rw [CodeGenVisitor.machine, empty]
      rfl
    constructor
    · exact parents
    · rw [runs, context, values]
      exact List.forall₂_map_right_iff.mpr
        (simulates.values.imp fun value worth isWorth => isWorth.elsewhere arith)
    · rw [runs]
      rfl
    · intro machine same
      rw [sameScopes, scopes]
      exact ⟨.nil, List.nodup_nil, by simp [cells]⟩
    · intro machine same address newer
      rw [runs] at same
      cases same
      rfl
  rcases site with ⟨path, callback⟩
  rcases performs.of_moves moves with ⟨func, rfl⟩ | ⟨entered, rfl, rfl⟩
  · rcases performs.of_visitingFunction with
      ⟨returnType, next, index, -, inserts, rfl⟩
    rcases LlvmModule.getOrInsertFunction_entry inserts with
      ⟨blocks, instructions, -, -⟩
    have older := simulates.parents
    rw [← blocks, ← instructions] at older
    refine opened _ ?_ ?_ rfl rfl rfl
    · intro instruction inside
      refine (older instruction inside).trans_le ?_
      simp [CodeGenVisitor.entered]
    · apply filter_parent_eq_nil
      intro instruction inside
      exact (older instruction inside).ne
  · refine opened _ ?_ rfl rfl rfl rfl
    intro instruction inside
    cases inside

/-- Wherever a walk gets to, the evaluation follows it. -/
theorem Module.simulates_of_run {past future : List Site}
    {visitor : CodeGenVisitor} (split : owner.sites = past ++ future)
    (reaches : run codeGen.performAt past {} = .ok () visitor) :
    Simulates arith visitor (Evaluation.after arith past) := by
  refine owner.reached_induction (motive := fun past visitor =>
    Simulates arith visitor (Evaluation.after arith past)) ?_ ?_ split reaches
  · refine ⟨nofun, .nil, rfl, ?_, ?_⟩
    · intro machine runs
      exact ⟨.nil, List.nodup_nil, by simp [cells]⟩
    · intro machine runs address newer
      cases runs
      rfl
  intro past site before after reached performs simulates
  rw [Evaluation.after_append_singleton]
  by_cases moves : site.callback.Moves
  · rw [Evaluation.step_of_moves arith _ moves]
    exact Simulates.enter arith reached performs moves simulates
  · rw [Evaluation.step_of_stays arith _ moves]
    exact Simulates.step arith reached performs moves simulates

end Run

end Execute

end Llast
