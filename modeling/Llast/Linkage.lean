import Llast.Emission

/-!
# From functions to LLVM functions

`visitingFunction` asks the module for a function of the given name and appends a
block to whatever it gets.  The blocks of a module are therefore those of its
functions, one for each in order, and each block holds the code of one body.  Which
LLVM function a block belongs to depends on the name alone, so two functions of one
name share one LLVM function.
-/

namespace Llast

open Llast.EventRun
open Llast.CodeGenVisitor

/-! ## The walk of one function -/

/-- Callbacks that stay in their block append instructions to it. -/
theorem emits_of_run {sites : List Site} {start final : CodeGenVisitor}
    (stays : ∀ site ∈ sites, ¬ site.callback.Moves)
    (completes : run codeGen.performAt sites start = .ok () final) :
    ∃ operations, Emits start final operations := by
  induction sites generalizing start with
  | nil =>
      cases completes
      exact ⟨[], .refl _⟩
  | cons site rest ih =>
      rcases (run_cons_eq_ok_iff _).mp completes with ⟨next, reacts, remaining⟩
      have first := (perform_eq_ok_iff.mp reacts).emits
        (stays site List.mem_cons_self)
      obtain ⟨operations, later⟩ :=
        ih (fun site member => stays site (List.mem_cons_of_mem _ member))
          remaining
      exact ⟨_, first.trans later⟩

theorem Expr.stays_of_mem_sites {expr : Expr} {path : Path} {site : Site}
    (member : site ∈ expr.sites path) : ¬ site.callback.Moves :=
  Callback.not_moves_of_not_outer (Expr.not_outer_of_mem_sites member)

/-- The callbacks of a function after those that enter it. -/
def Function.remainingSites (func : Function) (path : Path) : List Site :=
  func.body.sites (⟨.function func, 0⟩ :: path) ++
    [⟨path, .visitedFunction func⟩, ⟨path, .visitedNode (.function func)⟩]

theorem Function.stays_of_mem_remainingSites {func : Function} {path : Path}
    {site : Site} (member : site ∈ func.remainingSites path) :
    ¬ site.callback.Moves := by
  rcases List.mem_append.mp member with inBody | closing
  · exact Expr.stays_of_mem_sites inBody
  · simp only [List.mem_cons, List.not_mem_nil, or_false] at closing
    rcases closing with rfl | rfl <;> exact id

/-- The visitor once a function was opened and its block created. -/
def CodeGenVisitor.opened (visitor : CodeGenVisitor) (func : Function)
    (owner : LlvmModule) (index : Nat) : CodeGenVisitor :=
  { visitor.entered owner index with
    ancestryStack_ := .function func :: visitor.ancestryStack_ }

/-- The walk of a function enters it and goes on in its block. -/
theorem run_function_eq_ok_iff {func : Function} {path : Path}
    {start final : CodeGenVisitor} :
    run codeGen.performAt (func.sites path) start = .ok () final ↔
      ∃ returnType owner index,
        getType func.returnType = .ok returnType ∧
          start.module_.getOrInsertFunction func.name returnType =
            (owner, .function index) ∧
            run codeGen.performAt (func.remainingSites path)
              (start.opened func owner index) = .ok () final := by
  have parts : func.sites path =
      ⟨path, .visitingNode (.function func)⟩ ::
        ⟨path, .visitingFunction func⟩ :: func.remainingSites path := by
    simp [Function.sites, bracket, Function.remainingSites]
  rw [parts]
  constructor
  · intro completes
    rcases (run_cons_eq_ok_iff _).mp completes with ⟨named, names, walked⟩
    cases names
    rcases (run_cons_eq_ok_iff _).mp walked with ⟨inside, enters, remaining⟩
    rcases (perform_eq_ok_iff.mp enters).of_visitingFunction with
      ⟨returnType, owner, index, mapped, inserts, rfl⟩
    exact ⟨returnType, owner, index, mapped, inserts, remaining⟩
  · rintro ⟨returnType, owner, index, mapped, inserts, remaining⟩
    refine (run_cons_eq_ok_iff _).mpr ⟨_, rfl, ?_⟩
    have enters : Performs
        { start with
          ancestryStack_ := .function func :: start.ancestryStack_ }
        (.visitingFunction func) (start.opened func owner index) :=
      .visitingFunction mapped inserts
    exact (run_cons_eq_ok_iff _).mpr
      ⟨_, perform_eq_ok_iff.mpr enters, remaining⟩

/-- The walk of a function emits into the block it has created. -/
theorem entered_of_run {func : Function} {path : Path}
    {start final : CodeGenVisitor}
    (completes : run codeGen.performAt (func.sites path) start =
      .ok () final) :
    ∃ returnType owner index operations,
      getType func.returnType = .ok returnType ∧
        start.module_.getOrInsertFunction func.name returnType =
          (owner, .function index) ∧
          Emits (start.entered owner index) final operations := by
  rcases run_function_eq_ok_iff.mp completes with
    ⟨returnType, owner, index, mapped, inserts, remaining⟩
  obtain ⟨operations, emits⟩ := emits_of_run
    (fun _ member => Function.stays_of_mem_remainingSites member) remaining
  exact ⟨returnType, owner, index, operations, mapped, inserts,
    ⟨emits.name, emits.functions, emits.blocks, emits.instructions,
      emits.nextAddress, emits.function, emits.block⟩⟩

/-! ## The walk of a list of functions -/

/-- Each function has its block, which belongs to the function of its name. -/
def Placed (entered : List Function) (owner : LlvmModule) : Prop :=
  List.Forall₂
    (fun func block =>
      block.name = "functionBody" ∧
        (func.name ≠ "" →
          owner.getFunction func.name = some block.parent) ∧
          owner.functions[block.parent]? =
            some ⟨func.name, llvmType func.returnType, []⟩)
    entered owner.blocks

theorem Placed.enter {entered : List Function} {func : Function}
    {start final : CodeGenVisitor} {returnType : LlvmType}
    {owner : LlvmModule} {index : Nat} {operations : List Operation}
    (placed : Placed entered start.module_)
    (mapped : getType func.returnType = .ok returnType)
    (inserts :
      start.module_.getOrInsertFunction func.name returnType =
        (owner, .function index))
    (emits : Emits (start.entered owner index) final operations) :
    Placed (entered ++ [func]) final.module_ := by
  rcases LlvmModule.getOrInsertFunction_entry inserts with
    ⟨blocks, -, ⟨functions, appended⟩, entry⟩
  have functionsEq : final.module_.functions = owner.functions :=
    emits.functions
  have blocksEq : final.module_.blocks =
      start.module_.blocks ++ [⟨"functionBody", index⟩] := by
    rw [emits.blocks, ← blocks]
    rfl
  have grown : final.module_.functions =
      start.module_.functions ++ functions := functionsEq.trans appended
  rw [Placed, blocksEq]
  refine List.rel_append ?_ (.cons ⟨rfl, ?_, ?_⟩ .nil)
  · apply placed.imp
    intro other block holds
    refine ⟨holds.1, fun present =>
      LlvmModule.getFunction_append grown (holds.2.1 present), ?_⟩
    rw [grown, List.getElem?_append_left
      (List.getElem?_eq_some_iff.mp holds.2.2).1]
    exact holds.2.2
  · intro present
    have known :=
      LlvmModule.getFunction_of_getOrInsertFunction present inserts
    rw [LlvmModule.getFunction] at known ⊢
    rw [functionsEq]
    exact known
  · rw [functionsEq, entry, llvmType_of_getType mapped]

/-- In every reachable state the blocks are those of the functions entered so far. -/
theorem Module.placed_of_run {owner : Module} {past future : List Site}
    {visitor : CodeGenVisitor} (split : owner.sites = past ++ future)
    (reaches : run codeGen.performAt past {} = .ok () visitor) :
    Placed (enteredFunctions past) visitor.module_ := by
  refine owner.reached_induction (motive := fun past visitor =>
    Placed (enteredFunctions past) visitor.module_) .nil ?_ split reaches
  intro past site before after reached performs placed
  rw [enteredFunctions, List.foldl_append, ← enteredFunctions, List.foldl_cons,
    List.foldl_nil]
  rcases site with ⟨path, callback⟩
  by_cases moves : callback.Moves
  · rcases performs.of_moves moves with ⟨func, rfl⟩ | ⟨other, rfl, rfl⟩
    · rcases performs.of_visitingFunction with
        ⟨returnType, llvmOwner, index, mapped, inserts, rfl⟩
      exact placed.enter mapped inserts (.refl _)
    · exact .nil
  · have emits := performs.emits moves
    have same : enterFunction (enteredFunctions past) ⟨path, callback⟩ =
        enteredFunctions past := by
      cases callback <;> first | rfl | exact absurd trivial moves
    rw [same, Placed, emits.blocks]
    apply placed.imp
    intro func block holds
    rw [LlvmModule.getFunction, emits.functions]
    exact holds

/-- What the walk of some functions adds to the module. -/
structure Added (functions : List Function) (start final : CodeGenVisitor) :
    Prop where
  placed : ∀ entered, Placed entered start.module_ →
    Placed (entered ++ functions) final.module_
  blocks : final.module_.blocks.length =
    start.module_.blocks.length + functions.length
  code : ∃ code,
    final.module_.instructions = start.module_.instructions ++ code ∧
      ∀ instruction ∈ code,
        start.module_.blocks.length ≤ instruction.parent ∧
          instruction.parent < final.module_.blocks.length

theorem Added.trans {first second : List Function}
    {start middle final : CodeGenVisitor} (one : Added first start middle)
    (two : Added second middle final) :
    Added (first ++ second) start final := by
  rcases one.code with ⟨code, codeEq, codeIn⟩
  rcases two.code with ⟨more, moreEq, moreIn⟩
  have blocks := one.blocks
  have later := two.blocks
  constructor
  · intro entered placed
    rw [← List.append_assoc]
    exact two.placed _ (one.placed entered placed)
  · rw [List.length_append]
    omega
  · refine ⟨code ++ more, ?_, ?_⟩
    · rw [moreEq, codeEq, List.append_assoc]
    · intro instruction member
      rcases List.mem_append.mp member with member | member
      · have bounds := codeIn instruction member
        omega
      · have bounds := moreIn instruction member
        omega

theorem added_of_function {func : Function} {path : Path}
    {start final : CodeGenVisitor}
    (completes : run codeGen.performAt (func.sites path) start =
      .ok () final) :
    Added [func] start final := by
  rcases entered_of_run completes with
    ⟨returnType, owner, index, operations, mapped, inserts, emits⟩
  rcases LlvmModule.getOrInsertFunction_entry inserts with
    ⟨blocks, instructions, -, -⟩
  have length : final.module_.blocks.length =
      start.module_.blocks.length + 1 := by
    rw [emits.blocks, ← blocks]
    exact List.length_append
  constructor
  · exact fun entered placed => placed.enter mapped inserts emits
  · exact length
  · have code : final.module_.instructions = start.module_.instructions ++
        placed start.context_.nextAddress owner.blocks.length operations := by
      rw [← instructions]
      exact emits.instructions
    refine ⟨_, code, ?_⟩
    intro instruction member
    rw [parent_of_mem_placed member, length, ← blocks]
    exact ⟨Nat.le_refl _, Nat.lt_succ_self _⟩

/-- A walk of functions that completes has walked every one of them. -/
theorem added_of_run {owner : Module} {entries : List (Option Function)}
    {child : Nat} {start final : CodeGenVisitor}
    (completes : run codeGen.performAt (functionSites owner entries child)
      start = .ok () final) :
    ∃ functions : List Function, entries = functions.map some ∧
      Added functions start final := by
  induction entries generalizing child start with
  | nil =>
      cases completes
      refine ⟨[], rfl, ?_, rfl, [], (List.append_nil _).symm, by simp⟩
      intro entered placed
      rw [List.append_nil]
      exact placed
  | cons entry rest ih =>
      cases entry with
      | none =>
          rcases (run_cons_eq_ok_iff _).mp completes with ⟨next, throws, -⟩
          cases throws
      | some func =>
          rcases (run_append_eq_ok_iff _).mp completes with
            ⟨middle, first, remaining⟩
          rcases ih remaining with ⟨functions, rfl, later⟩
          exact ⟨func :: functions, rfl,
            (added_of_function first).trans later⟩

/-! ## The walk of a module -/

/-- The state in which the first function of a module is entered. -/
def Module.entryState (owner : Module) : CodeGenVisitor where
  module_ := { name := owner.name }
  ancestryStack_ := [.module owner]

theorem Module.run_sitesBefore (owner : Module) (child : Nat) :
    run codeGen.performAt (owner.sitesBefore child) {} =
      run codeGen.performAt
        (functionSites owner (owner.functions.take child) 0)
        owner.entryState :=
  rfl

/-- The closing callbacks of a module leave the LLVM module as it is. -/
theorem module_of_closingSites {owner : Module} {middle final : CodeGenVisitor}
    (completes : run codeGen.performAt owner.closingSites middle =
      .ok () final) :
    final.module_ = middle.module_ := by
  rcases (run_cons_eq_ok_iff _).mp completes with ⟨left, leaves, remaining⟩
  cases leaves
  rw [run_singleton] at remaining
  exact (perform_eq_ok_iff.mp remaining).module_of_visitedNode

/-- A module whose walk completes has no missing functions. -/
theorem Module.added_of_walk {owner : Module} {final : CodeGenVisitor}
    (completes : walkTree codeGen owner {} = .ok () final) :
    owner.functions = owner.functions.reduceOption.map some ∧
      ∃ middle, Added owner.functions.reduceOption owner.entryState middle ∧
        final.module_ = middle.module_ := by
  rw [walkTree_eq_run, owner.sites_eq, run_append_eq_ok_iff] at completes
  rcases completes with ⟨middle, walked, closes⟩
  rw [Module.run_sitesBefore, List.take_length] at walked
  rcases added_of_run walked with ⟨functions, entries, added⟩
  have same : owner.functions.reduceOption = functions := by
    rw [entries]
    simp [List.reduceOption]
  rw [same]
  exact ⟨entries, middle, added, module_of_closingSites closes⟩

/-! ## Every function has its own code -/

/-- The callbacks that enter a function of a module. -/
def Module.enteringSites (owner : Module) (child : Nat) (func : Function) :
    List Site :=
  [⟨[⟨.module owner, child⟩], .visitingNode (.function func)⟩,
    ⟨[⟨.module owner, child⟩], .visitingFunction func⟩]

/-- The walk of the body of a function emits this code. -/
def Module.BodyCode (owner : Module) (child : Nat) (func : Function)
    (code : List Instruction) : Prop :=
  ∃ entered left : CodeGenVisitor,
    run codeGen.performAt
        (owner.sitesBefore child ++ owner.enteringSites child func) {} =
      .ok () entered ∧
      walk codeGen func.body entered = .ok () left ∧
        left.module_.instructions = entered.module_.instructions ++ code

/--
The symbol of the function's name is an LLVM function with one block, which holds
the code of the function's body.
-/
structure Module.OwnFunction (owner : Module) (final : LlvmModule)
    (child : Nat) (func : Function) : Prop where
  symbol : ∃ index, final.getFunction func.name = some index ∧
    final.functions[index]? =
        some ⟨func.name, llvmType func.returnType, []⟩ ∧
      final.functionBlocks index = [child]
  code : owner.BodyCode child func (final.blockCode child)

/-- The walk of a function consists of its entry, its body and its end. -/
theorem body_of_run {owner : Module} {child : Nat} {func : Function}
    {start final : CodeGenVisitor}
    (completes :
      run codeGen.performAt (func.sites [⟨.module owner, child⟩]) start =
        .ok () final) :
    ∃ entered left,
      run codeGen.performAt (owner.enteringSites child func) start =
        .ok () entered ∧
        walk codeGen func.body entered = .ok () left ∧
          entered.module_.instructions = start.module_.instructions ∧
            left.module_ = final.module_ := by
  have parts : func.sites [⟨.module owner, child⟩] =
      owner.enteringSites child func ++
        (func.body.sites (owner.bodyPath func child) ++
          [⟨[⟨.module owner, child⟩], .visitedFunction func⟩,
            ⟨[⟨.module owner, child⟩], .visitedNode (.function func)⟩]) := by
    simp [Function.sites, bracket, Module.enteringSites, Module.bodyPath]
  rw [parts, run_append_eq_ok_iff] at completes
  rcases completes with ⟨entered, enters, completes⟩
  rcases (run_append_eq_ok_iff _).mp completes with ⟨left, walked, leaves⟩
  rw [← walk_eq_run] at walked
  refine ⟨entered, left, enters, walked, ?_, ?_⟩
  · rcases (run_cons_eq_ok_iff _).mp enters with ⟨opened, opens, entering⟩
    cases opens
    rw [run_singleton] at entering
    rcases (perform_eq_ok_iff.mp entering).of_visitingFunction with
      ⟨returnType, owner, index, -, inserts, rfl⟩
    exact (LlvmModule.getOrInsertFunction_entry inserts).2.1
  · rcases (run_cons_eq_ok_iff _).mp leaves with ⟨ended, ends, leaving⟩
    cases ends
    rw [run_singleton] at leaving
    exact (perform_eq_ok_iff.mp leaving).module_of_visitedNode.symm

/-- The functions before an entry have filled the blocks before. -/
theorem Module.before_of_run {owner : Module} {child : Nat}
    {start : CodeGenVisitor} (inside : child ≤ owner.functions.length)
    (before : run codeGen.performAt (owner.sitesBefore child) {} =
      .ok () start) :
    start.module_.blocks.length = child ∧
      ∀ instruction ∈ start.module_.instructions,
        instruction.parent < child := by
  rw [Module.run_sitesBefore] at before
  rcases added_of_run before with ⟨earlier, entries, added⟩
  have number : start.module_.blocks.length = child := by
    have length := congrArg List.length entries
    rw [List.length_take, List.length_map] at length
    have blocks := added.blocks
    have none : owner.entryState.module_.blocks.length = 0 := rfl
    omega
  rcases added.code with ⟨code, codeEq, codeIn⟩
  refine ⟨number, fun instruction member => ?_⟩
  rw [codeEq] at member
  rw [← number]
  exact (codeIn instruction member).2

/-- A function fills a block of its own. -/
theorem code_of_run {func : Function} {path : Path}
    {start finish : CodeGenVisitor}
    (during : run codeGen.performAt (func.sites path) start =
      .ok () finish) :
    finish.module_.blocks.length = start.module_.blocks.length + 1 ∧
      ∃ operations,
        finish.module_.instructions = start.module_.instructions ++
          placed start.context_.nextAddress start.module_.blocks.length
            operations := by
  rcases entered_of_run during with
    ⟨returnType, owner, index, operations, mapped, inserts, emits⟩
  rcases LlvmModule.getOrInsertFunction_entry inserts with
    ⟨blocks, instructions, -, -⟩
  refine ⟨(added_of_function during).blocks, operations, ?_⟩
  rw [← instructions, ← blocks]
  exact emits.instructions

/-- The functions after an entry fill the blocks after. -/
theorem Module.after_of_run {owner : Module} {child : Nat}
    {finish final : CodeGenVisitor}
    (after : run codeGen.performAt (owner.sitesAfter child) finish =
      .ok () final) :
    ∃ code,
      final.module_.instructions = finish.module_.instructions ++ code ∧
        ∀ instruction ∈ code,
          finish.module_.blocks.length ≤ instruction.parent := by
  rcases (run_append_eq_ok_iff _).mp after with ⟨middle, walked, closes⟩
  rcases added_of_run walked with ⟨later, -, added⟩
  rcases added.code with ⟨code, codeEq, codeIn⟩
  refine ⟨code, ?_, fun instruction member => (codeIn instruction member).1⟩
  rw [module_of_closingSites closes, codeEq]

/-- Nothing of what other functions add lies in a block. -/
theorem filter_parent_eq_nil {code : List Instruction} {block : Nat}
    (elsewhere : ∀ instruction ∈ code, instruction.parent ≠ block) :
    code.filter (fun instruction => instruction.parent = block) = [] := by
  rw [List.filter_eq_nil_iff]
  intro instruction member
  simpa using elsewhere instruction member

theorem filter_parent_placed (address block : Nat)
    (operations : List Operation) :
    (placed address block operations).filter
        (fun instruction => instruction.parent = block) =
      placed address block operations := by
  rw [List.filter_eq_self]
  intro instruction member
  simpa using parent_of_mem_placed member

/-- The walk of a module, seen from one of its functions. -/
theorem Module.walk_around {owner : Module} {final : CodeGenVisitor}
    (completes : walkTree codeGen owner {} = .ok () final) {child : Nat}
    {func : Function} (place : owner.functions[child]? = some (some func)) :
    ∃ start finish,
      run codeGen.performAt (owner.sitesBefore child) {} = .ok () start ∧
        run codeGen.performAt (func.sites [⟨.module owner, child⟩]) start =
          .ok () finish ∧
          run codeGen.performAt (owner.sitesAfter child) finish =
            .ok () final := by
  rw [walkTree_eq_run, Module.sites_split place, List.append_assoc,
    run_append_eq_ok_iff] at completes
  rcases completes with ⟨start, before, completes⟩
  rcases (run_append_eq_ok_iff _).mp completes with ⟨finish, during, after⟩
  exact ⟨start, finish, before, during, after⟩

/-- What a function adds is the code of its block. -/
theorem Module.blockCode_of_function {owner : Module} {child : Nat}
    {start : CodeGenVisitor} (inside : child ≤ owner.functions.length)
    (before : run codeGen.performAt (owner.sitesBefore child) {} =
      .ok () start) {finish : LlvmModule} {address : Nat}
    {operations : List Operation}
    (code : finish.instructions =
      start.module_.instructions ++ placed address child operations) :
    finish.blockCode child = placed address child operations := by
  rcases Module.before_of_run inside before with ⟨-, earlier⟩
  rw [LlvmModule.blockCode, code, List.filter_append, filter_parent_placed,
    filter_parent_eq_nil, List.nil_append]
  intro instruction member
  exact (earlier instruction member).ne

/-- The functions after an entry leave its block as it is. -/
theorem Module.blockCode_of_after {owner : Module} {child : Nat}
    {finish final : CodeGenVisitor}
    (filled : child < finish.module_.blocks.length)
    (after : run codeGen.performAt (owner.sitesAfter child) finish =
      .ok () final) :
    final.module_.blockCode child = finish.module_.blockCode child := by
  rcases Module.after_of_run after with ⟨code, appended, later⟩
  have elsewhere : code.filter
      (fun instruction => instruction.parent = child) = [] := by
    apply filter_parent_eq_nil
    intro instruction member
    exact (filled.trans_le (later instruction member)).ne'
  rw [LlvmModule.blockCode, appended, List.filter_append, elsewhere,
    List.append_nil, LlvmModule.blockCode]

/-- The block of a function holds what the walk of the function has added. -/
theorem Module.blockCode_of_walk {owner : Module} {child : Nat}
    {func : Function} {start finish final : CodeGenVisitor}
    (inside : child ≤ owner.functions.length)
    (before : run codeGen.performAt (owner.sitesBefore child) {} =
      .ok () start)
    (during : run codeGen.performAt (func.sites [⟨.module owner, child⟩])
      start = .ok () finish)
    (after : run codeGen.performAt (owner.sitesAfter child) finish =
      .ok () final) :
    finish.module_.instructions =
      start.module_.instructions ++ final.module_.blockCode child := by
  rcases Module.before_of_run inside before with ⟨number, -⟩
  rcases code_of_run during with ⟨added, operations, code⟩
  rw [number] at added code
  rw [Module.blockCode_of_after (added ▸ Nat.lt_succ_self child) after,
    Module.blockCode_of_function inside before code, code]

theorem Module.bodyCode_of_walk {owner : Module} {final : CodeGenVisitor}
    (completes : walkTree codeGen owner {} = .ok () final) {child : Nat}
    {func : Function} (place : owner.functions[child]? = some (some func)) :
    owner.BodyCode child func (final.module_.blockCode child) := by
  rcases Module.walk_around completes place with
    ⟨start, finish, before, during, after⟩
  rcases List.getElem?_eq_some_iff.mp place with ⟨inside, -⟩
  have code := Module.blockCode_of_walk inside.le before during after
  rcases body_of_run during with ⟨entered, left, enters, walked, same, leaves⟩
  refine ⟨entered, left, ?_, walked, ?_⟩
  · rw [run_append_of_ok _ before, enters]
  · rw [leaves, code, same]

/-- The block of an entry belongs to the function of its name. -/
theorem Module.symbol_of_walk {owner : Module} {final : CodeGenVisitor}
    (completes : walkTree codeGen owner {} = .ok () final) {child : Nat}
    {func : Function} (place : owner.functions[child]? = some (some func)) :
    ∃ block, final.module_.blocks[child]? = some block ∧
      (func.name ≠ "" →
        final.module_.getFunction func.name = some block.parent) ∧
        final.module_.functions[block.parent]? =
          some ⟨func.name, llvmType func.returnType, []⟩ := by
  rcases Module.added_of_walk completes with ⟨entries, middle, added, same⟩
  have placed := added.placed [] .nil
  rw [List.nil_append, ← same] at placed
  have entry : owner.functions.reduceOption[child]? = some func := by
    rw [entries, List.getElem?_map, Option.map_eq_some_iff] at place
    rcases place with ⟨other, holds, equal⟩
    cases equal
    exact holds
  rcases List.getElem?_eq_some_iff.mp entry with ⟨inEntered, entryEq⟩
  have inBlocks := placed.length_eq ▸ inEntered
  have holds := placed.get inEntered inBlocks
  simp only [List.get_eq_getElem, entryEq] at holds
  exact ⟨_, List.getElem?_eq_getElem inBlocks, holds.2⟩

/-- The entries of a module whose walk completes are its functions. -/
theorem Module.entry_of_walk {owner : Module} {final : CodeGenVisitor}
    (completes : walkTree codeGen owner {} = .ok () final) {child : Nat}
    (inside : child < owner.functions.reduceOption.length) :
    owner.functions[child]? =
      some (some owner.functions.reduceOption[child]) := by
  rcases Module.added_of_walk completes with ⟨entries, -⟩
  have found := congrArg (fun functions => functions[child]?) entries
  simp only [List.getElem?_map, List.getElem?_eq_getElem inside] at found
  exact found

/-- Every block belongs to an entry of the module. -/
theorem Module.entry_of_block {owner : Module} {final : CodeGenVisitor}
    (completes : walkTree codeGen owner {} = .ok () final) {child : Nat}
    {block : BasicBlock} (holds : final.module_.blocks[child]? = some block) :
    ∃ func, owner.functions[child]? = some (some func) := by
  rcases Module.added_of_walk completes with ⟨-, middle, added, same⟩
  rcases List.getElem?_eq_some_iff.mp holds with ⟨inside, -⟩
  have length := added.blocks
  have none : owner.entryState.module_.blocks.length = 0 := rfl
  rw [same, length, none, Nat.zero_add] at inside
  exact ⟨_, Module.entry_of_walk completes inside⟩

/-- With distinct names a function's block is the only one of its LLVM function. -/
theorem Module.functionBlocks_of_distinct {owner : Module}
    {final : CodeGenVisitor}
    (completes : walkTree codeGen owner {} = .ok () final)
    (distinct : owner.DistinctNames) {child : Nat} {func : Function}
    (place : owner.functions[child]? = some (some func)) {block : BasicBlock}
    (holds : final.module_.blocks[child]? = some block)
    (entry : final.module_.functions[block.parent]? =
      some ⟨func.name, llvmType func.returnType, []⟩) :
    final.module_.functionBlocks block.parent = [child] := by
  have only : ∀ number, number ∈ final.module_.functionBlocks block.parent ↔
      number ∈ [child] := by
    intro number
    rw [LlvmModule.mem_functionBlocks, List.mem_singleton]
    constructor
    · rintro ⟨other, otherHolds, sameParent⟩
      rcases Module.entry_of_block completes otherHolds with
        ⟨otherFunc, otherPlace⟩
      rcases Module.symbol_of_walk completes otherPlace with
        ⟨same, sameHolds, -, otherEntry⟩
      rw [otherHolds] at sameHolds
      cases sameHolds
      rw [sameParent, entry] at otherEntry
      simp only [Option.some.injEq, LlvmFunction.mk.injEq] at otherEntry
      exact distinct.eq_of_name otherPlace place otherEntry.1.symm
    · rintro rfl
      exact ⟨block, holds, rfl⟩
  have perm := (List.perm_ext_iff_of_nodup
    (final.module_.functionBlocks_nodup block.parent)
    (List.nodup_singleton child)).mpr only
  exact List.perm_singleton.mp perm

/-- With distinct names every function is compiled on its own. -/
theorem Module.ownFunction_of_distinct {owner : Module}
    {final : CodeGenVisitor}
    (completes : walkTree codeGen owner {} = .ok () final)
    (distinct : owner.DistinctNames) {child : Nat} {func : Function}
    (present : func.name ≠ "")
    (place : owner.functions[child]? = some (some func)) :
    owner.OwnFunction final.module_ child func := by
  rcases Module.symbol_of_walk completes place with
    ⟨block, holds, symbol, entry⟩
  exact ⟨⟨block.parent, symbol present, entry,
    Module.functionBlocks_of_distinct completes distinct place holds entry⟩,
    Module.bodyCode_of_walk completes place⟩

/-! ## Symbols -/

section Symbols

-- Which symbol LLVM emits for a function of a name, if any, is up to the mangler and
-- the object format: there is none for the name `""`, a leading `\x01` is taken off,
-- and some names are kept local.
variable (symbolOf : String → Option String)

/-- The symbol of a name is that of this LLVM function, and of no other. -/
structure LlvmModule.Exports (owner : LlvmModule) (name : String)
    (index : Nat) : Prop where
  emitted : ∃ function, owner.functions[index]? = some function ∧
    (symbolOf name).isSome = true ∧ symbolOf function.name = symbolOf name
  unique : ∀ other function, owner.functions[other]? = some function →
    symbolOf function.name = symbolOf name → other = index

/--
A function of the module is kept: the symbol of its name is an LLVM function of its
own with one block, which holds exactly the code of the function's body.
-/
structure Module.FunctionKept (owner : Module) (final : LlvmModule)
    (child : Nat) (func : Function) : Prop where
  symbol : ∃ index, final.Exports symbolOf func.name index ∧
    final.functions[index]? =
        some ⟨func.name, llvmType func.returnType, []⟩ ∧
      final.functionBlocks index = [child]
  code : owner.BodyCode child func (final.blockCode child)

/-- Every function of the module can have a symbol of its own. -/
structure Module.HasOwnSymbols (owner : Module) : Prop where
  emitted : ∀ func ∈ owner.functions.reduceOption,
    (symbolOf func.name).isSome = true
  distinct :
    (owner.functions.reduceOption.map fun func => symbolOf func.name).Nodup

/--
No function is lost: if the walk completes every function is kept, and a list of
functions that makes this impossible is rejected with an exception.
-/
structure Module.LosesNoFunction (owner : Module) : Prop where
  kept : ∀ final, walkTree codeGen owner {} = .ok () final →
    ∀ child func, owner.functions[child]? = some (some func) →
      owner.FunctionKept symbolOf final.module_ child func
  rejected : ¬ owner.HasOwnSymbols symbolOf → ∃ exception final,
    walkTree codeGen owner {} = .error (.thrown exception) final

variable {symbolOf} {owner : Module}

theorem Module.HasOwnSymbols.distinctNames
    (own : owner.HasOwnSymbols symbolOf) : owner.DistinctNames := by
  have distinct := own.distinct
  rw [← Function.comp_def symbolOf, ← List.map_map] at distinct
  exact distinct.of_map

/-- Functions of one symbol are the same function. -/
theorem Module.HasOwnSymbols.eq_of_symbol
    (own : owner.HasOwnSymbols symbolOf) {func other : Function}
    (member : func ∈ owner.functions.reduceOption)
    (otherMember : other ∈ owner.functions.reduceOption)
    (same : symbolOf func.name = symbolOf other.name) : func = other :=
  List.inj_on_of_nodup_map own.distinct member otherMember same

/-- The LLVM functions were inserted for the functions of the module. -/
theorem Module.inserted_of_walk {final : CodeGenVisitor}
    (completes : walkTree codeGen owner {} = .ok () final) :
    (final.module_.functions.map LlvmFunction.name).Sublist
      (owner.functions.reduceOption.map Function.name) := by
  rw [walkTree_eq_run] at completes
  have linked := Module.linked_of_run (List.append_nil _).symm completes
  rw [enteredFunctions_sites] at linked
  exact linked.inserted

/-- With symbols of their own the functions of a module are emitted under them. -/
theorem Module.exports_of_walk {final : CodeGenVisitor}
    (completes : walkTree codeGen owner {} = .ok () final)
    (own : owner.HasOwnSymbols symbolOf) {func : Function} {index : Nat}
    (member : func ∈ owner.functions.reduceOption)
    (entry : final.module_.functions[index]? =
      some ⟨func.name, llvmType func.returnType, []⟩) :
    final.module_.Exports symbolOf func.name index := by
  have inserted := Module.inserted_of_walk completes
  refine ⟨⟨_, entry, own.emitted func member, rfl⟩, ?_⟩
  intro other function otherEntry same
  -- the other LLVM function was inserted for the same function
  have named : function.name ∈ owner.functions.reduceOption.map Function.name :=
    inserted.subset (List.mem_map_of_mem (List.mem_of_getElem? otherEntry))
  rcases List.mem_map.mp named with ⟨inserter, inserterMember, inserterName⟩
  rw [← inserterName] at same
  cases own.eq_of_symbol inserterMember member same
  have distinct := inserted.nodup own.distinctNames
  have inside : other < (final.module_.functions.map LlvmFunction.name).length := by
    rw [List.length_map]
    exact (List.getElem?_eq_some_iff.mp otherEntry).1
  refine (List.getElem?_inj inside distinct).mp ?_
  rw [List.getElem?_map, List.getElem?_map, otherEntry, entry, Option.map_some,
    Option.map_some, inserterName]

/-- With symbols of its own no function of a module is lost. -/
theorem Module.HasOwnSymbols.losesNoFunction
    (own : owner.HasOwnSymbols symbolOf) : owner.LosesNoFunction symbolOf where
  kept := by
    intro final completes child func place
    rcases Module.symbol_of_walk completes place with
      ⟨block, holds, -, entry⟩
    have member : func ∈ owner.functions.reduceOption :=
      List.reduceOption_mem_iff.mpr (List.mem_of_getElem? place)
    exact ⟨⟨block.parent, Module.exports_of_walk completes own member entry,
      entry, Module.functionBlocks_of_distinct completes own.distinctNames place
        holds entry⟩, Module.bodyCode_of_walk completes place⟩
  rejected := fun lacks => absurd own lacks

/-- If the walk completes and keeps every function, they have symbols of their own. -/
theorem Module.hasOwnSymbols_of_kept {final : CodeGenVisitor}
    (completes : walkTree codeGen owner {} = .ok () final)
    (kept : ∀ child func, owner.functions[child]? = some (some func) →
      owner.FunctionKept symbolOf final.module_ child func) :
    owner.HasOwnSymbols symbolOf where
  emitted := by
    intro func member
    rcases List.mem_iff_getElem?.mp (List.reduceOption_mem_iff.mp member) with
      ⟨child, place⟩
    rcases (kept child func place).symbol with ⟨index, exports, -⟩
    rcases exports.emitted with ⟨-, -, emitted, -⟩
    exact emitted
  distinct := by
    rw [List.nodup_iff_getElem?_ne_getElem?]
    intro first second less inside same
    rw [List.length_map] at inside
    have firstPlace := Module.entry_of_walk completes (less.trans inside)
    have secondPlace := Module.entry_of_walk completes inside
    rcases (kept first _ firstPlace).symbol with ⟨index, exports, -, blocks⟩
    rcases (kept second _ secondPlace).symbol with
      ⟨otherIndex, -, otherEntry, otherBlocks⟩
    rw [List.getElem?_map, List.getElem?_map,
      List.getElem?_eq_getElem (less.trans inside),
      List.getElem?_eq_getElem inside, Option.map_some, Option.map_some,
      Option.some.injEq] at same
    cases exports.unique otherIndex _ otherEntry same.symm
    rw [blocks] at otherBlocks
    cases otherBlocks
    exact Nat.lt_irrefl _ less

/--
No function of a module is lost exactly if the functions have symbols of their own,
for which their names have to be distinct, or an exception is the first fault that the
tree forecasts.
-/
theorem loses_no_function_iff (symbolOf : String → Option String)
    (owner : Module) :
    owner.LosesNoFunction symbolOf ↔
      owner.HasOwnSymbols symbolOf ∨
        ∃ exception, owner.forecast = some (.thrown exception) := by
  constructor
  · intro loses
    by_cases own : owner.HasOwnSymbols symbolOf
    · exact .inl own
    · rcases loses.rejected own with ⟨exception, rejects⟩
      exact .inr ⟨exception, Module.fails_iff.mp rejects⟩
  · rintro (own | ⟨exception, thrown⟩)
    · exact own.losesNoFunction
    · have rejects := Module.fails_iff.mpr thrown
      refine ⟨fun final completes => ?_, fun _ => ⟨exception, rejects⟩⟩
      rcases rejects with ⟨failed, fails⟩
      rw [fails] at completes
      cases completes

end Symbols

/-- `int f() { return 1; }` and `int f() { return 2; }` in one module. -/
def sameNameTwice : Module :=
  let function (value : BitVec 32) : Function :=
    let fb : FunctionBuilder :=
      { name_ := "f", returnType_ := .int32,
        blockBuilder_ :=
          BlockBuilder.addExpression {} (.return (.literalInt32 value)) }
    fb.build .insertion .insertion
  ((ModuleBuilder.addFunction { name_ := "sameNameTwice" }
    (some (function 1))).addFunction (some (function 2))).build

/-- Both bodies end up as blocks of one LLVM function, and nothing is thrown. -/
theorem sameNameTwice_is_accepted :
    (∃ final, walkTree codeGen sameNameTwice {} = .ok () final ∧
      final.module_.functions.length = 1 ∧
        final.module_.functionBlocks 0 = [0, 1]) ∧
      ¬ sameNameTwice.LosesNoFunction some := by
  have completed :
      completedWith (fun final =>
        decide (final.module_.functions.length = 1 ∧
          final.module_.functionBlocks 0 = [0, 1]))
        (walkTree codeGen sameNameTwice {}) = true := by
    decide +kernel
  rcases exists_of_completedWith completed with ⟨final, completes, holds⟩
  refine ⟨⟨final, completes, of_decide_eq_true holds⟩, fun loses => ?_⟩
  have own := Module.hasOwnSymbols_of_kept completes
    (loses.kept final completes)
  exact absurd own.distinct (by decide)

end Llast
