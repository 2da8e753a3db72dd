import Llast.CompilerCorrectness
import Llast.Pipeline
import Llast.StructuredTrees

/-!
# Modules made of statements

A module all of whose functions are made of statements and have distinct names is
compiled without failing, its LLVM module is well formed, the code of each function
follows the function's syntax, and calling a function returns what the interpreter
says.  The programs that are handed to `runInt32Expr` and `runFloatExpr` are such
modules of one function.
-/

namespace Llast

open Llast.EventRun
open Llast.CodeGenVisitor

/-! ## Modules -/

/-- Every entry is a function made of statements. -/
def Module.MadeOfStatements (owner : Module) : Prop :=
  ∀ entry ∈ owner.functions, ∃ func, entry = some func ∧ func.Structured

theorem Function.Structured.laid {func : Function} (structured : func.Structured)
    (path : Path) (stack : List Origin) :
    ∃ final, Laid stack (func.sites path) func.body.shapes final := by
  have around : Path.scopes (⟨.function func, 0⟩ :: path) = [] := rfl
  have function : (enclosingFunction (⟨.function func, 0⟩ :: path)).map
      Function.returnType = some func.returnType := rfl
  obtain ⟨middle, body⟩ :=
    Expr.Returns.laid structured around function (List.cons_ne_nil _ _) stack
  have opens : Site.Finds ⟨path, .visitingFunction func⟩ stack :=
    Site.finds_of_takesNothing stack rfl fun other => absurd rfl (other func)
  have closes : Site.Finds ⟨path, .visitedFunction func⟩ middle :=
    Site.finds_of_takesNothing middle rfl fun _ => rfl
  have laid := node_laid (.function func) opens body closes
  have nothing : Site.shapes ⟨path, .visitedFunction func⟩
      (middle.map Origin.kind) = [] := rfl
  rw [nothing, List.append_nil] at laid
  exact ⟨_, laid⟩

theorem functionSites_laid (owner : Module) {functions : List (Option Function)}
    (each : ∀ entry ∈ functions, ∃ func, entry = some func ∧ func.Structured)
    (child : Nat) (stack : List Origin) :
    ∃ shapes final,
      Laid stack (functionSites owner functions child) shapes final := by
  induction functions generalizing child stack with
  | nil => exact ⟨[], stack, .nil stack⟩
  | cons entry rest ih =>
      rcases each entry List.mem_cons_self with ⟨func, rfl, structured⟩
      obtain ⟨middle, first⟩ := structured.laid [⟨.module owner, child⟩] stack
      obtain ⟨shapes, final, others⟩ := ih
        (fun entry member => each entry (List.mem_cons_of_mem _ member))
        (child + 1) middle
      exact ⟨_, final, first.append others⟩

/-- Every callback of the module finds what it takes. -/
theorem Module.MadeOfStatements.finds {owner : Module}
    (made : owner.MadeOfStatements) {past future : List Site} {site : Site}
    (split : owner.sites = past ++ site :: future) :
    site.Finds (originsAfter past) := by
  obtain ⟨shapes, middle, inner⟩ := functionSites_laid owner made 0 []
  have opens : Site.Finds ⟨[], .visitingModule owner⟩ [] :=
    Site.finds_of_takesNothing [] rfl fun _ => rfl
  have closes : Site.Finds ⟨[], .visitedModule owner⟩ middle :=
    Site.finds_of_takesNothing middle rfl fun _ => rfl
  have plan := (node_laid (.module owner) opens inner closes).plan
  have whole : bracket [] (.module owner) [.visitingModule owner]
      (functionSites owner owner.functions 0) [.visitedModule owner] =
        past ++ site :: future := split
  rw [whole] at plan
  exact plan.expected

theorem Module.MadeOfStatements.structured {owner : Module}
    (made : owner.MadeOfStatements) {child : Nat} {func : Function}
    (place : owner.functions[child]? = some (some func)) : func.Structured := by
  rcases made _ (List.mem_of_getElem? place) with ⟨other, same, structured⟩
  cases same
  exact structured

/-- The tree of a module made of statements is sound. -/
theorem Module.MadeOfStatements.sound {owner : Module}
    (made : owner.MadeOfStatements) : owner.Sound where
  wellKinded past site future split := by
    have fits := (made.finds split).kindsFit
    rw [kinds_originsAfter] at fits
    exact fits
  takesLocally past site future split := by
    rw [Site.TakesLocally, zip_originsAfter, ← List.map_take, List.forall_mem_map]
    exact (made.finds split).sameEntry
  complete child func place := by
    have structured := made.structured place
    obtain ⟨final, laid⟩ := structured.laid [⟨.module owner, child⟩]
      (originsAfter (owner.sitesBefore child))
    rw [← kinds_originsAfter, laid.shapes]
    exact structured.completeBlock

/-- Where a function is entered, the functions before it have been. -/
theorem Module.enteredFunctions_of_visitingFunction {owner : Module}
    {past future : List Site} {path : Path} {func : Function}
    (split : owner.sites = past ++ ⟨path, .visitingFunction func⟩ :: future) :
    ∃ child, owner.functions[child]? = some (some func) ∧
      enteredFunctions past = (owner.functions.take child).reduceOption := by
  have member : (⟨path, .visitingFunction func⟩ : Site) ∈ owner.sites := by
    simp [split]
  rcases Module.mem_sites member with
    ⟨-, own⟩ | ⟨child, -, same⟩ | ⟨child, other, place, ⟨here, own⟩ | inside⟩
  · simp [Module.ownCallbacks] at own
  · cases same
  · simp only [Function.ownCallbacks, List.mem_cons, reduceCtorEq,
      Callback.visitingFunction.injEq, List.not_mem_nil, or_false, false_or]
      at own
    subst own
    cases here
    have around := Module.sites_around place
    rw [List.append_cons] at around
    refine ⟨child, place, ?_⟩
    rw [Module.past_unique split around, enteredFunctions, List.foldl_append,
      ← enteredFunctions_sitesBefore]
    rfl
  · exact absurd trivial (Expr.not_outer_of_mem_sites inside)

/-- The walk of a module made of statements is completed. -/
theorem Module.MadeOfStatements.completes {owner : Module}
    (made : owner.MadeOfStatements) (distinct : owner.DistinctNames) :
    ∃ final, walkTree codeGen owner {} = .ok () final := by
  simp only [walkTree_eq_run]
  rw [(codeGen_predicts owner).prefix_completes_iff
    (List.append_nil owner.sites).symm]
  intro past site future split
  have finds := made.finds split
  have enough := finds.enough
  rw [length_originsAfter] at enough
  rw [predictedFault_of_enough enough]
  by_cases entering : ∃ func, site.callback = .visitingFunction func
  · rcases entering with ⟨func, entering⟩
    rcases site with ⟨path, callback⟩
    subst entering
    rcases Module.enteredFunctions_of_visitingFunction split with
      ⟨child, place, entered⟩
    have numeric := (made.structured place).numeric (by simp)
    have fresh : ¬ ∃ earlier ∈ enteredFunctions past,
        earlier.name = func.name ∧
          llvmType earlier.returnType ≠ llvmType func.returnType := by
      rintro ⟨earlier, member, same, -⟩
      rw [entered] at member
      exact distinct.fresh place earlier member same
    simp [treeFault, faultBeforeStack, functionFault, numeric.getType, fresh,
      faultAfterStack]
  · have faultless := finds.faultless (not_exists.mp entering)
    rcases site with ⟨path, callback⟩
    cases callback <;>
      first
        | exact absurd ⟨_, rfl⟩ entering
        | exact faultless

/--
A module whose functions are made of statements and have distinct names is compiled
without failing; its LLVM module is well formed, each function whose name is not empty
is the LLVM function of its name, with one block, and this block holds the instructions
that the syntax of the function stands for, in order.
-/
theorem structured_module_compiles {owner : Module}
    (made : owner.MadeOfStatements) (distinct : owner.DistinctNames) :
    ∃ final, walkTree codeGen owner {} = .ok () final ∧
      final.module_.WellFormed ∧
        ∀ child func, owner.functions[child]? = some (some func) →
          (func.name ≠ "" → owner.OwnFunction final.module_ child func) ∧
            final.module_.blockShapes child = func.body.shapes := by
  rcases made.completes distinct with ⟨final, completes⟩
  refine ⟨final, completes, made.sound.wellFormed completes, ?_⟩
  intro child func place
  refine ⟨fun present =>
    Module.ownFunction_of_distinct completes distinct present place, ?_⟩
  obtain ⟨stack, laid⟩ := (made.structured place).laid [⟨.module owner, child⟩]
    (originsAfter (owner.sitesBefore child))
  rw [Module.blockShapes_of_walk completes place, ← kinds_originsAfter,
    laid.shapes]

/-! ## Calls -/

section Calls

variable (arith : FloatArith) {owner : Module}

/-- The code in the block of a function returns what the interpreter says. -/
theorem Function.Structured.execute {func : Function}
    (structured : func.Structured) {final : CodeGenVisitor}
    (completes : walkTree codeGen owner {} = .ok () final) {child : Nat}
    (place : owner.functions[child]? = some (some func)) {datum : Datum}
    (interprets : func.interpret arith = some datum) :
    Machine.execute arith (llvmType func.returnType) {}
        (final.module_.blockCode child) =
      some datum := by
  rcases Module.walk_around completes place with
    ⟨start, finish, before, during, after⟩
  rcases List.getElem?_eq_some_iff.mp place with ⟨inside, -⟩
  have code := Module.blockCode_of_walk inside.le before during after
  rcases body_of_run during with ⟨entered, left, -, walked, same, leaves⟩
  obtain ⟨last, operations, compiled⟩ :=
    Expr.Returns.compiles arith structured .nil (List.nil_append _).symm
  rw [compiled.walks] at walked
  cases walked
  rw [← leaves, compiled.emits.instructions, same,
    List.append_cancel_left_eq] at code
  have delivered := compiled.delivers {} [] datum []
    ⟨.nil, List.nodup_nil, by simp [cells]⟩
    (func.interpret_eq_some arith interprets)
  rw [List.append_nil, code] at delivered
  exact delivered

/--
In a module whose functions are made of statements and have distinct plain names,
calling any of them by its name returns what the interpreter says, if it says anything.
-/
theorem structured_call_returns (made : owner.MadeOfStatements)
    (distinct : owner.DistinctNames) (plain : owner.PlainNames) {func : Function}
    (member : some func ∈ owner.functions) {datum : Datum}
    (interprets : func.interpret arith = some datum) :
    ExprRunner.addAndCall arith owner func.name = .ok (some datum) := by
  rcases List.mem_iff_getElem?.mp member with ⟨child, place⟩
  rcases made.completes distinct with ⟨final, completes⟩
  have present := (plain func (List.reduceOption_mem_iff.mpr member)).1
  have own := Module.ownFunction_of_distinct completes distinct present place
  rcases own.symbol with ⟨index, symbol, called, blocks⟩
  have known : ExecutionContext.getSymbolAddress ⟨final.module_⟩ func.name =
      some index := symbol
  rw [ExprRunner.addAndCall_of_walk arith completes, known,
    ExprRunner.machineCall]
  have executes :=
    (made.structured place).execute arith completes place interprets
  simp only [called, blocks, List.head?_cons, Option.bind_eq_bind, Option.bind_some,
    executes]

end Calls

/-- The module of a function with an inner variable of an outer one's name. -/
def restoredModule : Module :=
  (ModuleBuilder.addFunction { name_ := "restored" }
    (some restoredFunction)).build

theorem restoredModule_made : restoredModule.MadeOfStatements := by
  intro entry member
  rw [List.mem_singleton.mp member]
  exact ⟨restoredFunction, rfl, restoredFunction_structured⟩

theorem restoredModule_distinct : restoredModule.DistinctNames :=
  List.nodup_singleton _

theorem restoredModule_plain : restoredModule.PlainNames := by
  have plain : ∀ name ∈ ["f"], PlainName name := by simp [PlainName]
  exact List.forall_mem_map.mp plain

theorem structured_module_compiles_restored :
    ∃ final, walkTree codeGen restoredModule {} = .ok () final ∧
      final.module_.WellFormed ∧
        restoredModule.OwnFunction final.module_ 0 restoredFunction ∧
          final.module_.blockShapes 0 =
            [.alloca .int32 "x", .store .int32, .alloca .float "x",
              .store .float, .load .float, .load .int32, .binary .mul,
              .ret .int32] := by
  obtain ⟨final, completes, wellFormed, code⟩ :=
    structured_module_compiles restoredModule_made restoredModule_distinct
  obtain ⟨own, shapes⟩ := code 0 restoredFunction rfl
  exact ⟨final, completes, wellFormed, own (by decide), shapes⟩

theorem structured_call_returns_restored :
    ExprRunner.addAndCall .binary32 restoredModule "f" =
      .ok (some (.int 42)) := by
  have returns : restoredFunction.interpret .binary32 = some (.int 42) := by
    decide +kernel
  exact structured_call_returns .binary32 restoredModule_made
    restoredModule_distinct restoredModule_plain (List.mem_singleton_self _) returns

/-! ## The entry points -/

namespace ExprRunner

variable (arith : FloatArith)

/-- The Scope of a Block without variables. -/
def noVariables : Scope :=
  ScopeBuilder.new.build .insertion

theorem noVariables_numeric : noVariables.Numeric where
  built := ⟨[], .insertion, rfl⟩
  numeric := nofun

section Program

variable {expr : Expr} {dataType : DataType}
variable (program : expr.Returns dataType [noVariables])

include program

/-- A program that is wrapped into a function is the body of that function. -/
theorem exprFunction_structured (functionName : String) :
    (exprFunction functionName expr dataType).Structured :=
  .block noVariables_numeric nofun program

theorem exprModule_made (moduleName functionName : String) :
    (exprModule moduleName functionName expr dataType).MadeOfStatements := by
  intro entry member
  rw [List.mem_singleton.mp member]
  exact ⟨_, rfl, exprFunction_structured program functionName⟩

end Program

theorem backDataType_append_singleton (first : List Expr) (last : Expr) :
    backDataType (first ++ [last]) = last.dataType := by
  induction first with
  | nil => rw [List.nil_append, backDataType]
  | cons expr rest ih =>
      rcases more : rest ++ [last] with _ | ⟨next, others⟩
      · simp at more
      · rw [more] at ih
        rw [List.cons_append, more, backDataType, ih]

/-- The type of a program is that of what it returns. -/
theorem dataType_of_returns {expr : Expr} {dataType : DataType}
    {scopes : List Scope} (program : expr.Returns dataType scopes) :
    expr.dataType = .ok dataType := by
  induction program with
  | «return» evaluable returned =>
      rw [Expr.dataType]
      exact returned
  | block numeric each tailReturns ih =>
      rw [Expr.dataType, backDataType_append_singleton, ih]

/--
A program made of statements, whose integer divisors are literals other than 0 and
-1, is accepted by the entry point for its type and yields what the interpreter
says, which is a datum of that type.
-/
theorem program_answers {entry : EntryPoint} {expr : Expr} {dataType : DataType}
    (program : expr.Returns dataType [noVariables])
    (safe : expr.DividesSafely) (accepted : entry.refusal dataType = none)
    (called : entry ≠ .compile) :
    ∃ datum, (exprFunction funcName expr dataType).interpret arith = some datum ∧
      datum.Fits dataType ∧ entry.answer arith expr = .ok (some datum) := by
  have structured := exprFunction_structured program funcName
  have bodySafe : (exprFunction funcName expr dataType).body.DividesSafely :=
    ⟨safe, trivial⟩
  rcases structured.returns arith bodySafe with ⟨datum, interprets, fits⟩
  refine ⟨datum, interprets, fits, ?_⟩
  let owner := exprModule "ExprModule" funcName expr dataType
  have made : owner.MadeOfStatements := exprModule_made program _ _
  have distinct : owner.DistinctNames := exprModule_distinctNames _ _ _ _
  have place : owner.functions[0]? =
      some (some (exprFunction funcName expr dataType)) := rfl
  rcases made.completes distinct with ⟨final, completes⟩
  have executes := structured.execute arith completes place interprets
  have evaluates : owner.evaluate arith 0
      (exprFunction funcName expr dataType) = some datum := by
    rw [← executes, Module.execute_blockCode arith completes place]
  have typed := dataType_of_returns program
  have accepts := EntryPoint.accepts_of_refusal accepted
  cases entry with
  | compile => exact absurd rfl called
  | runFloatExpr =>
      rw [EntryPoint.answer_of_walk_ok arith typed accepts completes]
      exact congrArg Except.ok evaluates
  | runInt32Expr =>
      rw [EntryPoint.answer_of_walk_ok arith typed accepts completes]
      exact congrArg Except.ok evaluates

/-- `{ int var1; var1 = 123; return var1; }`. -/
def assignedVariable : Expr :=
  let var1 : Variable := ⟨0, "var1", .int32⟩
  let bb := ((BlockBuilder.addVariable {} var1).addExpression
    (.assignVariable var1 (.literalInt32 123))).addExpression
      (.return (.variableRef var1))
  bb.build .insertion

theorem assignedVariable_returns :
    assignedVariable.Returns .int32 [noVariables] := by
  have scope :
      (ScopeBuilder.build (ScopeBuilder.addVariable .new ⟨0, "var1", .int32⟩)
        .insertion).Numeric :=
    { built := ⟨[⟨0, "var1", .int32⟩], .insertion, rfl⟩
      numeric := by
        intro var member
        rw [List.mem_singleton.mp member]
        exact .inl rfl }
  show Expr.Returns .int32 _ (.block _ ([_] ++ [_]))
  exact .block scope
    (List.forall_mem_singleton.mpr
      (.assignVariable rfl (.literalInt32 123) rfl))
    (.return (.variableRef rfl) rfl)

theorem program_answers_assignedVariable :
    ∃ datum,
      (exprFunction funcName assignedVariable .int32).interpret .binary32 =
          some datum ∧
        datum.Fits .int32 ∧
          EntryPoint.runInt32Expr.answer .binary32 assignedVariable =
            .ok (some datum) :=
  program_answers .binary32 assignedVariable_returns
    ⟨trivial, trivial, trivial⟩ rfl nofun

end ExprRunner

end Llast
