import Llast.EntryPoints
import Llast.FunctionMeaning
import Llast.WellFormed

/-!
# The entry points from end to end

What a walk of the generator ends in, and what the entry points answer when the
generated function is executed, is read off the tree without generating any code:
the first fault that is forecast, or else what evaluating the tree straight through
returns.  LLVM gives generated code a meaning only if it is well formed, so the main
results are about trees that are refused and trees that are sound.
-/

namespace Llast

open Llast.EventRun

/-! ## What a name of a module stands for -/

/-- The first entry of a module that is a function of this name. -/
def Module.firstNamed (owner : Module) (name : String) : Option Nat :=
  owner.functions.findIdx? fun entry => entry.any fun func => func.name = name

theorem Module.firstNamed_eq_none {owner : Module} {name : String}
    (missing : owner.firstNamed name = none) :
    ∀ func ∈ owner.functions.reduceOption, func.name ≠ name := by
  intro func member same
  rw [List.reduceOption_mem_iff] at member
  rw [Module.firstNamed, List.findIdx?_eq_none_iff] at missing
  simpa [same] using missing _ member

theorem Module.firstNamed_eq_some {owner : Module} {name : String} {child : Nat}
    (first : owner.firstNamed name = some child) :
    ∃ func, owner.functions[child]? = some (some func) ∧ func.name = name ∧
      ∀ earlier other, owner.functions[earlier]? = some (some other) →
        other.name = name → child ≤ earlier := by
  rw [Module.firstNamed, List.findIdx?_eq_some_iff_getElem] at first
  rcases first with ⟨inside, holds, least⟩
  obtain ⟨func, entry, named⟩ := (Option.any_eq_true ..).mp holds
  refine ⟨func, ?_, of_decide_eq_true named, ?_⟩
  · rw [List.getElem?_eq_getElem inside, entry]
  · intro earlier other place same
    by_contra before
    have less := Nat.lt_of_not_le before
    have present := List.getElem?_eq_some_iff.mp place
    apply least earlier less
    rw [present.2, Option.any_some, decide_eq_true same]

/-- A name that a plainly named module has is plain. -/
theorem Module.plainName_of_firstNamed {owner : Module} (plain : owner.PlainNames)
    {name : String} {child : Nat} (first : owner.firstNamed name = some child) :
    PlainName name := by
  obtain ⟨func, place, rfl, -⟩ := Module.firstNamed_eq_some first
  exact plain func (List.reduceOption_mem_iff.mpr (List.mem_of_getElem? place))

/-- The symbol table of a generated module has no name that the module lacks. -/
theorem Module.getFunction_of_missing {owner : Module} {final : CodeGenVisitor}
    (completes : walkTree codeGen owner {} = .ok () final) {name : String}
    (missing : owner.firstNamed name = none) :
    final.module_.getFunction name = none := by
  rw [walkTree_eq_run] at completes
  have linked := Module.linked_of_run (List.append_nil _).symm completes
  rw [enteredFunctions_sites] at linked
  exact LlvmModule.getFunction_of_missing
    (linked.find_eq_none (Module.firstNamed_eq_none missing))

/-- The numbers of the blocks of a function are in ascending order. -/
theorem LlvmModule.functionBlocks_ascending (owner : LlvmModule) (function : Nat) :
    (owner.functionBlocks function).Pairwise (· < ·) := by
  have numbers : (owner.blocks.zipIdx.map Prod.snd).Pairwise (· < ·) := by
    rw [List.zipIdx_map_snd]
    exact List.pairwise_lt_range'
  exact numbers.sublist (List.filter_sublist.map Prod.snd)

/-- The entry block of a function is its block of the least number. -/
theorem LlvmModule.head?_functionBlocks {owner : LlvmModule}
    {function block : Nat} (member : block ∈ owner.functionBlocks function)
    (least : ∀ other ∈ owner.functionBlocks function, block ≤ other) :
    (owner.functionBlocks function).head? = some block := by
  have ascending := owner.functionBlocks_ascending function
  cases blocks : owner.functionBlocks function with
  | nil =>
      rw [blocks] at member
      cases member
  | cons entry rest =>
      rw [blocks] at member least ascending
      rcases List.mem_cons.mp member with rfl | later
      · rfl
      · have before := (List.pairwise_cons.mp ascending).1 block later
        have after := least entry List.mem_cons_self
        omega

/-- A name is linked to an LLVM function entered at the first function of that name. -/
theorem Module.entry_of_firstNamed {owner : Module} {final : CodeGenVisitor}
    (completes : walkTree codeGen owner {} = .ok () final) {name : String}
    (present : name ≠ "") {child : Nat} {func : Function}
    (first : owner.firstNamed name = some child)
    (place : owner.functions[child]? = some (some func)) :
    ∃ index, final.module_.getFunction name = some index ∧
      final.module_.functions[index]? =
        some ⟨name, CodeGenVisitor.llvmType func.returnType, []⟩ ∧
        (final.module_.functionBlocks index).head? = some child := by
  obtain ⟨same, samePlace, rfl, least⟩ := Module.firstNamed_eq_some first
  rw [place] at samePlace
  cases samePlace
  obtain ⟨block, holds, symbol, entry⟩ := Module.symbol_of_walk completes place
  refine ⟨block.parent, symbol present, entry, LlvmModule.head?_functionBlocks
    (LlvmModule.mem_functionBlocks.mpr ⟨block, holds, rfl⟩) ?_⟩
  intro other member
  obtain ⟨sharing, otherHolds, parent⟩ := LlvmModule.mem_functionBlocks.mp member
  obtain ⟨otherFunc, otherPlace⟩ := Module.entry_of_block completes otherHolds
  obtain ⟨same, sameHolds, -, otherEntry⟩ :=
    Module.symbol_of_walk completes otherPlace
  rw [otherHolds] at sameHolds
  cases sameHolds
  rw [parent, entry] at otherEntry
  simp only [Option.some.injEq, LlvmFunction.mk.injEq] at otherEntry
  exact least other otherFunc otherPlace otherEntry.1.symm

/-- If the module is not refused, it is sound and its functions have plain names. -/
structure Module.Runnable (owner : Module) : Prop where
  sound : owner.forecast = none → owner.Sound
  plain : owner.forecast = none → owner.PlainNames

namespace ExprRunner

variable (arith : FloatArith)

/-! ## Calling what was generated -/

/-- What is called by its name is the first function of that name. -/
theorem machineCall_of_firstNamed {owner : Module} {final : CodeGenVisitor}
    (completes : walkTree codeGen owner {} = .ok () final) {name : String}
    (present : name ≠ "") {child : Nat} {func : Function}
    (first : owner.firstNamed name = some child)
    (place : owner.functions[child]? = some (some func)) :
    machineCall arith ⟨final.module_⟩
        (ExecutionContext.getSymbolAddress ⟨final.module_⟩ name) =
      .ok (owner.evaluate arith child func) := by
  obtain ⟨index, symbol, called, entry⟩ :=
    Module.entry_of_firstNamed completes present first place
  have known : ExecutionContext.getSymbolAddress ⟨final.module_⟩ name =
      some index := symbol
  rw [known, machineCall, ← Module.execute_blockCode arith completes place]
  simp only [called, entry]
  rfl

/-- A module is added to a new context, and what a name stands for is called. -/
def addAndCall (owner : Module) (name : String) :
    Except Fault (Option Datum) := do
  let context ← ExecutionContext.addModule owner
  machineCall arith context (context.getSymbolAddress name)

/--
What adding a module and calling a name of it means: the tree forecasts the first
fault of its walk, and without one the first function of that name is evaluated.
-/
def callMeaning (owner : Module) (name : String) : Except Fault (Option Datum) :=
  match owner.forecast with
  | some fault => .error fault
  | none =>
      match owner.firstNamed name with
      | none => .error (.undefined .nullPointer)
      | some child =>
          .ok (owner.functions[child]?.join.bind (owner.evaluate arith child))

/-- Calling a name in the code of a module does what it means. -/
theorem machineCall_of_completes {owner : Module} {final : CodeGenVisitor}
    (completes : walkTree codeGen owner {} = .ok () final) {name : String}
    (present : name ≠ "") :
    machineCall arith ⟨final.module_⟩
        (ExecutionContext.getSymbolAddress ⟨final.module_⟩ name) =
      callMeaning arith owner name := by
  have accepted : owner.forecast = none := by
    rw [← Module.faultOf_walkTree, completes]
    rfl
  rw [callMeaning, accepted]
  cases first : owner.firstNamed name with
  | none =>
      have unknown : ExecutionContext.getSymbolAddress ⟨final.module_⟩ name = none :=
        Module.getFunction_of_missing completes first
      rw [unknown]
      rfl
  | some child =>
      obtain ⟨func, place, -, -⟩ := Module.firstNamed_eq_some first
      rw [machineCall_of_firstNamed arith completes present first place]
      simp only [place, Option.join_some, Option.bind_some]

section AddAndCall

variable {owner : Module} {name : String}

theorem addAndCall_of_refused {fault : Fault}
    (refused : owner.forecast = some fault) :
    addAndCall arith owner name = .error fault := by
  rw [← Module.faultOf_walkTree] at refused
  rw [addAndCall, ExecutionContext.addModule]
  cases walked : walkTree codeGen owner {} with
  | ok done final =>
      rw [walked] at refused
      cases refused
  | error other final =>
      rw [walked] at refused
      cases refused
      rfl

theorem addAndCall_of_walk {final : CodeGenVisitor}
    (completes : walkTree codeGen owner {} = .ok () final) :
    addAndCall arith owner name =
      machineCall arith ⟨final.module_⟩
        (ExecutionContext.getSymbolAddress ⟨final.module_⟩ name) := by
  rw [addAndCall, ExecutionContext.addModule, completes]
  rfl

theorem addAndCall_of_accepted (accepted : owner.forecast = none)
    (present : name ≠ "") :
    addAndCall arith owner name = callMeaning arith owner name := by
  obtain ⟨final, completes⟩ := Module.completes_iff.mpr accepted
  rw [addAndCall_of_walk arith completes]
  exact machineCall_of_completes arith completes present

/-- A name that the module lacks is a null pointer. -/
theorem addAndCall_of_missing (accepted : owner.forecast = none)
    (missing : owner.firstNamed name = none) :
    addAndCall arith owner name = .error (.undefined .nullPointer) := by
  obtain ⟨final, completes⟩ := Module.completes_iff.mpr accepted
  have unknown : ExecutionContext.getSymbolAddress ⟨final.module_⟩ name = none :=
    Module.getFunction_of_missing completes missing
  rw [addAndCall_of_walk arith completes, unknown]
  rfl

/-- Nothing is found under the empty name. -/
theorem addAndCall_of_empty (accepted : owner.forecast = none) :
    addAndCall arith owner "" = .error (.undefined .nullPointer) := by
  obtain ⟨final, completes⟩ := Module.completes_iff.mpr accepted
  have unknown : ExecutionContext.getSymbolAddress ⟨final.module_⟩ "" = none :=
    LlvmModule.getFunction_empty final.module_
  rw [addAndCall_of_walk arith completes, unknown]
  rfl

theorem addAndCall_of_firstNamed (accepted : owner.forecast = none)
    (present : name ≠ "") {child : Nat} {func : Function}
    (first : owner.firstNamed name = some child)
    (place : owner.functions[child]? = some (some func)) :
    addAndCall arith owner name = .ok (owner.evaluate arith child func) := by
  rw [addAndCall_of_accepted arith accepted present, callMeaning, accepted, first]
  simp only [place, Option.join_some, Option.bind_some]

/-- Whatever a module contains, calling a name of it does what it means. -/
theorem addAndCall_of_present (present : name ≠ "") :
    addAndCall arith owner name = callMeaning arith owner name := by
  cases forecast : owner.forecast with
  | none => exact addAndCall_of_accepted arith forecast present
  | some fault =>
      rw [callMeaning, forecast]
      exact addAndCall_of_refused arith forecast

end AddAndCall

/--
If a module is refused, this is for the fault that its tree forecasts.  If it is
accepted, sound and plainly named, the LLVM module is well formed, and calling a name
of it returns what evaluating the first function of that name returns.
-/
theorem addAndCall_eq_meaning (owner : Module) (runnable : owner.Runnable) :
    (∀ context, ExecutionContext.addModule owner = .ok context →
        context.llvmModule.WellFormed) ∧
      ∀ name, PlainName name →
        addAndCall arith owner name = callMeaning arith owner name := by
  refine ⟨fun context added => ?_, fun name plain =>
    addAndCall_of_present arith plain.1⟩
  rw [ExecutionContext.addModule] at added
  cases walked : walkTree codeGen owner {} with
  | error fault final =>
      rw [walked] at added
      cases added
  | ok result final =>
      rw [walked] at added
      cases added
      have accepted := Module.completes_iff.mp ⟨final, walked⟩
      exact (runnable.sound accepted).wellFormed walked

theorem sameNameTwice_plain : sameNameTwice.PlainNames := by
  have plain : ∀ name ∈ ["f", "f"], PlainName name := by simp [PlainName]
  exact List.forall_mem_map.mp plain

/-- Two functions of one name become one LLVM function, which runs the first. -/
theorem addAndCall_eq_meaning_sameNameTwice :
    (∀ context, ExecutionContext.addModule sameNameTwice = .ok context →
        context.llvmModule.WellFormed) ∧
      addAndCall .binary32 sameNameTwice "f" = .ok (some (.int 1)) := by
  have runnable : sameNameTwice.Runnable :=
    ⟨fun _ => by decide +kernel, fun _ => sameNameTwice_plain⟩
  have means := addAndCall_eq_meaning .binary32 sameNameTwice runnable
  refine ⟨means.1, (means.2 "f" (by simp [PlainName])).trans ?_⟩
  decide +kernel

/-- The function that an expression is wrapped into. -/
def exprFunction (functionName : String) (expr : Expr) (dataType : DataType) :
    Function :=
  let bb := BlockBuilder.addExpression {} expr
  let fb : FunctionBuilder :=
    { name_ := functionName, returnType_ := dataType, blockBuilder_ := bb }
  fb.build .insertion .insertion

section Call

variable {expr : Expr} {dataType : DataType}

/-- The call of the generated function returns what evaluating its tree does. -/
theorem machineCall_of_walk {final : CodeGenVisitor}
    (completes : walkTree codeGen
      (exprModule "ExprModule" funcName expr dataType) {} = .ok () final) :
    machineCall arith ⟨final.module_⟩
        (ExecutionContext.getSymbolAddress ⟨final.module_⟩ funcName) =
      .ok ((exprModule "ExprModule" funcName expr dataType).evaluate arith 0
        (exprFunction funcName expr dataType)) := by
  have place : (exprModule "ExprModule" funcName expr dataType).functions[0]? =
      some (some (exprFunction funcName expr dataType)) := rfl
  have first : (exprModule "ExprModule" funcName expr dataType).firstNamed
      funcName = some 0 := rfl
  exact machineCall_of_firstNamed arith completes (by decide) first place

theorem runExpr_of_completes {Result : Type} {funcPtr : Call Result}
    {refusal : String} {final : CodeGenVisitor}
    (typed : expr.dataType = .ok dataType)
    (completes : walkTree codeGen
      (exprModule "ExprModule" funcName expr dataType) {} = .ok () final) :
    runExpr funcPtr dataType refusal expr =
      funcPtr ⟨final.module_⟩
        (ExecutionContext.getSymbolAddress ⟨final.module_⟩ funcName) := by
  have generates : makeExecutionContext expr = .ok ⟨final.module_⟩ := by
    simp [makeExecutionContext, ExecutionContext.addModule,
      EntryPoint.dataTypeOf_of_ok typed, completes, resultOf, bind, Except.bind,
      pure, Except.pure]
  exact runExpr_eq funcPtr refusal (EntryPoint.dataTypeOf_of_ok typed) generates

end Call

/-! ## What the entry points answer -/

namespace EntryPoint

/-- What an entry point refuses a tree of this type with. -/
def refusal : EntryPoint → DataType → Option Fault
  | .compile, _ => none
  | .runFloatExpr, dataType =>
      if dataType = .float then none
      else
        some (.thrown (.fatalException "expr->dataType() != DataType::Float"))
  | .runInt32Expr, dataType =>
      if dataType = .int32 then none
      else
        some (.thrown (.fatalException "expr->dataType() != DataType::Int32"))

/-- What calling an entry point yields; `compile` discards any results. -/
def answer (entry : EntryPoint) (expr : Expr) : Except Fault (Option Datum) :=
  match entry with
  | .compile => (ExprRunner.compile expr).map fun _ => none
  | .runFloatExpr => ExprRunner.runFloatExpr (machineCall arith) expr
  | .runInt32Expr => ExprRunner.runInt32Expr (machineCall arith) expr

/-- What the code that an entry point calls returns. -/
def result (entry : EntryPoint) (expr : Expr) (dataType : DataType) :
    Option Datum :=
  match entry with
  | .compile => none
  | _ =>
      (entry.ownerOf expr dataType).evaluate arith 0
        (exprFunction funcName expr dataType)

/--
What an entry point means: the type of the root decides whether it is refused, then
the tree forecasts the first fault of its walk, and without one the tree is evaluated.
-/
def meaning (entry : EntryPoint) (expr : Expr) : Except Fault (Option Datum) :=
  match expr.dataType with
  | .error behaviour => .error (.undefined behaviour)
  | .ok dataType =>
      match entry.refusal dataType with
      | some fault => .error fault
      | none =>
          match (entry.ownerOf expr dataType).forecast with
          | some fault => .error fault
          | none => .ok (entry.result arith expr dataType)

section Meaning

variable {entry : EntryPoint} {expr : Expr} {dataType : DataType}

theorem answer_of_untyped {behaviour : Undefined}
    (untyped : expr.dataType = .error behaviour) :
    entry.answer arith expr = .error (.undefined behaviour) := by
  have asked := dataTypeOf_of_error untyped
  cases entry <;>
    simp [answer, ExprRunner.compile, ExprRunner.runFloatExpr,
      ExprRunner.runInt32Expr, runExpr, asked, bind, Except.bind, Except.map]

theorem answer_of_refused {fault : Fault} (typed : expr.dataType = .ok dataType)
    (refuses : entry.refusal dataType = some fault) :
    entry.answer arith expr = .error fault := by
  cases entry with
  | compile => cases refuses
  | runFloatExpr =>
      rw [refusal] at refuses
      split at refuses
      · cases refuses
      · rename_i other
        cases refuses
        exact runExpr_of_refused typed other
  | runInt32Expr =>
      rw [refusal] at refuses
      split at refuses
      · cases refuses
      · rename_i other
        cases refuses
        exact runExpr_of_refused typed other

theorem accepts_of_refusal (accepted : entry.refusal dataType = none) :
    entry.Accepts dataType := by
  cases entry with
  | compile => trivial
  | runFloatExpr =>
      by_contra other
      rw [refusal, if_neg (show dataType ≠ .float from other)] at accepted
      cases accepted
  | runInt32Expr =>
      by_contra other
      rw [refusal, if_neg (show dataType ≠ .int32 from other)] at accepted
      cases accepted

theorem answer_of_walk_error (typed : expr.dataType = .ok dataType)
    (accepts : entry.Accepts dataType) {fault : Fault} {final : CodeGenVisitor}
    (fails : walkTree codeGen (entry.ownerOf expr dataType) {} =
      .error fault final) :
    entry.answer arith expr = .error fault := by
  cases entry with
  | compile =>
      simp only [ownerOf] at fails
      simp [answer, ExprRunner.compile, dataTypeOf_of_ok typed, fails, resultOf,
        bind, Except.bind, Except.map]
  | runFloatExpr =>
      cases accepts
      exact runExpr_of_walk_error typed fails
  | runInt32Expr =>
      cases accepts
      exact runExpr_of_walk_error typed fails

theorem answer_of_walk_ok (typed : expr.dataType = .ok dataType)
    (accepts : entry.Accepts dataType) {final : CodeGenVisitor}
    (completes : walkTree codeGen (entry.ownerOf expr dataType) {} =
      .ok () final) :
    entry.answer arith expr = .ok (entry.result arith expr dataType) := by
  cases entry with
  | compile =>
      simp only [ownerOf] at completes
      simp [answer, ExprRunner.compile, dataTypeOf_of_ok typed, completes,
        resultOf, result, bind, Except.bind, pure, Except.pure, Except.map]
  | runFloatExpr =>
      cases accepts
      rw [answer, ExprRunner.runFloatExpr, runExpr_of_completes typed completes]
      exact machineCall_of_walk arith completes
  | runInt32Expr =>
      cases accepts
      rw [answer, ExprRunner.runInt32Expr, runExpr_of_completes typed completes]
      exact machineCall_of_walk arith completes

end Meaning

/-- If the entry point gets to call the code it generates, the tree is sound. -/
def CallsSound (entry : EntryPoint) (expr : Expr) : Prop :=
  entry ≠ .compile → ∀ dataType, expr.dataType = .ok dataType →
    entry.refusal dataType = none →
      (entry.ownerOf expr dataType).forecast = none →
        (entry.ownerOf expr dataType).Sound

theorem answer_of_any (entry : EntryPoint) (expr : Expr) :
    entry.answer arith expr = entry.meaning arith expr := by
  rw [meaning]
  cases typed : expr.dataType with
  | error behaviour => exact answer_of_untyped arith typed
  | ok dataType =>
      cases refuses : entry.refusal dataType with
      | some fault =>
          simp only [refuses]
          exact answer_of_refused arith typed refuses
      | none =>
          simp only [refuses]
          have accepts := accepts_of_refusal refuses
          rw [← Module.faultOf_walkTree]
          cases walked : walkTree codeGen (entry.ownerOf expr dataType) {} with
          | error fault final =>
              exact answer_of_walk_error arith typed accepts walked
          | ok done final => exact answer_of_walk_ok arith typed accepts walked

/-- A context is made of code that the walk has completed. -/
theorem walk_of_makeExecutionContext {expr : Expr} {dataType : DataType}
    {context : ExecutionContext} (typed : expr.dataType = .ok dataType)
    (makes : makeExecutionContext expr = .ok context) :
    ∃ final,
      walkTree codeGen (exprModule "ExprModule" funcName expr dataType) {} =
          .ok () final ∧
        context = ⟨final.module_⟩ := by
  rw [makeExecutionContext, dataTypeOf_of_ok typed] at makes
  simp only [bind, Except.bind, ExecutionContext.addModule] at makes
  cases walked :
      walkTree codeGen (exprModule "ExprModule" funcName expr dataType) {} with
  | error fault final =>
      rw [walked] at makes
      cases makes
  | ok done final =>
      rw [walked] at makes
      cases makes
      exact ⟨final, rfl, rfl⟩

/--
An entry point answers what it means on every tree that it refuses, that the walk
refuses, or that is sound, in which case the code that is called is well formed.
-/
theorem answer_eq_meaning (entry : EntryPoint) (expr : Expr)
    (sound : entry.CallsSound expr) :
    entry.answer arith expr = entry.meaning arith expr ∧
      ∀ dataType context, entry ≠ .compile → expr.dataType = .ok dataType →
        entry.refusal dataType = none →
          makeExecutionContext expr = .ok context →
            context.llvmModule.WellFormed := by
  refine ⟨answer_of_any arith entry expr, ?_⟩
  intro dataType context calls typed accepted makes
  have owns : entry.ownerOf expr dataType =
      exprModule "ExprModule" funcName expr dataType := by
    cases entry with
    | compile => exact absurd rfl calls
    | _ => rfl
  obtain ⟨final, walked, rfl⟩ := walk_of_makeExecutionContext typed makes
  have whole := sound calls dataType typed accepted
  rw [owns] at whole
  exact (whole (Module.completes_iff.mp ⟨final, walked⟩)).wellFormed walked

/-- `return 6 * 7`. -/
def returnProduct : Expr :=
  .return (.binary (.literalInt32 6) .mul (.literalInt32 7))

theorem answer_eq_meaning_returnProduct :
    runInt32Expr.answer .binary32 returnProduct = .ok (some (.int 42)) := by
  have sound : runInt32Expr.CallsSound returnProduct := by
    rintro - dataType typed - -
    cases typed
    decide +kernel
  refine (answer_eq_meaning .binary32 runInt32Expr returnProduct sound).1.trans ?_
  decide +kernel

/-- A missing operand of a Binary is met by the walk before it is asked. -/
example :
    compile.meaning .binary32 (.binary .null .add (.literalInt32 1)) =
      .error argNotNull := by
  decide +kernel

end EntryPoint

end ExprRunner

end Llast
