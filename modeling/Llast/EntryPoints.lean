import Llast.Execution
import Llast.ExprRunner
import Llast.Linkage

/-!
# The entry points on malformed trees

`dataType()` follows last expressions, right operands, returned values and arms until
it meets a node that knows its type.  `compile`, `runFloatExpr` and `runInt32Expr` ask
the tree for it before the walk has tested anything, and `visitedBinary` asks both of
its operands, which the walk has tested by then.  `typeSource` is the node where the
question ends: a missing child there is met before the walk only, an empty Block also
inside it.
-/

namespace Llast

open Llast.EventRun

/-! ## Where a data type comes from -/

mutual

/-- The node whose type `dataType()` returns. -/
def Expr.typeSource : Expr → Expr
  | .null => .null
  | .literalInt32 value => .literalInt32 value
  | .literalFloat value => .literalFloat value
  | .binary _ _ rValue => rValue.typeSource
  | .variableRef var => .variableRef var
  | .assignVariable var valueExpr => .assignVariable var valueExpr
  | .return valueExpr => valueExpr.typeSource
  | .block scope expressions => backTypeSource scope expressions
  | .conditional condition truePart falsePart =>
      if truePart.isNull then
        if falsePart.isNull then
          .conditional condition truePart falsePart
        else
          falsePart.typeSource
      else
        truePart.typeSource

/-- The node whose type a Block of these expressions has: itself, if it is empty. -/
def backTypeSource (scope : Scope) : List Expr → Expr
  | [] => .block scope []
  | [last] => last.typeSource
  | _ :: next :: rest => backTypeSource scope (next :: rest)

end

/-- What asking this node itself for its type ends in. -/
def Expr.typeFault : Expr → Option Undefined
  | .null => some .nullPointer
  | .block _ [] => some .emptyVector
  | _ => none

/-- The type of the tree is the type of an empty Block. -/
def Expr.EndsInEmptyBlock (expr : Expr) : Prop :=
  expr.typeSource.typeFault = some .emptyVector

/-- A Block that is not empty has the type of an expression of it. -/
theorem back_of_ne_nil (scope : Scope) {expressions : List Expr}
    (some : expressions ≠ []) :
    ∃ last ∈ expressions,
      backTypeSource scope expressions = last.typeSource ∧
        backDataType expressions = last.dataType := by
  induction expressions with
  | nil => exact absurd rfl some
  | cons head rest ih =>
      cases rest with
      | nil =>
          refine ⟨head, List.mem_cons_self, ?_, ?_⟩
          · rw [backTypeSource]
          · rw [backDataType]
      | cons next rest =>
          rcases ih (List.cons_ne_nil next rest) with
            ⟨last, inside, source, dataType⟩
          refine ⟨last, List.mem_cons_of_mem _ inside, ?_, ?_⟩
          · rw [backTypeSource, source]
          · rw [backDataType, dataType]

/-- The question for the type ends at a node or is handed to a child of it. -/
theorem Expr.typeSource_cases (expr : Expr) :
    (expr.typeSource = expr ∧
        ∀ behaviour, expr.dataType = .error behaviour ↔
          expr.typeFault = some behaviour) ∨
      ∃ child ∈ expr.children,
        expr.typeSource = child.1.typeSource ∧
          expr.dataType = child.1.dataType := by
  cases expr with
  | null =>
      refine .inl ⟨by rw [Expr.typeSource], fun behaviour => ?_⟩
      simp [Expr.dataType, Expr.typeFault]
  | literalInt32 value =>
      refine .inl ⟨by rw [Expr.typeSource], fun behaviour => ?_⟩
      simp [Expr.dataType, Expr.typeFault]
  | literalFloat value =>
      refine .inl ⟨by rw [Expr.typeSource], fun behaviour => ?_⟩
      simp [Expr.dataType, Expr.typeFault]
  | variableRef var =>
      refine .inl ⟨by rw [Expr.typeSource], fun behaviour => ?_⟩
      simp [Expr.dataType, Expr.typeFault]
  | assignVariable var valueExpr =>
      refine .inl ⟨by rw [Expr.typeSource], fun behaviour => ?_⟩
      simp [Expr.dataType, Expr.typeFault]
  | binary lValue operation rValue =>
      refine .inr ⟨(rValue, 1), by simp [Expr.children], ?_, ?_⟩
      · rw [Expr.typeSource]
      · rw [Expr.dataType]
  | «return» valueExpr =>
      refine .inr ⟨(valueExpr, 0), by simp [Expr.children], ?_, ?_⟩
      · rw [Expr.typeSource]
      · rw [Expr.dataType]
  | block scope expressions =>
      cases expressions with
      | nil =>
          refine .inl ⟨by rw [Expr.typeSource, backTypeSource],
            fun behaviour => ?_⟩
          simp [Expr.dataType, backDataType, Expr.typeFault]
      | cons head rest =>
          rcases back_of_ne_nil scope (List.cons_ne_nil head rest) with
            ⟨last, inside, source, dataType⟩
          rcases List.mem_iff_getElem?.mp inside with ⟨place, stands⟩
          refine .inr ⟨(last, place), ?_, ?_, ?_⟩
          · exact List.mem_zipIdx_iff_getElem?.mpr stands
          · rw [Expr.typeSource, source]
          · rw [Expr.dataType, dataType]
  | conditional condition truePart falsePart =>
      by_cases noTrue : truePart.isNull
      · by_cases noFalse : falsePart.isNull
        · refine .inl ⟨by rw [Expr.typeSource, if_pos noTrue, if_pos noFalse],
            fun behaviour => ?_⟩
          rw [Expr.dataType, if_pos noTrue, if_pos noFalse]
          simp [Expr.typeFault]
        · refine .inr ⟨(falsePart, 2), by simp [Expr.children, noFalse], ?_, ?_⟩
          · rw [Expr.typeSource, if_pos noTrue, if_neg noFalse]
          · rw [Expr.dataType, if_pos noTrue, if_neg noFalse]
      · refine .inr ⟨(truePart, 1), by simp [Expr.children, noTrue], ?_, ?_⟩
        · rw [Expr.typeSource, if_neg noTrue]
        · rw [Expr.dataType, if_neg noTrue]

/-- `dataType()` fails exactly where the node it ends at has no type. -/
theorem Expr.dataType_eq_error_iff (expr : Expr) {behaviour : Undefined} :
    expr.dataType = .error behaviour ↔
      expr.typeSource.typeFault = some behaviour := by
  induction expr using Expr.children_induction with
  | step expr ih =>
      rcases expr.typeSource_cases with
        ⟨here, iff⟩ | ⟨child, inside, source, dataType⟩
      · rw [here]
        exact iff behaviour
      · rw [source, dataType]
        exact ih child inside

theorem Expr.eq_null_of_typeFault {expr : Expr}
    (missing : expr.typeFault = some .nullPointer) : expr = .null := by
  cases expr with
  | null => rfl
  | block scope expressions =>
      cases expressions <;> simp [Expr.typeFault] at missing
  | _ => simp [Expr.typeFault] at missing

/-- Where the question ends at a missing child, the walk meets the child. -/
theorem Expr.nullArgument_mem_sites (expr : Expr) (path : Path)
    (ends : expr.typeSource.typeFault = some .nullPointer) :
    ∃ place, ⟨place, .nullArgument⟩ ∈ expr.sites path := by
  induction expr using Expr.children_induction generalizing path with
  | step expr ih =>
      rcases expr.typeSource_cases with
        ⟨here, -⟩ | ⟨child, inside, source, -⟩
      · rw [here] at ends
        rw [Expr.eq_null_of_typeFault ends]
        exact ⟨path, by simp [Expr.sites]⟩
      · rw [source] at ends
        rcases ih child inside (⟨.expr expr, child.2⟩ :: path) ends with
          ⟨place, member⟩
        exact ⟨place, Expr.mem_sites.mpr (.inr ⟨child, inside, member⟩)⟩

/-- The question can end badly only at a missing child or at an empty Block. -/
theorem Expr.typeFault_eq {expr : Expr} {behaviour : Undefined}
    (fails : expr.typeFault = some behaviour) :
    behaviour = .nullPointer ∨ behaviour = .emptyVector := by
  cases expr with
  | null => exact .inl (Option.some.inj fails).symm
  | block scope expressions =>
      cases expressions with
      | nil => exact .inr (Option.some.inj fails).symm
      | cons head rest => simp [Expr.typeFault] at fails
  | _ => simp [Expr.typeFault] at fails

/-! ## Data types inside the walk -/

/-- The behaviours that computing a data type can end in. -/
def Undefined.OfDataType : Undefined → Prop
  | .nullPointer => True
  | .emptyVector => True
  | .emptyStack => False
  | .badCast => False

theorem Expr.ofDataType_of_typeFault {expr : Expr} {behaviour : Undefined}
    (fails : expr.typeFault = some behaviour) : behaviour.OfDataType := by
  rcases Expr.typeFault_eq fails with rfl | rfl
  · trivial
  · trivial

/-- No Binary that is left in the walk has an operand that ends in an empty Block. -/
def Module.OperandsEndWell (owner : Module) : Prop :=
  ∀ past path lValue operation rValue future,
    owner.sites =
        past ++ ⟨path, .visitedBinary lValue operation rValue⟩ :: future →
      Faultless predictedFault past →
        ¬ lValue.EndsInEmptyBlock ∧ ¬ rValue.EndsInEmptyBlock

/-- Both operands are walked before a Binary is left. -/
theorem Module.operand_mem_past {owner : Module} {past future : List Site}
    {path : Path} {lValue rValue : Expr} {operation : OperationKind}
    (split : owner.sites =
      past ++ ⟨path, .visitedBinary lValue operation rValue⟩ :: future)
    {operand : Expr × Nat}
    (inside : operand ∈ (Expr.binary lValue operation rValue).children) :
    ∀ site ∈ operand.1.sites
        (⟨.expr (.binary lValue operation rValue), operand.2⟩ :: path),
      site ∈ past := by
  have member :
      ⟨path, .visitedBinary lValue operation rValue⟩ ∈ owner.sites := by
    rw [split]
    exact List.mem_append_right _ List.mem_cons_self
  rcases Module.exists_subtree member id (by simp) with
    ⟨part, before, after, own, pieces⟩
  rw [Expr.eq_of_visitedBinary own, Expr.sites_eq rfl] at pieces
  -- the Binary is left after its opening and its operands
  have around : owner.sites =
      (before ++ ⟨path, .visitingNode (.expr (.binary lValue operation rValue))⟩ ::
        ⟨path, .visitingBinary lValue operation rValue⟩ ::
          (Expr.binary lValue operation rValue).innerSites path) ++
        ⟨path, .visitedBinary lValue operation rValue⟩ ::
          (⟨path, .visitedNode (.expr (.binary lValue operation rValue))⟩ ::
            after) := by
    rw [pieces]
    simp [bracket, Expr.opening, Expr.closing]
  intro site walked
  rw [Module.past_unique split around]
  refine List.mem_append_right _ (List.mem_cons_of_mem _ (List.mem_cons_of_mem _ ?_))
  exact List.mem_flatMap.mpr ⟨operand, inside, walked⟩

/-- A walk that leaves a Binary has tested the nodes its operands end at. -/
theorem Module.operand_present {owner : Module} {past future : List Site}
    {path : Path} {lValue rValue : Expr} {operation : OperationKind}
    (split : owner.sites =
      past ++ ⟨path, .visitedBinary lValue operation rValue⟩ :: future)
    (faultless : Faultless predictedFault past) {operand : Expr × Nat}
    (inside : operand ∈ (Expr.binary lValue operation rValue).children) :
    operand.1.typeSource.typeFault ≠ some .nullPointer := by
  intro ends
  rcases operand.1.nullArgument_mem_sites
      (⟨.expr (.binary lValue operation rValue), operand.2⟩ :: path) ends with
    ⟨place, member⟩
  have walked := Module.operand_mem_past split inside _ member
  rcases List.append_of_mem walked with ⟨before, after, parts⟩
  have silent : predictedFault before ⟨place, .nullArgument⟩ = none :=
    faultless before _ after parts
  rw [predictedFault_eq_faultBeforeStack rfl rfl] at silent
  cases silent

theorem operandFault_eq_undefined_iff {lValue rValue : Expr}
    {behaviour : Undefined} :
    operandFault lValue rValue = some (.undefined behaviour) ↔
      lValue.dataType = .error behaviour ∨
        (∃ dataType, lValue.dataType = .ok dataType) ∧
          rValue.dataType = .error behaviour := by
  rw [operandFault]
  cases left : lValue.dataType with
  | error other => simp
  | ok lType =>
      cases right : rValue.dataType with
      | error other => simp
      | ok rType =>
          by_cases same : lType = rType
          · simp [same]
          · simp [same]

/-- Of an operand that was walked, the type is missing only in an empty Block. -/
theorem Expr.dataType_ne_error_iff {operand : Expr}
    (present : operand.typeSource.typeFault ≠ some .nullPointer) :
    (∀ behaviour, operand.dataType ≠ .error behaviour) ↔
      ¬ operand.EndsInEmptyBlock := by
  constructor
  · intro typed ends
    exact typed .emptyVector (operand.dataType_eq_error_iff.mpr ends)
  · intro endsWell behaviour fails
    have source := operand.dataType_eq_error_iff.mp fails
    rcases Expr.typeFault_eq source with rfl | rfl
    · exact present source
    · exact endsWell source

/-- Comparing operands that were walked is defined exactly if both end well. -/
theorem operandFault_defined_iff {lValue rValue : Expr}
    (left : lValue.typeSource.typeFault ≠ some .nullPointer)
    (right : rValue.typeSource.typeFault ≠ some .nullPointer) :
    (∀ behaviour, operandFault lValue rValue ≠ some (.undefined behaviour)) ↔
      ¬ lValue.EndsInEmptyBlock ∧ ¬ rValue.EndsInEmptyBlock := by
  rw [← Expr.dataType_ne_error_iff left, ← Expr.dataType_ne_error_iff right]
  constructor
  · intro defined
    have leftTyped : ∀ behaviour, lValue.dataType ≠ .error behaviour :=
      fun behaviour fails => defined behaviour
        (operandFault_eq_undefined_iff.mpr (.inl fails))
    refine ⟨leftTyped, fun behaviour fails => ?_⟩
    cases typed : lValue.dataType with
    | error other => exact leftTyped other typed
    | ok dataType =>
        exact defined behaviour (operandFault_eq_undefined_iff.mpr
          (.inr ⟨⟨dataType, typed⟩, fails⟩))
  · rintro ⟨leftTyped, rightTyped⟩ behaviour fails
    rcases operandFault_eq_undefined_iff.mp fails with fails | ⟨-, fails⟩
    · exact leftTyped behaviour fails
    · exact rightTyped behaviour fails

/-- What comparing operands ends in is about data types. -/
theorem ofDataType_of_operandFault {lValue rValue : Expr}
    {behaviour : Undefined}
    (fails : operandFault lValue rValue = some (.undefined behaviour)) :
    behaviour.OfDataType := by
  have missing : ∀ operand : Expr, operand.dataType = .error behaviour →
      behaviour.OfDataType := by
    intro operand fails
    exact Expr.ofDataType_of_typeFault (operand.dataType_eq_error_iff.mp fails)
  rcases operandFault_eq_undefined_iff.mp fails with fails | ⟨-, fails⟩
  · exact missing lValue fails
  · exact missing rValue fails

/-- Only a Binary computes data types. -/
theorem operandFault_of_predictedFault {past : List Site} {site : Site}
    {behaviour : Undefined} (computes : behaviour.OfDataType)
    (fails : predictedFault past site = some (.undefined behaviour)) :
    ∃ lValue operation rValue,
      site.callback = .visitedBinary lValue operation rValue ∧
        operandFault lValue rValue = some (.undefined behaviour) := by
  have before : faultBeforeStack past site = some (.undefined behaviour) := by
    rw [predictedFault] at fails
    cases found : faultBeforeStack past site with
    | some fault =>
        rw [found] at fails
        exact fails
    | none =>
        rw [found] at fails
        by_cases few : valuesAfter past < site.callback.operands
        · simp only [few, if_true, Option.some.injEq,
            Fault.undefined.injEq] at fails
          subst fails
          exact computes.elim
        · simp only [few, if_false] at fails
          rcases site with ⟨path, callback⟩
          cases callback <;> simp [faultAfterStack, operationFault] at fails
          split at fails
          · cases fails
          · split at fails <;> cases fails
  rcases site with ⟨path, callback⟩
  cases callback with
  | visitedBinary lValue operation rValue =>
      exact ⟨lValue, operation, rValue, rfl, before⟩
  | visitVariableRef var =>
      simp only [faultBeforeStack, lookupFault] at before
      split at before <;> cases before
  | visitedAssignVariable var valueExpr =>
      simp only [faultBeforeStack, lookupFault] at before
      split at before <;> cases before
  | visitingBlock scope expressions => simp [faultBeforeStack] at before
  | visitingFunction func =>
      simp only [faultBeforeStack, functionFault] at before
      split at before
      · cases before
      · split at before
        · cases before
          exact computes.elim
        · cases before
  | _ => cases before

/-- Inside the walk a type is missing only where an operand ends in an empty Block. -/
theorem Module.computes_dataTypes_iff (owner : Module) :
    (∀ behaviour final, behaviour.OfDataType →
        walkTree codeGen owner {} ≠ .error (.undefined behaviour) final) ↔
      owner.OperandsEndWell := by
  have compared : ∀ {past future : List Site} {path : Path}
      {lValue rValue : Expr} {operation : OperationKind},
      owner.sites =
          past ++ ⟨path, .visitedBinary lValue operation rValue⟩ :: future →
        Faultless predictedFault past →
          ((∀ behaviour,
              operandFault lValue rValue ≠ some (.undefined behaviour)) ↔
            ¬ lValue.EndsInEmptyBlock ∧ ¬ rValue.EndsInEmptyBlock) := by
    intro past future path lValue rValue operation split faultless
    have left := Module.operand_present split faultless
      (show (lValue, 0) ∈ _ from List.mem_cons_self)
    have right := Module.operand_present split faultless
      (show (rValue, 1) ∈ _ from List.mem_cons_of_mem _ List.mem_cons_self)
    exact operandFault_defined_iff left right
  rw [walkTree_eq_run]
  constructor
  · intro never past path lValue operation rValue future split faultless
    refine (compared split faultless).mp fun behaviour fails => ?_
    have predicted :
        predictedFault past ⟨path, .visitedBinary lValue operation rValue⟩ =
          some (.undefined behaviour) := by
      simp only [predictedFault, faultBeforeStack, fails]
    rcases (codeGen_predicts owner).fails_iff.mpr
        ⟨past, _, future, split, faultless, predicted⟩ with ⟨final, ends⟩
    exact never behaviour final (ofDataType_of_operandFault fails) ends
  · intro endsWell behaviour final computes ends
    rcases (codeGen_predicts owner).fails_iff.mp ⟨final, ends⟩ with
      ⟨past, ⟨path, callback⟩, future, split, faultless, predicted⟩
    rcases operandFault_of_predictedFault computes predicted with
      ⟨lValue, operation, rValue, rfl, fails⟩
    exact (compared split faultless).mpr
      (endsWell past path lValue operation rValue future split faultless)
      behaviour fails

/-! ## The entry points -/

namespace ExprRunner

/--
A call that executes the entry block of the function on a machine of its own; a
function pointer that is null cannot be called.
-/
def machineCall (arith : FloatArith) : Call (Option Datum) :=
  fun context address =>
    match address with
    | none => .error (.undefined .nullPointer)
    | some function => .ok do
        let called ← context.llvmModule.functions[function]?
        let entry ← (context.llvmModule.functionBlocks function).head?
        Machine.execute arith called.returnType {}
          (context.llvmModule.blockCode entry)

/-- The entry points that are given one expression. -/
inductive EntryPoint where
  | compile
  | runFloatExpr
  | runInt32Expr
deriving DecidableEq, Repr

namespace EntryPoint

/-- The entry point does not refuse an expression of this type. -/
def Accepts : EntryPoint → DataType → Prop
  | .compile, _ => True
  | .runFloatExpr, dataType => dataType = .float
  | .runInt32Expr, dataType => dataType = .int32

/-- The module whose code the entry point generates. -/
def ownerOf (entry : EntryPoint) (expr : Expr) (dataType : DataType) : Module :=
  match entry with
  | .compile => exprModule "someModule" "someFunc" expr dataType
  | .runFloatExpr => exprModule "ExprModule" funcName expr dataType
  | .runInt32Expr => exprModule "ExprModule" funcName expr dataType

variable {Result : Type}

/-- What calling the entry point ends in, whatever it returns. -/
def outcome (entry : EntryPoint) (funcPtr : Call Result) (expr : Expr) :
    Except Fault Unit :=
  match entry with
  | .compile => ExprRunner.compile expr
  | .runFloatExpr => (ExprRunner.runFloatExpr funcPtr expr).map fun _ => ()
  | .runInt32Expr => (ExprRunner.runInt32Expr funcPtr expr).map fun _ => ()

/-- Calling a generated function computes no data type. -/
def Plain (funcPtr : Call Result) : Prop :=
  ∀ context function behaviour, behaviour.OfDataType →
    funcPtr context (some function) ≠ .error (.undefined behaviour)

theorem plain_machineCall (arith : FloatArith) : Plain (machineCall arith) := by
  intro context function behaviour computes fails
  cases fails

/--
The entry point computes no data type that is not there, and a missing child that the
walk gets to is reported as an invalid argument.
-/
structure SafeOn (entry : EntryPoint) (funcPtr : Call Result) (expr : Expr) :
    Prop where
  defined : ∀ behaviour, behaviour.OfDataType →
    entry.outcome funcPtr expr ≠ .error (.undefined behaviour)
  reportsMissing : ∀ dataType past path future,
    expr.dataType = .ok dataType → entry.Accepts dataType →
      (entry.ownerOf expr dataType).sites =
          past ++ ⟨path, .nullArgument⟩ :: future →
        Faultless predictedFault past →
          entry.outcome funcPtr expr = .error argNotNull

/--
The root has a type, and if the entry point accepts it, no Binary that the walk of the
module gets to leave has an operand with the type of an empty Block.
-/
def WellEnded (entry : EntryPoint) (expr : Expr) : Prop :=
  expr.typeSource.typeFault = none ∧
    ∀ dataType, expr.dataType = .ok dataType → entry.Accepts dataType →
      (entry.ownerOf expr dataType).OperandsEndWell

section Outcome

variable {entry : EntryPoint} {funcPtr : Call Result} {expr : Expr}
variable {dataType : DataType}

theorem dataTypeOf_of_error {behaviour : Undefined}
    (untyped : expr.dataType = .error behaviour) :
    dataTypeOf expr = .error (.undefined behaviour) := by
  rw [dataTypeOf, untyped]

theorem dataTypeOf_of_ok (typed : expr.dataType = .ok dataType) :
    dataTypeOf expr = .ok dataType := by
  rw [dataTypeOf, typed]

/-- An entry point asks the root for its type before it does anything else. -/
theorem outcome_of_untyped {behaviour : Undefined}
    (untyped : expr.dataType = .error behaviour) :
    entry.outcome funcPtr expr = .error (.undefined behaviour) := by
  have asked := dataTypeOf_of_error untyped
  cases entry <;>
    simp [outcome, ExprRunner.compile, ExprRunner.runFloatExpr,
      ExprRunner.runInt32Expr, runExpr, asked, bind, Except.bind, Except.map]

theorem runExpr_of_refused {required : DataType} {refusal : String}
    (typed : expr.dataType = .ok dataType) (other : dataType ≠ required) :
    runExpr funcPtr required refusal expr =
      .error (.thrown (.fatalException refusal)) := by
  simp only [runExpr, dataTypeOf_of_ok typed, bind, Except.bind, ne_eq, other,
    not_false_eq_true, if_true]
  rfl

/-- A refused expression is answered by an exception. -/
theorem outcome_of_refused (funcPtr : Call Result)
    (typed : expr.dataType = .ok dataType)
    (refused : ¬ entry.Accepts dataType) :
    ∃ exception, entry.outcome funcPtr expr = .error (.thrown exception) := by
  cases entry with
  | compile => exact absurd trivial refused
  | runFloatExpr =>
      refine ⟨.fatalException "expr->dataType() != DataType::Float", ?_⟩
      rw [outcome, ExprRunner.runFloatExpr, runExpr_of_refused typed refused]
      rfl
  | runInt32Expr =>
      refine ⟨.fatalException "expr->dataType() != DataType::Int32", ?_⟩
      rw [outcome, ExprRunner.runInt32Expr, runExpr_of_refused typed refused]
      rfl

theorem runExpr_of_walk_error {refusal : String} {fault : Fault}
    {final : CodeGenVisitor} (typed : expr.dataType = .ok dataType)
    (fails : walkTree codeGen
      (exprModule "ExprModule" funcName expr dataType) {} =
        .error fault final) :
    runExpr funcPtr dataType refusal expr = .error fault := by
  simp [runExpr, makeExecutionContext, ExecutionContext.addModule,
    dataTypeOf_of_ok typed, fails, resultOf, bind, Except.bind]

/-- The function pointer that is called is not null. -/
theorem runExpr_of_walk_ok {refusal : String} {final : CodeGenVisitor}
    (typed : expr.dataType = .ok dataType)
    (completes : walkTree codeGen
      (exprModule "ExprModule" funcName expr dataType) {} = .ok () final) :
    ∃ context function,
      runExpr funcPtr dataType refusal expr = funcPtr context (some function) := by
  have place :
      ∃ func, (exprModule "ExprModule" funcName expr dataType).functions[0]? =
        some (some func) ∧ func.name = funcName :=
    ⟨_, rfl, rfl⟩
  obtain ⟨func, place, named⟩ := place
  obtain ⟨block, -, symbol, -⟩ := Module.symbol_of_walk completes place
  have known : final.module_.getFunction funcName = some block.parent := by
    rw [← named]
    exact symbol (by rw [named]; decide)
  refine ⟨⟨final.module_⟩, block.parent, ?_⟩
  rw [← known]
  simp [runExpr, makeExecutionContext, ExecutionContext.addModule,
    dataTypeOf_of_ok typed, completes, resultOf, bind, Except.bind, pure,
    Except.pure, ExecutionContext.getSymbolAddress]

/-- What the walk ends in is what the entry point ends in. -/
theorem outcome_of_walk_error (typed : expr.dataType = .ok dataType)
    (accepts : entry.Accepts dataType) {fault : Fault} {final : CodeGenVisitor}
    (fails : walkTree codeGen (entry.ownerOf expr dataType) {} =
      .error fault final) :
    entry.outcome funcPtr expr = .error fault := by
  cases entry with
  | compile =>
      simp only [ownerOf] at fails
      simp [outcome, ExprRunner.compile, dataTypeOf_of_ok typed, fails,
        resultOf, bind, Except.bind]
  | runFloatExpr =>
      cases accepts
      rw [outcome, ExprRunner.runFloatExpr, runExpr_of_walk_error typed fails]
      rfl
  | runInt32Expr =>
      cases accepts
      rw [outcome, ExprRunner.runInt32Expr, runExpr_of_walk_error typed fails]
      rfl

/-- Once the code is generated, the entry point computes no more data types. -/
theorem outcome_of_walk_ok (plain : Plain funcPtr)
    (typed : expr.dataType = .ok dataType) (accepts : entry.Accepts dataType)
    {final : CodeGenVisitor}
    (completes : walkTree codeGen (entry.ownerOf expr dataType) {} =
      .ok () final) {behaviour : Undefined} (computes : behaviour.OfDataType) :
    entry.outcome funcPtr expr ≠ .error (.undefined behaviour) := by
  have called : ∀ context function,
      (funcPtr context (some function)).map (fun _ => ()) ≠
        .error (.undefined behaviour) := by
    intro context function
    have other := plain context function behaviour computes
    cases result : funcPtr context (some function) with
    | ok value => simp [Except.map]
    | error fault =>
        rw [result] at other
        simpa [Except.map] using other
  cases entry with
  | compile =>
      simp only [ownerOf] at completes
      simp [outcome, ExprRunner.compile, dataTypeOf_of_ok typed, completes,
        resultOf, bind, Except.bind, pure, Except.pure]
  | runFloatExpr =>
      cases accepts
      rcases runExpr_of_walk_ok typed completes with ⟨context, function, calls⟩
      rw [outcome, ExprRunner.runFloatExpr, calls]
      exact called context function
  | runInt32Expr =>
      cases accepts
      rcases runExpr_of_walk_ok typed completes with ⟨context, function, calls⟩
      rw [outcome, ExprRunner.runInt32Expr, calls]
      exact called context function

end Outcome

/--
An entry point is safe on a tree exactly if the node the type of the tree comes from
is neither missing nor an empty Block, and no Binary that is left in the walk of an
accepted tree has an operand with the type of an empty Block.
-/
theorem safeOn_iff_wellEnded {Result : Type} {funcPtr : Call Result}
    (plain : Plain funcPtr) (entry : EntryPoint) (expr : Expr) :
    entry.SafeOn funcPtr expr ↔ entry.WellEnded expr := by
  constructor
  · intro safe
    constructor
    · rw [Option.eq_none_iff_forall_ne_some]
      intro behaviour source
      exact safe.defined behaviour (Expr.ofDataType_of_typeFault source)
        (outcome_of_untyped (expr.dataType_eq_error_iff.mpr source))
    · intro dataType typed accepts
      apply (Module.computes_dataTypes_iff _).mp
      intro behaviour final computes fails
      exact safe.defined behaviour computes
        (outcome_of_walk_error typed accepts fails)
  · rintro ⟨rooted, inside⟩
    constructor
    · intro behaviour computes
      cases typed : expr.dataType with
      | error other =>
          rw [expr.dataType_eq_error_iff, rooted] at typed
          cases typed
      | ok dataType =>
          by_cases accepts : entry.Accepts dataType
          · cases walked : walkTree codeGen (entry.ownerOf expr dataType) {} with
            | ok result final =>
                exact outcome_of_walk_ok plain typed accepts walked computes
            | error fault final =>
                rw [outcome_of_walk_error typed accepts walked]
                rintro same
                cases same
                exact (Module.computes_dataTypes_iff _).mpr
                  (inside dataType typed accepts) behaviour final computes walked
          · rcases outcome_of_refused funcPtr typed accepts with
              ⟨exception, refused⟩
            rw [refused]
            simp
    · intro dataType past path future typed accepts split faultless
      have predicted : predictedFault past ⟨path, .nullArgument⟩ =
          some argNotNull :=
        predictedFault_eq_faultBeforeStack rfl rfl
      rcases (codeGen_predicts _).fails_iff.mpr
          ⟨past, _, future, split, faultless, predicted⟩ with ⟨final, fails⟩
      rw [← walkTree_eq_run] at fails
      exact outcome_of_walk_error typed accepts fails

/-- `{ }`. -/
def emptyBlock : Expr :=
  BlockBuilder.build {} .insertion

/-- `{ { } return 8; }`. -/
def returnAfterEmptyBlock : Expr :=
  let bb := (BlockBuilder.addExpression {} emptyBlock).addExpression
    (.return (.literalInt32 8))
  bb.build .insertion

/-- An empty Block whose type nothing asks for does no harm. -/
theorem safeOn_iff_wellEnded_returnAfterEmptyBlock :
    runInt32Expr.SafeOn (machineCall .binary32) returnAfterEmptyBlock ∧
      runInt32Expr.WellEnded returnAfterEmptyBlock := by
  have noBinary : ∀ site ∈
      (runInt32Expr.ownerOf returnAfterEmptyBlock .int32).sites,
        site.callback.operands ≠ 2 := by
    decide +kernel
  have wellEnded : runInt32Expr.WellEnded returnAfterEmptyBlock := by
    refine ⟨by decide +kernel, ?_⟩
    rintro dataType - rfl past path lValue operation rValue future split -
    refine absurd rfl (noBinary ⟨path, .visitedBinary lValue operation rValue⟩ ?_)
    rw [split]
    exact List.mem_append_right _ List.mem_cons_self
  exact ⟨(safeOn_iff_wellEnded (plain_machineCall .binary32) runInt32Expr
    returnAfterEmptyBlock).mpr wellEnded, wellEnded⟩

/--
The root `{ }` and the missing value of a Return are asked for their types before the
walk, and `{ } + 1` inside it.
-/
theorem malformed_trees_are_asked :
    ExprRunner.compile emptyBlock = .error (.undefined .emptyVector) ∧
      ExprRunner.compile (.return .null) = .error (.undefined .nullPointer) ∧
        ExprRunner.compile (.binary emptyBlock .add (.literalInt32 1)) =
            .error (.undefined .emptyVector) ∧
          ¬ compile.SafeOn (fun _ _ => .ok ()) emptyBlock ∧
            ¬ compile.SafeOn (fun _ _ => .ok ()) (.return .null) ∧
              ¬ compile.SafeOn (fun _ _ => .ok ())
                (.binary emptyBlock .add (.literalInt32 1)) := by
  have root : ExprRunner.compile emptyBlock = .error (.undefined .emptyVector) := by
    decide +kernel
  have value :
      ExprRunner.compile (.return .null) = .error (.undefined .nullPointer) := by
    decide +kernel
  have operand :
      ExprRunner.compile (.binary emptyBlock .add (.literalInt32 1)) =
        .error (.undefined .emptyVector) := by
    decide +kernel
  refine ⟨root, value, operand, fun safe => ?_, fun safe => ?_, fun safe => ?_⟩
  · exact safe.defined .emptyVector trivial root
  · exact safe.defined .nullPointer trivial value
  · exact safe.defined .emptyVector trivial operand

end EntryPoint

end ExprRunner

end Llast
