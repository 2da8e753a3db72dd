import Llast.StatementPrograms

/-!
# Which programs are rejected

A program made of statements is rejected exactly if some node of it is faulty, with
the exception of the first faulty node.  The order is that of the callbacks: a
Function and a Block count when they are entered, all other nodes when they are
left.
-/

namespace Llast

open Llast.EventRun
open Llast.CodeGenVisitor

/-! ## Faulty nodes -/

/-- The node this callback is about is faulty, and this is its exception. -/
inductive Faulty : Site → Exception → Prop where
  | operandTypes {lValue rValue : Expr} {lType rType : DataType}
      (path operation)
      (left : lValue.dataType = .ok lType)
      (right : rValue.dataType = .ok rType) (different : lType ≠ rType) :
      Faulty ⟨path, .visitedBinary lValue operation rValue⟩ dataTypeMismatch
  | operandType {lValue rValue : Expr} {dataType : DataType}
      (path operation)
      (left : lValue.dataType = .ok dataType)
      (right : rValue.dataType = .ok dataType)
      (notInt32 : dataType ≠ .int32) (notFloat : dataType ≠ .float) :
      Faulty ⟨path, .visitedBinary lValue operation rValue⟩
        .unhandledSwitchCase
  | declaration {scope : Scope} {var : Variable} (path expressions)
      (declared : var ∈ scope.variables)
      (unmapped : ∀ type, getType var.dataType ≠ .ok type) :
      Faulty ⟨path, .visitingBlock scope expressions⟩ .unhandledSwitchCase
  | returnType {func : Function} (path)
      (unmapped : ∀ type, getType func.returnType ≠ .ok type) :
      Faulty ⟨path, .visitingFunction func⟩ .unhandledSwitchCase
  | variableRef {var : Variable} {path : Path}
      (undeclared : ∀ block ∈ enclosingBlocks path,
        ¬ block.2.Declares var.name) :
      Faulty ⟨path, .visitVariableRef var⟩ (notDefined var.name)
  | assignVariable {var : Variable} {path : Path} (valueExpr)
      (undeclared : ∀ block ∈ enclosingBlocks path,
        ¬ block.2.Declares var.name) :
      Faulty ⟨path, .visitedAssignVariable var valueExpr⟩
        (notDefined var.name)

/-- Every Block of the module has a scope that a `ScopeBuilder` has built. -/
def Module.BlocksBuilt (owner : Module) : Prop :=
  ∀ path scope expressions,
    ⟨path, .visitingBlock scope expressions⟩ ∈ owner.sites → scope.Built

/-! ## The fault of a callback is that of its node -/

/-- `getType` throws one exception only. -/
theorem unhandled_of_getType {dataType : DataType} {exception : Exception}
    (unmapped : getType dataType = .error exception) :
    exception = .unhandledSwitchCase := by
  cases dataType <;> cases unmapped
  rfl

/-- With distinct names only a type can make a declaration fail. -/
theorem declarationFault_eq_some_iff {vars : List Variable}
    {seen : List String} {exception : Exception}
    (distinct : (vars.map Variable.name).Nodup)
    (fresh : ∀ var ∈ vars, var.name ∉ seen) :
    declarationFault vars seen = some exception ↔
      exception = .unhandledSwitchCase ∧
        ∃ var ∈ vars, ∀ type, getType var.dataType ≠ .ok type := by
  induction vars generalizing seen with
  | nil => simp [declarationFault]
  | cons var rest ih =>
      have unseen := fresh var List.mem_cons_self
      rw [List.map_cons, List.nodup_cons] at distinct
      rw [declarationFault, if_neg unseen]
      cases mapped : getType var.dataType with
      | error thrown =>
          have same := unhandled_of_getType mapped
          subst same
          simp only [Option.some.injEq, List.mem_cons, exists_eq_or_imp, mapped,
            ne_eq, reduceCtorEq, not_false_eq_true, implies_true, true_or,
            and_true]
          exact eq_comm
      | ok type =>
          have later : ∀ next ∈ rest, next.name ∉ var.name :: seen := by
            intro next member same
            rcases List.mem_cons.mp same with equal | before
            · exact distinct.1 (equal ▸ List.mem_map_of_mem member)
            · exact fresh next (List.mem_cons_of_mem _ member) before
          simp only [ih distinct.2 later, List.mem_cons, exists_eq_or_imp,
            mapped]
          simp

theorem lookupFault_eq_some_iff {path : Path} {name : String}
    {fault : Fault} :
    lookupFault path name = some fault ↔
      fault = .thrown (notDefined name) ∧
        ∀ block ∈ enclosingBlocks path, ¬ block.2.Declares name := by
  rw [lookupFault]
  by_cases declared :
      ∃ block ∈ enclosingBlocks path, block.2.Declares name
  · rcases declared with ⟨block, member, declares⟩
    simp only [reduceCtorEq, false_iff, not_and, if_pos
      (show ∃ block ∈ enclosingBlocks path, block.2.Declares name from
        ⟨block, member, declares⟩)]
    exact fun _ none => none block member declares
  · rw [if_neg declared]
    push Not at declared
    simp only [Option.some.injEq]
    exact ⟨fun same => ⟨same.symm, declared⟩, fun holds => holds.1.symm⟩

section FaultOfNode

variable {path : Path} {fault : Fault}

theorem treeFault_visitingBlock_iff {past : List Site} {scope : Scope}
    {expressions : List Expr} (built : scope.Built) :
    treeFault past ⟨path, .visitingBlock scope expressions⟩ = some fault ↔
      ∃ exception, fault = .thrown exception ∧
        Faulty ⟨path, .visitingBlock scope expressions⟩ exception := by
  rw [treeFault_eq_faultBeforeStack rfl, faultBeforeStack,
    Option.map_eq_some_iff]
  constructor
  · rintro ⟨exception, faulty, rfl⟩
    rcases (declarationFault_eq_some_iff built.distinctNames (by simp)).mp faulty with
      ⟨rfl, var, member, unmapped⟩
    exact ⟨_, rfl, .declaration path expressions member unmapped⟩
  · rintro ⟨exception, rfl, faulty⟩
    cases faulty with
    | declaration _ _ member unmapped =>
        exact ⟨_, (declarationFault_eq_some_iff built.distinctNames
          (by simp)).mpr ⟨rfl, _, member, unmapped⟩, rfl⟩

theorem treeFault_visitVariableRef_iff {past : List Site} {var : Variable} :
    treeFault past ⟨path, .visitVariableRef var⟩ = some fault ↔
      ∃ exception, fault = .thrown exception ∧
        Faulty ⟨path, .visitVariableRef var⟩ exception := by
  rw [treeFault_eq_faultBeforeStack rfl, faultBeforeStack,
    lookupFault_eq_some_iff]
  constructor
  · rintro ⟨rfl, undeclared⟩
    exact ⟨_, rfl, .variableRef undeclared⟩
  · rintro ⟨exception, rfl, faulty⟩
    cases faulty with
    | variableRef undeclared => exact ⟨rfl, undeclared⟩

theorem treeFault_visitedAssignVariable_iff {past : List Site}
    {var : Variable} {valueExpr : Expr} :
    treeFault past ⟨path, .visitedAssignVariable var valueExpr⟩ = some fault ↔
      ∃ exception, fault = .thrown exception ∧
        Faulty ⟨path, .visitedAssignVariable var valueExpr⟩ exception := by
  rw [treeFault_eq_faultBeforeStack rfl, faultBeforeStack,
    lookupFault_eq_some_iff]
  constructor
  · rintro ⟨rfl, undeclared⟩
    exact ⟨_, rfl, .assignVariable valueExpr undeclared⟩
  · rintro ⟨exception, rfl, faulty⟩
    cases faulty with
    | assignVariable _ undeclared => exact ⟨rfl, undeclared⟩

/-- A Binary whose operands have types is faulty in one of two ways. -/
theorem faulty_visitedBinary_iff {lValue rValue : Expr}
    {operation : OperationKind} {lType rType : DataType}
    (left : lValue.dataType = .ok lType)
    (right : rValue.dataType = .ok rType) {exception : Exception} :
    Faulty ⟨path, .visitedBinary lValue operation rValue⟩ exception ↔
      lType ≠ rType ∧ exception = dataTypeMismatch ∨
        lType = rType ∧ opcodeOf rType operation = none ∧
          exception = .unhandledSwitchCase := by
  constructor
  · intro faulty
    cases faulty with
    | operandTypes _ _ otherLeft otherRight different =>
        cases left.symm.trans otherLeft
        cases right.symm.trans otherRight
        exact .inl ⟨different, rfl⟩
    | operandType _ _ otherLeft otherRight notInt32 notFloat =>
        cases left.symm.trans otherLeft
        cases right.symm.trans otherRight
        exact .inr ⟨rfl, opcodeOf_eq_none_iff.mpr ⟨notInt32, notFloat⟩, rfl⟩
  · rintro (⟨different, rfl⟩ | ⟨rfl, unhandled, rfl⟩)
    · exact .operandTypes path operation left right different
    · rcases opcodeOf_eq_none_iff.mp unhandled with ⟨notInt32, notFloat⟩
      exact .operandType path operation left right notInt32 notFloat

theorem treeFault_visitedBinary_iff {past : List Site}
    {lValue rValue : Expr} {operation : OperationKind}
    {lType rType : DataType} (left : lValue.dataType = .ok lType)
    (right : rValue.dataType = .ok rType) :
    treeFault past ⟨path, .visitedBinary lValue operation rValue⟩ =
        some fault ↔
      ∃ exception, fault = .thrown exception ∧
        Faulty ⟨path, .visitedBinary lValue operation rValue⟩ exception := by
  simp only [faulty_visitedBinary_iff left right, treeFault, faultBeforeStack,
    faultAfterStack, operandFault, operationFault, left, right]
  by_cases equal : lType = rType
  · by_cases unhandled : opcodeOf rType operation = none
    · simp [equal, unhandled, eq_comm]
    · simp [equal, unhandled]
  · simp [equal, eq_comm]

theorem treeFault_visitingFunction_iff {past : List Site} {func : Function}
    (fresh : ∀ earlier ∈ enteredFunctions past, earlier.name ≠ func.name) :
    treeFault past ⟨path, .visitingFunction func⟩ = some fault ↔
      ∃ exception, fault = .thrown exception ∧
        Faulty ⟨path, .visitingFunction func⟩ exception := by
  simp only [treeFault, faultBeforeStack, faultAfterStack, functionFault]
  cases mapped : getType func.returnType with
  | error thrown =>
      have same := unhandled_of_getType mapped
      subst same
      simp only [Option.some.injEq]
      constructor
      · rintro rfl
        exact ⟨_, rfl, .returnType path (by simp [mapped])⟩
      · rintro ⟨exception, rfl, faulty⟩
        cases faulty
        rfl
  | ok returnType =>
      have unclashing : ¬ ∃ earlier ∈ enteredFunctions past,
          earlier.name = func.name ∧
            llvmType earlier.returnType ≠ returnType := by
        rintro ⟨earlier, member, same, -⟩
        exact fresh earlier member same
      simp only [unclashing, and_false, if_false, reduceCtorEq, false_iff,
        not_exists, not_and]
      rintro exception - faulty
      cases faulty with
      | returnType _ unmapped => exact unmapped returnType mapped

end FaultOfNode

/-! ## The first faulty node -/

section FirstFaulty

variable {owner : Module} (structured : owner.Structured)
variable (built : owner.BlocksBuilt) (distinct : owner.DistinctNames)

include structured built distinct

theorem treeFault_eq_some_iff {past future : List Site} {site : Site}
    (split : owner.sites = past ++ site :: future) {fault : Fault} :
    treeFault past site = some fault ↔
      ∃ exception, fault = .thrown exception ∧ Faulty site exception := by
  have member : site ∈ owner.sites := by simp [split]
  rcases site with ⟨path, callback⟩
  cases callback with
  | nullArgument =>
      rcases Module.mem_sites member with
        ⟨-, own⟩ | ⟨child, place, -⟩ | ⟨child, func, place, ⟨-, own⟩ | inside⟩
      · simp [Module.ownCallbacks] at own
      · rcases structured.body place with ⟨func, absurdity, -⟩
        cases absurdity
      · simp [Function.ownCallbacks] at own
      · exact absurd rfl ((structured.statement place).callback inside).1
  | visitingBlock scope expressions =>
      exact treeFault_visitingBlock_iff (built path scope expressions member)
  | visitVariableRef var => exact treeFault_visitVariableRef_iff
  | visitedAssignVariable var valueExpr =>
      exact treeFault_visitedAssignVariable_iff
  | visitedBinary lValue operation rValue =>
      rcases Module.mem_sites member with
        ⟨-, own⟩ | ⟨child, -, same⟩ | ⟨child, func, place, ⟨-, own⟩ | inside⟩
      · simp [Module.ownCallbacks] at own
      · cases same
      · simp [Function.ownCallbacks] at own
      · rcases ((structured.statement place).callback inside).2 _ _ _ rfl with
          ⟨left, right⟩
        rcases left.dataType with ⟨lType, leftTyped⟩
        rcases right.dataType with ⟨rType, rightTyped⟩
        exact treeFault_visitedBinary_iff leftTyped rightTyped
  | visitingFunction func =>
      apply treeFault_visitingFunction_iff
      rcases Module.mem_sites member with
        ⟨-, own⟩ | ⟨child, -, same⟩ | ⟨child, other, place, ⟨here, own⟩ | inside⟩
      · simp [Module.ownCallbacks] at own
      · cases same
      · simp only [Function.ownCallbacks, List.mem_cons, reduceCtorEq,
          Callback.visitingFunction.injEq, List.not_mem_nil, or_false,
          false_or] at own
        subst own
        cases here
        have around := Module.sites_around place
        rw [List.append_cons] at around
        rw [Module.past_unique split around, enteredFunctions,
          List.foldl_append]
        change ∀ earlier ∈ enteredFunctions (owner.sitesBefore child),
          earlier.name ≠ func.name
        rw [enteredFunctions_sitesBefore]
        exact distinct.fresh place
      · exact absurd trivial (Expr.not_outer_of_mem_sites inside)
  | _ =>
      simp only [treeFault, faultBeforeStack, faultAfterStack, reduceCtorEq,
        false_iff, not_exists, not_and]
      rintro exception - faulty
      cases faulty

/-- No callback has a fault exactly if no node is faulty. -/
theorem faultless_iff_not_faulty {past future : List Site}
    (split : owner.sites = past ++ future) :
    Faultless treeFault past ↔
      ∀ site ∈ past, ∀ exception, ¬ Faulty site exception := by
  constructor
  · intro faultless site member exception faulty
    rcases List.append_of_mem member with ⟨before, after, parts⟩
    have occurs : owner.sites = before ++ site :: (after ++ future) := by
      rw [split, parts, List.append_assoc, List.cons_append]
    have found := (treeFault_eq_some_iff structured built distinct
      occurs).mpr ⟨exception, rfl, faulty⟩
    rw [faultless before site after parts] at found
    cases found
  · intro sound before site after parts
    have occurs : owner.sites = before ++ site :: (after ++ future) := by
      rw [split, parts, List.append_assoc, List.cons_append]
    cases found : treeFault before site with
    | none => rfl
    | some fault =>
        rcases (treeFault_eq_some_iff structured built distinct occurs).mp found with
          ⟨exception, -, faulty⟩
        refine absurd faulty (sound site ?_ exception)
        rw [parts]
        exact List.mem_append_right _ List.mem_cons_self

end FirstFaulty

/--
A program made of statements, with distinct function names and with scopes made by
`BlockBuilder`, is rejected exactly if a node is faulty.  The exception is the one of
the first faulty node in the order of the walk, and no walk of such a program runs
into undefined behaviour.
-/
theorem rejects_exactly_the_first_faulty (owner : Module)
    (structured : owner.Structured) (built : owner.BlocksBuilt)
    (distinct : owner.DistinctNames) :
    ((∃ final, walkTree codeGen owner {} = .ok () final) ↔
      ∀ site ∈ owner.sites, ∀ exception, ¬ Faulty site exception) ∧
    (∀ exception,
      (∃ final, walkTree codeGen owner {} =
          .error (.thrown exception) final) ↔
        ∃ past site future, owner.sites = past ++ site :: future ∧
          Faulty site exception ∧
            ∀ earlier ∈ past, ∀ other, ¬ Faulty earlier other) ∧
    ∀ behaviour final,
      walkTree codeGen owner {} ≠ .error (.undefined behaviour) final := by
  have fails : ∀ fault,
      (∃ final, walkTree codeGen owner {} = .error fault final) ↔
        ∃ past site future, owner.sites = past ++ site :: future ∧
          (∀ earlier ∈ past, ∀ other, ¬ Faulty earlier other) ∧
            ∃ exception, fault = .thrown exception ∧
              Faulty site exception := by
    intro fault
    rw [walkTree_eq_run, (codeGen_predicts owner).fails_iff]
    constructor
    · rintro ⟨past, site, future, split, faultless, predicted⟩
      rw [structured.faultless_iff split,
        faultless_iff_not_faulty structured built distinct split] at faultless
      rw [structured.predictedFault_eq split,
        treeFault_eq_some_iff structured built distinct split] at predicted
      exact ⟨past, site, future, split, faultless, predicted⟩
    · rintro ⟨past, site, future, split, sound, faulty⟩
      refine ⟨past, site, future, split, ?_, ?_⟩
      · rw [structured.faultless_iff split,
          faultless_iff_not_faulty structured built distinct split]
        exact sound
      · rw [structured.predictedFault_eq split,
          treeFault_eq_some_iff structured built distinct split]
        exact faulty
  refine ⟨?_, ?_, ?_⟩
  · have whole := (List.append_nil owner.sites).symm
    rw [walkTree_eq_run, structured.completes_iff whole,
      faultless_iff_not_faulty structured built distinct whole]
  · intro exception
    rw [fails]
    constructor
    · rintro ⟨past, site, future, split, sound, other, same, faulty⟩
      cases same
      exact ⟨past, site, future, split, faulty, sound⟩
    · rintro ⟨past, site, future, split, faulty, sound⟩
      exact ⟨past, site, future, split, sound, exception, rfl, faulty⟩
  · intro behaviour final stops
    rcases (fails (.undefined behaviour)).mp ⟨final, stops⟩ with
      ⟨past, site, future, split, sound, other, same, faulty⟩
    cases same

/-- `void f() { x + 1.0f; }`, where no `x` is declared: two nodes are faulty. -/
def undeclaredModule : Module :=
  let bb := BlockBuilder.addExpression {}
    (.binary (.variableRef ⟨0, "x", .int32⟩) .add (.literalFloat 0x3f800000))
  let fb : FunctionBuilder :=
    { name_ := "f", returnType_ := .void, blockBuilder_ := bb }
  (ModuleBuilder.addFunction { name_ := "undeclared" }
    (some (fb.build .insertion .insertion))).build

theorem undeclaredModule_structured : undeclaredModule.Structured := by
  intro entry member
  refine ⟨_, _, _, List.mem_singleton.mp member, rfl, ?_⟩
  intro child inside
  rw [List.mem_singleton.mp inside]
  exact .value (.binary .add (.variableRef _) (.literalFloat _))

theorem undeclaredModule_built : undeclaredModule.BlocksBuilt := by
  intro path scope expressions member
  have occurs : ∀ site ∈ undeclaredModule.sites, ∀ scope expressions,
      site.callback = .visitingBlock scope expressions →
        scope = ScopeBuilder.build .new .insertion := by
    simp [undeclaredModule, ModuleBuilder.addFunction, ModuleBuilder.build,
      FunctionBuilder.build, BlockBuilder.build, BlockBuilder.addExpression,
      Module.sites, functionSites, Function.sites, Expr.sites, childSites,
      bracket]
  exact ⟨[], .insertion, occurs _ member scope expressions rfl⟩

/-- The reference comes before the operation, and the walk throws its exception. -/
theorem rejects_undeclared :
    (∃ final, walkTree codeGen undeclaredModule {} =
        .error (.thrown (notDefined "x")) final) ∧
      ∃ site ∈ undeclaredModule.sites, Faulty site dataTypeMismatch := by
  have distinct : undeclaredModule.DistinctNames := by
    simp [Module.DistinctNames, undeclaredModule, ModuleBuilder.addFunction,
      ModuleBuilder.build]
  constructor
  · refine ((rejects_exactly_the_first_faulty undeclaredModule
      undeclaredModule_structured undeclaredModule_built distinct).2.1
        (notDefined "x")).mpr
      ⟨undeclaredModule.sites.take 9, _, undeclaredModule.sites.drop 10, rfl,
        .variableRef ?_, ?_⟩
    · rintro block member ⟨var, declared, -⟩
      rcases List.mem_singleton.mp member with rfl
      cases declared
    · have quiet : Faultless treeFault (undeclaredModule.sites.take 9) := by
        decide +kernel
      exact (faultless_iff_not_faulty undeclaredModule_structured
        undeclaredModule_built distinct (List.take_append_drop 9 _).symm).mp quiet
  · exact ⟨undeclaredModule.sites[14], List.getElem_mem _,
      .operandTypes _ .add rfl rfl (by decide)⟩

end Llast
