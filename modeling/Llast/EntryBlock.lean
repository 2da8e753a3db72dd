import Llast.ExprRunner
import Llast.Linkage
import Llast.TypeSoundness

/-!
# The block of the function that is run

`runInt32Expr` and `runFloatExpr` put one expression into a function of one block and
call it.  A `ret` is emitted wherever a Return is visited, and nowhere else, so the
block ends in its only `ret` exactly if the walk visits one Return and emits nothing
after it.
-/

namespace Llast

open Llast.EventRun
open Llast.CodeGenVisitor

/-! ## Blocks that return -/

/-- The operation is a `ret`. -/
def Operation.IsRet : Operation → Prop
  | .ret _ => True
  | _ => False

instance : DecidablePred Operation.IsRet
  | .ret _ => .isTrue trivial
  | .alloca _ _ => .isFalse id
  | .load _ => .isFalse id
  | .store _ _ => .isFalse id
  | .binary _ _ _ => .isFalse id

/-- The operations end in a `ret` and contain no other. -/
def EndsInOnlyRet (operations : List Operation) : Prop :=
  ∃ before value, operations = before ++ [.ret value] ∧
    ∀ operation ∈ before, ¬ operation.IsRet

theorem EndsInOnlyRet.exists_ret {operations : List Operation}
    (ends : EndsInOnlyRet operations) :
    ∃ operation ∈ operations, operation.IsRet := by
  rcases ends with ⟨before, value, rfl, -⟩
  exact ⟨.ret value, by simp, trivial⟩

/-- A `ret` is the only one exactly if there was none before. -/
theorem endsInOnlyRet_append_ret {before : List Operation} {value : Value} :
    EndsInOnlyRet (before ++ [.ret value]) ↔
      ∀ operation ∈ before, ¬ operation.IsRet := by
  constructor
  · rintro ⟨other, otherValue, same, none⟩
    rw [(List.append_inj' same rfl).1]
    exact none
  · intro none
    exact ⟨before, value, rfl, none⟩

/-- Code that goes on after a `ret` does not end in it. -/
theorem not_endsInOnlyRet_append {before after : List Operation}
    (more : after ≠ []) (none : ∀ operation ∈ after, ¬ operation.IsRet) :
    ¬ EndsInOnlyRet (before ++ after) := by
  rintro ⟨other, value, same, -⟩
  rcases List.eq_nil_or_concat after |>.resolve_left more with ⟨rest, last, rfl⟩
  rw [List.concat_eq_append, ← List.append_assoc] at same
  have equal := List.singleton_inj.mp (List.append_inj' same rfl).2
  exact none last (by simp) (equal ▸ trivial)

/-! ## Walks that return -/

/-- The callback of a Return after its value. -/
def Callback.IsReturn : Callback → Prop
  | .visitedReturn _ => True
  | _ => False

/-- The callback emits an instruction when it comes after these callbacks. -/
def Site.Emits (past : List Site) (site : Site) : Prop :=
  match site.callback, kindsAfter past with
  | .visitingBlock scope _, _ => scope.variables ≠ []
  | .visitVariableRef _, _ => True
  | .visitedAssignVariable _ _, _ => True
  | .visitedBinary _ _ _, rValue :: lValue :: _ =>
      (lValue.constant && rValue.constant) = false
  | .visitedReturn _, _ => True
  | _, _ => False

/-- There is one Return, and nothing after it emits an instruction. -/
def ReturnsLast (sites : List Site) : Prop :=
  ∃ before site after, sites = before ++ site :: after ∧
    site.callback.IsReturn ∧
      (∀ earlier ∈ before, ¬ earlier.callback.IsReturn) ∧
        ∀ middle later rest, after = middle ++ later :: rest →
          ¬ later.Emits (before ++ site :: middle)

theorem ReturnsLast.exists_return {sites : List Site}
    (returns : ReturnsLast sites) :
    ∃ site ∈ sites, site.callback.IsReturn := by
  rcases returns with ⟨before, site, after, rfl, isReturn, -⟩
  exact ⟨site, by simp, isReturn⟩

theorem Site.emits_of_isReturn {past : List Site} {site : Site}
    (isReturn : site.callback.IsReturn) : site.Emits past := by
  rcases site with ⟨path, callback⟩
  cases callback <;> first | exact isReturn.elim | trivial

/-- What one more callback does to a walk that returns. -/
theorem returnsLast_append_singleton {past : List Site} {site : Site} :
    ReturnsLast (past ++ [site]) ↔
      site.callback.IsReturn ∧
          (∀ earlier ∈ past, ¬ earlier.callback.IsReturn) ∨
        ReturnsLast past ∧ ¬ site.Emits past := by
  constructor
  · rintro ⟨before, event, after, split, isReturn, first, silent⟩
    rcases append_singleton_eq_iff.mp split with
      ⟨rfl, rfl, -⟩ | ⟨rest, rfl, rfl⟩
    · exact .inl ⟨isReturn, first⟩
    · refine .inr ⟨⟨before, event, rest, rfl, isReturn, first, ?_⟩, ?_⟩
      · intro middle later others same
        exact silent middle later (others ++ [site]) (by simp [same])
      · exact silent rest site [] rfl
  · rintro (⟨isReturn, first⟩ | ⟨returns, quiet⟩)
    · exact ⟨past, site, [], rfl, isReturn, first, by simp⟩
    · rcases returns with ⟨before, event, after, rfl, isReturn, first, silent⟩
      refine ⟨before, event, after ++ [site], by simp, isReturn, first, ?_⟩
      intro middle later rest same
      rcases append_singleton_eq_iff.mp same with
        ⟨rfl, rfl, -⟩ | ⟨others, -, inside⟩
      · exact quiet
      · exact silent middle later others inside

/-! ## The code of a walk -/

/-- The operations emitted so far. -/
def CodeGenVisitor.code (visitor : CodeGenVisitor) : List Operation :=
  visitor.module_.instructions.map Instruction.operation

/-- Outside the opening of a module every callback adds its operations. -/
theorem CodeGenVisitor.Performs.code {before after : CodeGenVisitor}
    {callback : Callback} (performs : Performs before callback after)
    (inside : ∀ owner, callback ≠ .visitingModule owner) :
    after.code = before.code ++ before.operations callback := by
  by_cases moves : callback.Moves
  · rcases performs.of_moves moves with ⟨func, rfl⟩ | ⟨owner, rfl, -⟩
    · rcases performs.of_visitingFunction with
        ⟨returnType, owner, index, -, inserts, rfl⟩
      have same := (LlvmModule.getOrInsertFunction_entry inserts).2.1
      simp [CodeGenVisitor.code, entered, same, operations]
    · exact absurd rfl (inside owner)
  · rw [CodeGenVisitor.code, (performs.emits moves).instructions,
      List.map_append, map_operation_placed]
    rfl

/-- A Return emits a `ret`. -/
theorem CodeGenVisitor.Performs.operations_of_isReturn
    {before after : CodeGenVisitor} {callback : Callback}
    (performs : Performs before callback after)
    (isReturn : callback.IsReturn) :
    ∃ value, before.operations callback = [.ret value] := by
  cases performs with
  | visitedReturn valueExpr stack =>
      rename_i value rest
      exact ⟨value, by simp [operations, stack]⟩
  | silent visitor notOverridden =>
      cases callback <;>
        first | exact notOverridden.elim | exact isReturn.elim
  | _ => exact isReturn.elim

/-- Nothing else emits a `ret`. -/
theorem CodeGenVisitor.not_isRet_of_mem_operations {visitor : CodeGenVisitor}
    {callback : Callback} (other : ¬ callback.IsReturn) {operation : Operation}
    (member : operation ∈ visitor.operations callback) :
    ¬ operation.IsRet := by
  cases callback with
  | visitedReturn valueExpr => exact absurd trivial other
  | visitingBlock scope expressions =>
      rcases List.mem_map.mp member with ⟨var, -, rfl⟩
      exact id
  | visitVariableRef var =>
      simp only [operations] at member
      split at member
      · rw [List.mem_singleton.mp member]
        exact id
      · cases member
  | visitedAssignVariable var valueExpr =>
      simp only [operations] at member
      split at member
      · rw [List.mem_singleton.mp member]
        exact id
      · cases member
  | visitedBinary lValue op rValue =>
      simp only [operations, binaryOperations] at member
      split at member
      · split at member
        · split at member
          · cases member
          · rw [List.mem_singleton.mp member]
            exact id
        · cases member
      · cases member
  | _ => cases member

/-- Whether a callback emits something can be read off the tree. -/
theorem Module.Reaches.operations_eq_nil_iff {owner : Module}
    {past : List Site} {site : Site} {before after : CodeGenVisitor}
    (reached : owner.Reaches past site before)
    (performs : Performs before site.callback after) :
    before.operations site.callback = [] ↔ ¬ site.Emits past := by
  have kinds := reached.kinds
  rcases site with ⟨path, callback⟩
  cases performs with
  | visitingBlock expressions faultless => simp [operations, Site.Emits]
  | visitVariableRef found => simp [operations, found, Site.Emits]
  | visitedAssignVariable valueExpr found stack =>
      simp [operations, found, stack, Site.Emits]
  | visitedBinary left right chosen stack =>
      rename_i opcode lValue rValue rest
      rw [stack] at kinds
      simp only [operations, stack, right, chosen, Site.Emits, ← kinds,
        List.map_cons, Value.kind, binaryOperations]
      cases folded : lValue.isConstant && rValue.isConstant with
      | true => simp
      | false => simp
  | visitedReturn valueExpr stack => simp [operations, stack, Site.Emits]
  | silent visitor notOverridden =>
      cases callback <;>
        first | exact notOverridden.elim | simp [operations, Site.Emits]
  | _ => simp [operations, Site.Emits]

/-- The code returns where the walk does. -/
structure ReturnedSoFar (past : List Site) (visitor : CodeGenVisitor) :
    Prop where
  noRet : (∀ operation ∈ visitor.code, ¬ operation.IsRet) ↔
    ∀ site ∈ past, ¬ site.callback.IsReturn
  endsInOnlyRet : EndsInOnlyRet visitor.code ↔ ReturnsLast past

theorem ReturnedSoFar.step {owner : Module} {past : List Site} {site : Site}
    {before after : CodeGenVisitor}
    (reached : owner.Reaches past site before)
    (performs : Performs before site.callback after)
    (inside : ∀ owner, site.callback ≠ .visitingModule owner)
    (returned : ReturnedSoFar past before) :
    ReturnedSoFar (past ++ [site]) after := by
  have code := performs.code inside
  have emits := reached.operations_eq_nil_iff performs
  by_cases isReturn : site.callback.IsReturn
  · rcases performs.operations_of_isReturn isReturn with ⟨value, same⟩
    rw [same] at code
    constructor
    · rw [code]
      constructor
      · intro none
        exact absurd trivial (none (.ret value) (by simp))
      · intro none
        exact absurd isReturn (none site (by simp))
    · rw [code, endsInOnlyRet_append_ret, returned.noRet,
        returnsLast_append_singleton]
      simp [isReturn, Site.emits_of_isReturn isReturn]
  · have noRet : ∀ operation ∈ before.operations site.callback,
        ¬ operation.IsRet := by
      intro operation member
      exact not_isRet_of_mem_operations isReturn member
    constructor
    · rw [code, List.forall_mem_append, List.forall_mem_append,
        returned.noRet]
      apply and_congr_right
      intro _
      simpa [isReturn] using noRet
    · rw [code, returnsLast_append_singleton, ← returned.endsInOnlyRet]
      by_cases nothing : before.operations site.callback = []
      · simp [nothing, isReturn, emits.mp nothing]
      · have emitting : site.Emits past :=
          not_not.mp fun quiet => nothing (emits.mpr quiet)
        simp [isReturn, emitting, not_endsInOnlyRet_append nothing noRet]

theorem Module.returnedSoFar_of_run {owner : Module} {past future : List Site}
    {visitor : CodeGenVisitor} (split : owner.sites = past ++ future)
    (reaches : run codeGen.performAt past {} = .ok () visitor) :
    ReturnedSoFar past visitor := by
  -- nothing is emitted before the first Return
  have none : ∀ (past : List Site) (visitor : CodeGenVisitor),
      visitor.code = [] → (∀ site ∈ past, ¬ site.callback.IsReturn) →
        ReturnedSoFar past visitor := by
    intro past visitor empty noReturn
    refine ⟨⟨fun _ => noReturn, fun _ => ?_⟩, ⟨fun ends => ?_, fun returns => ?_⟩⟩
    · simp [empty]
    · rcases ends.exists_ret with ⟨operation, member, -⟩
      rw [empty] at member
      cases member
    · rcases returns.exists_return with ⟨site, member, isReturn⟩
      exact absurd isReturn (noReturn site member)
  refine owner.reached_induction (motive := ReturnedSoFar)
    (none [] {} rfl (by simp)) ?_ split reaches
  intro past site before after reached performs returned
  by_cases opening : ∃ owner, site.callback = .visitingModule owner
  · rcases opening with ⟨other, entering⟩
    rcases site with ⟨path, callback⟩
    rcases reached.occurs with ⟨future, occurs⟩
    subst entering
    rw [Module.past_of_visitingModule occurs]
    cases performs with
    | visitingModule visitor other =>
        exact none _ _ rfl (by simp [Callback.IsReturn])
    | silent visitor notOverridden => exact notOverridden.elim
  · exact returned.step reached performs (not_exists.mp opening)

/-! ## Running an expression -/

namespace ExprRunner

section Run

variable {expr : Expr} {dataType : DataType} {context : ExecutionContext}

theorem makeExecutionContext_eq_ok
    (typed : dataTypeOf expr = .ok dataType)
    (generates : makeExecutionContext expr = .ok context) :
    ∃ final, walkTree codeGen
        (exprModule "ExprModule" funcName expr dataType) {} = .ok () final ∧
      context.llvmModule = final.module_ := by
  rw [makeExecutionContext, typed] at generates
  change ExecutionContext.addModule _ = _ at generates
  unfold ExecutionContext.addModule at generates
  cases walked : walkTree codeGen
      (exprModule "ExprModule" funcName expr dataType) {} with
  | ok _ final =>
      rw [walked] at generates
      cases generates
      exact ⟨final, rfl, rfl⟩
  | error fault final =>
      rw [walked] at generates
      cases generates

/-- What is called is the function of the generated module. -/
theorem runExpr_eq {Result : Type} (funcPtr : Call Result) (refusal : String)
    (typed : dataTypeOf expr = .ok dataType)
    (generates : makeExecutionContext expr = .ok context) :
    runExpr funcPtr dataType refusal expr =
      funcPtr context (context.getSymbolAddress funcName) := by
  simp only [runExpr, typed, generates, bind, Except.bind, ne_eq,
    not_true_eq_false, if_false]

end Run

theorem exprModule_distinctNames (moduleName functionName : String)
    (expr : Expr) (dataType : DataType) :
    (exprModule moduleName functionName expr dataType).DistinctNames :=
  List.nodup_singleton functionName

/-- All code of the module lies in the block of its function. -/
theorem blockCode_of_exprModule {moduleName functionName : String}
    {expr : Expr} {dataType : DataType} {final : CodeGenVisitor}
    (completes : walkTree codeGen
      (exprModule moduleName functionName expr dataType) {} =
        .ok () final) :
    (final.module_.blockCode 0).map Instruction.operation = final.code := by
  rcases Module.added_of_walk completes with ⟨-, middle, added, same⟩
  have blocks := added.blocks
  have one : (exprModule moduleName functionName expr
      dataType).functions.reduceOption.length = 1 := rfl
  have none : (exprModule moduleName functionName expr
      dataType).entryState.module_.blocks.length = 0 := rfl
  rcases added.code with ⟨code, codeEq, codeIn⟩
  rw [CodeGenVisitor.code, LlvmModule.blockCode, List.filter_eq_self.mpr]
  intro instruction member
  rw [same, codeEq] at member
  have bound := (codeIn instruction member).2
  rw [blocks, one, none] at bound
  simp only [decide_eq_true_eq]
  omega

/-- The context of a block without any instruction. -/
def emptyBlockContext : ExecutionContext where
  llvmModule :=
    { name := "ExprModule"
      functions := [⟨funcName, .int32, []⟩]
      blocks := [⟨"functionBody", 0⟩] }

/--
If an entry point gets as far as calling the function, the function it calls has one
block, and this block ends in its only `ret` exactly if the walk visits one Return
and emits nothing after it.
-/
theorem called_block_returns_iff (expr : Expr) {dataType : DataType}
    {context : ExecutionContext} (typed : dataTypeOf expr = .ok dataType)
    (generates : makeExecutionContext expr = .ok context) :
    (∃ index block, context.getSymbolAddress funcName = some index ∧
        context.llvmModule.functionBlocks index = [block] ∧
          EndsInOnlyRet ((context.llvmModule.blockCode block).map
            Instruction.operation)) ↔
      ReturnsLast (exprModule "ExprModule" funcName expr dataType).sites := by
  rcases makeExecutionContext_eq_ok typed generates with
    ⟨final, completes, same⟩
  have place : (exprModule "ExprModule" funcName expr dataType).functions[0]? =
      some (some _) := rfl
  have own := Module.ownFunction_of_distinct completes
    (exprModule_distinctNames _ _ _ _) (show funcName ≠ "" by decide) place
  rcases own.symbol with ⟨index, symbol, -, blocks⟩
  have code := blockCode_of_exprModule completes
  rw [walkTree_eq_run] at completes
  have returned := Module.returnedSoFar_of_run
    (List.append_nil _).symm completes
  rw [← returned.endsInOnlyRet, ExecutionContext.getSymbolAddress, same]
  constructor
  · rintro ⟨other, block, found, only, ends⟩
    have equal : other = index := Option.some.inj (found.symm.trans symbol)
    rw [equal, blocks] at only
    cases only
    rw [← code]
    exact ends
  · intro ends
    rw [← code] at ends
    exact ⟨index, 0, symbol, blocks, ends⟩

/-- `runInt32Expr` of the literal 1 calls a function whose block is empty. -/
theorem literal_is_called_without_ret :
    dataTypeOf (.literalInt32 1) = .ok .int32 ∧
      makeExecutionContext (.literalInt32 1) = .ok emptyBlockContext ∧
        (∀ funcPtr : Call (BitVec 32),
          runInt32Expr funcPtr (.literalInt32 1) =
            funcPtr emptyBlockContext (some 0)) ∧
          emptyBlockContext.llvmModule.functionBlocks 0 = [0] ∧
            ¬ EndsInOnlyRet
              ((emptyBlockContext.llvmModule.blockCode 0).map
                Instruction.operation) := by
  have generates : makeExecutionContext (.literalInt32 1) =
      .ok emptyBlockContext := by
    decide +kernel
  have symbol : emptyBlockContext.getSymbolAddress funcName = some 0 := by
    decide +kernel
  refine ⟨rfl, generates, fun funcPtr => ?_, by decide, fun ends => ?_⟩
  · rw [← symbol]
    exact runExpr_eq funcPtr _ rfl generates
  · rcases ends.exists_ret with ⟨operation, member, -⟩
    cases member

/-- `{ return 7; 1 + 2; }`: nothing is emitted for what comes after the Return. -/
def returnBeforeFold : Expr :=
  let bb := (BlockBuilder.addExpression {} (.return (.literalInt32 7))).addExpression
    (.binary (.literalInt32 1) .add (.literalInt32 2))
  bb.build .insertion

/-- The context of a block that returns 7. -/
def returnSevenContext : ExecutionContext where
  llvmModule :=
    { name := "ExprModule"
      functions := [⟨funcName, .int32, []⟩]
      blocks := [⟨"functionBody", 0⟩]
      instructions := [⟨0, 0, .ret (.constant (.int 7))⟩] }

theorem called_block_returns_iff_returnBeforeFold :
    (∃ index block,
        returnSevenContext.getSymbolAddress funcName = some index ∧
          returnSevenContext.llvmModule.functionBlocks index = [block] ∧
            EndsInOnlyRet ((returnSevenContext.llvmModule.blockCode block).map
              Instruction.operation)) ∧
      ReturnsLast
        (exprModule "ExprModule" funcName returnBeforeFold .int32).sites := by
  have generates :
      makeExecutionContext returnBeforeFold = .ok returnSevenContext := by
    decide +kernel
  refine (and_iff_left_of_imp
    (called_block_returns_iff returnBeforeFold rfl generates).mp).mpr ?_
  exact ⟨0, 0, by decide +kernel, by decide +kernel, [], _, rfl, by simp⟩

end ExprRunner

end Llast
