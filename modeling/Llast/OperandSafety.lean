import Llast.ExprRunner
import Llast.Forecast
import Llast.Subtrees

/-!
# Reading from the empty value stack

`visitedBinary`, `visitedAssignVariable` and `visitedReturn` read `valueStack_`
without looking at its size.  A Return pushes nothing and a Block drops a value
whatever its expressions have pushed, so a Return or a Block as an operand can
leave its parent without values.
-/

namespace Llast

open Llast.EventRun
open Llast.CodeGenVisitor

/-- No child is missing, and no Block is empty. -/
inductive Expr.Complete : Expr → Prop where
  | literalInt32 (value) : Expr.Complete (.literalInt32 value)
  | literalFloat (value) : Expr.Complete (.literalFloat value)
  | variableRef (var) : Expr.Complete (.variableRef var)
  | binary {lValue rValue : Expr} (operation)
      (left : lValue.Complete) (right : rValue.Complete) :
      Expr.Complete (.binary lValue operation rValue)
  | assignVariable {valueExpr : Expr} (var) (value : valueExpr.Complete) :
      Expr.Complete (.assignVariable var valueExpr)
  | «return» {valueExpr : Expr} (value : valueExpr.Complete) :
      Expr.Complete (.return valueExpr)
  | block {expressions : List Expr} (scope) (nonempty : expressions ≠ [])
      (each : ∀ child ∈ expressions, child.Complete) :
      Expr.Complete (.block scope expressions)

/-- Every function is there and has a complete body. -/
def Module.Complete (owner : Module) : Prop :=
  ∀ entry ∈ owner.functions, ∃ func, entry = some func ∧ func.body.Complete

theorem Expr.Complete.child {expr : Expr} (complete : expr.Complete) :
    ∀ child ∈ expr.children, child.1.Complete := by
  intro child member
  cases complete with
  | binary operation left right =>
      simp only [Expr.children, List.mem_cons, List.not_mem_nil, or_false]
        at member
      rcases member with rfl | rfl
      · exact left
      · exact right
  | assignVariable var value =>
      rw [List.mem_singleton.mp member]
      exact value
  | «return» value =>
      rw [List.mem_singleton.mp member]
      exact value
  | block scope nonempty each =>
      exact each child.1 (List.fst_mem_of_mem_zipIdx member)
  | literalInt32 | literalFloat | variableRef => cases member

/-- A complete tree has a data type. -/
theorem Expr.Complete.dataType {expr : Expr} (complete : expr.Complete) :
    ∃ dataType, expr.dataType = .ok dataType := by
  induction complete with
  | literalInt32 value => exact ⟨_, rfl⟩
  | literalFloat value => exact ⟨_, rfl⟩
  | variableRef var => exact ⟨_, rfl⟩
  | binary operation left right leftIH rightIH =>
      rw [Expr.dataType]
      exact rightIH
  | assignVariable var value valueIH => exact ⟨_, rfl⟩
  | «return» value valueIH =>
      rw [Expr.dataType]
      exact valueIH
  | @block expressions scope nonempty each eachIH =>
      rw [Expr.dataType]
      clear each
      induction expressions with
      | nil => exact absurd rfl nonempty
      | cons head rest ih =>
          cases rest with
          | nil =>
              rw [backDataType]
              exact eachIH head List.mem_cons_self
          | cons next rest =>
              rw [backDataType]
              exact ih (List.cons_ne_nil _ _) fun child member =>
                eachIH child (List.mem_cons_of_mem _ member)

/-- In a complete module the operands of every Binary have a data type. -/
theorem Module.Complete.operands {owner : Module} (complete : owner.Complete)
    {path : Path} {lValue rValue : Expr} {operation : OperationKind}
    (member : ⟨path, .visitedBinary lValue operation rValue⟩ ∈ owner.sites) :
    ∃ lType rType, lValue.dataType = .ok lType ∧
      rValue.dataType = .ok rType := by
  rcases Module.mem_sites member with
    ⟨-, own⟩ | ⟨child, -, same⟩ | ⟨child, func, place, ⟨-, own⟩ | inBody⟩
  · simp [Module.ownCallbacks] at own
  · cases same
  · simp [Function.ownCallbacks] at own
  · rcases complete _ (List.mem_of_getElem? place) with ⟨other, same, body⟩
    cases same
    rcases
      Expr.sites_hereditary (fun _ => Expr.Complete.child) func.body body inBody with
      ⟨part, partComplete, own⟩
    cases partComplete <;>
      simp [Expr.ownCallbacks, bracketCallbacks, Expr.isNull, Expr.opening,
        Expr.closing] at own
    rename_i left right
    rcases own with ⟨rfl, rfl, rfl⟩
    rcases left.dataType with ⟨lType, leftTyped⟩
    rcases right.dataType with ⟨rType, rightTyped⟩
    exact ⟨lType, rType, leftTyped, rightTyped⟩

/-! ## When no operand is missing -/

/--
A callback finds what it reads, or throws an exception with the visitor as it was.
-/
def OperandsPresent (site : Site) (visitor : CodeGenVisitor) : Prop :=
  site.callback.operands ≤ visitor.valueStack_.length ∨
    ∃ exception,
      codeGen.performAt site visitor = .error (.thrown exception) visitor

/-- A callback that reads the stack throws its own exceptions before it does. -/
theorem Module.Reaches.rejects {owner : Module} {past : List Site}
    {site : Site} {visitor : CodeGenVisitor} (complete : owner.Complete)
    (reached : owner.Reaches past site visitor)
    (stops : faultBeforeStack past site ≠ none) :
    OperandsPresent site visitor := by
  rcases reached.occurs with ⟨future, split⟩
  rcases reached.framed with ⟨frames, framed⟩
  rcases site with ⟨path, callback⟩
  cases callback with
  | visitedAssignVariable var valueExpr =>
      right
      simp only [faultBeforeStack, framed.lookupFault_eq var.name] at stops
      cases found : findAlloca var.name visitor.allocaScopeStack_ with
      | some inst => simp [found] at stops
      | none =>
          have throws :
              CodeGenVisitor.visitedAssignVariable var valueExpr visitor = _ :=
            visitedAssignVariable_of_none found
          exact ⟨_, throws⟩
  | visitedBinary lValue operation rValue =>
      right
      obtain ⟨lType, rType, left, right⟩ := complete.operands
        (show ⟨path, .visitedBinary lValue operation rValue⟩ ∈ owner.sites by
          simp [split])
      by_cases same : lType = rType
      · simp [faultBeforeStack, operandFault, left, right, same] at stops
      · exact ⟨_, visitedBinary_of_mismatch left right same⟩
  | visitedReturn valueExpr => exact absurd rfl stops
  | _ => exact .inl (Nat.zero_le _)

/-- Where every callback finds its operands, no walk reads an empty stack. -/
theorem walkTree_does_not_underflow {owner : Module}
    (present : ∀ past site visitor, owner.Reaches past site visitor →
      OperandsPresent site visitor) :
    faultOf (walkTree codeGen owner {}) ≠ some (.undefined .emptyStack) := by
  intro underflows
  rw [← ends_iff, walkTree_eq_run] at underflows
  rcases (codeGen_predicts owner).fails_iff.mp underflows with
    ⟨before, reader, after, occurs, smooth, predicted⟩
  rcases (codeGen_predicts owner).reached_iff.mpr ⟨⟨after, occurs⟩, smooth⟩ with
    ⟨visitor, reached⟩
  have missing := (predictedFault_eq_emptyStack_iff.mp predicted).2
  have ends := Module.Reaches.ends reached
  rw [predicted] at ends
  rcases ends with ⟨stop, reads⟩
  rcases present before reader visitor reached with
    enough | ⟨exception, throws⟩
  · rw [Module.Reaches.valueStack_length reached] at enough
    omega
  · rw [reads] at throws
    cases throws

/--
In a module without missing children and empty Blocks, every callback of the walk
finds the values it reads or throws before it reads them, exactly if each callback
that comes before the first fault of the tree and throws nothing itself before it
reads has at least as many values as it reads left on the stack by the callbacks
before it.
-/
theorem operands_present_iff (owner : Module) (complete : owner.Complete) :
    (∀ past site visitor, owner.Reaches past site visitor →
        OperandsPresent site visitor) ↔
      ∀ past site future, owner.sites = past ++ site :: future →
        Faultless treeFault past → faultBeforeStack past site = none →
          site.callback.operands ≤ valuesAfter past := by
  constructor
  · intro present past site future split faultless passes
    by_contra few
    have underflows := (walkTree_underflows_iff owner).mpr
      ⟨past, site, future, split, faultless, passes, Nat.not_le.mp few⟩
    exact walkTree_does_not_underflow present (ends_iff.mp underflows)
  · intro enough past site visitor reached
    by_cases passes : faultBeforeStack past site = none
    · left
      rcases reached.occurs with ⟨future, split⟩
      have faultless :=
        ((codeGen_predicts owner).reached_iff.mp ⟨visitor, reached⟩).2
      rw [reached.valueStack_length]
      refine enough past site future split ?_ passes
      intro before earlier after earlierSplit
      exact treeFault_eq_none (faultless before earlier after earlierSplit)
    · exact reached.rejects complete passes

/-- `Return(1 + 2)`, as `runInt32Expr` compiles it. -/
def returnOfSum : Module :=
  ExprRunner.exprModule "ExprModule" ExprRunner.funcName
    (.return (.binary (.literalInt32 1) .add (.literalInt32 2))) .int32

theorem returnOfSum_complete : returnOfSum.Complete := by
  intro entry member
  refine ⟨_, List.mem_singleton.mp member, .block _ (List.cons_ne_nil _ _) ?_⟩
  intro child inside
  rw [List.mem_singleton.mp inside]
  exact .return (.binary .add (.literalInt32 1) (.literalInt32 2))

/-- The sum finds its operands, and the Return the sum. -/
theorem operands_present_returnOfSum :
    returnOfSum.Complete ∧
      ∀ past site visitor, returnOfSum.Reaches past site visitor →
        OperandsPresent site visitor := by
  have enough : Throughout
      (fun past site => site.callback.operands ≤ valuesAfter past)
      returnOfSum.sites := by
    decide +kernel
  refine ⟨returnOfSum_complete,
    (operands_present_iff returnOfSum returnOfSum_complete).mpr ?_⟩
  exact fun past site future split _ _ => enough past site future split

/-- `Return(Return(1))`, as `runInt32Expr` compiles it. -/
def returnOfReturn : Module :=
  ExprRunner.exprModule "ExprModule" ExprRunner.funcName
    (.return (.return (.literalInt32 1))) .int32

theorem returnOfReturn_complete : returnOfReturn.Complete := by
  intro entry member
  refine ⟨_, List.mem_singleton.mp member, .block _ (List.cons_ne_nil _ _) ?_⟩
  intro child inside
  rw [List.mem_singleton.mp inside]
  exact .return (.return (.literalInt32 1))

/-- The outer Return of a Return of a value finds nothing to return. -/
theorem return_of_return_underflows :
    returnOfReturn.Complete ∧
      faultOf (walkTree codeGen returnOfReturn {}) =
        some (.undefined .emptyStack) ∧
      ¬ ∀ past site visitor, returnOfReturn.Reaches past site visitor →
        OperandsPresent site visitor := by
  have underflows :
      faultOf (walkTree codeGen returnOfReturn {}) =
        some (.undefined .emptyStack) := by decide +kernel
  exact ⟨returnOfReturn_complete, underflows,
    fun present => walkTree_does_not_underflow present underflows⟩

end Llast
