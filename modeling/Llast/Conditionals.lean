import Llast.SsaForm

/-!
# Conditionals

`CodeGenVisitor` overrides none of the callbacks of a Conditional, so the condition and
both arms are emitted one after another and all of them are executed.  An arm is skipped
by accident only: a Return or an undefined operation stands before what it assigns.  As
an operand the Conditional is whatever callback has pushed last.
-/

namespace Llast

open Llast.EventRun
open Llast.CodeGenVisitor

/-! ## What an expression is worth in a run -/

/--
A condition of this worth selects the true arm.  Binary32 has two zeros, and a value that
is left open selects neither arm.
-/
def Datum.NonZero : Datum → Prop
  | .int value => value ≠ 0
  | .float value => value ≠ 0 ∧ value ≠ 0x80000000
  | .undef => False

/-- A condition of this worth selects the false arm. -/
def Datum.Zero : Datum → Prop
  | .int value => value = 0
  | .float value => value = 0 ∨ value = 0x80000000
  | .undef => False

theorem Datum.Zero.not_nonZero {datum : Datum} (zero : datum.Zero) :
    ¬ datum.NonZero := by
  intro nonZero
  cases datum with
  | int value => exact nonZero zero
  | float value => exact zero.elim nonZero.1 nonZero.2
  | undef => exact zero

/--
What the values on the stack are worth after some callbacks, the topmost first; nothing
is known where a run does not get so far.
-/
abbrev Readings :=
  List Site → Option (List (Option Datum))

/-- The callback of a node that computes a value of its own. -/
def Expr.computing : Expr → Option Callback
  | .literalInt32 value => some (.visitLiteralInt32 value)
  | .literalFloat value => some (.visitLiteralFloat value)
  | .variableRef var => some (.visitVariableRef var)
  | .binary lValue operation rValue =>
      some (.visitedBinary lValue operation rValue)
  | _ => none

/-- The node of a Conditional. -/
abbrev conditionalNode (condition truePart falsePart : Expr) : Node :=
  .expr (.conditional condition truePart falsePart)

/--
What an expression at a place of a module is worth: an assignment what is assigned, a
Block what its last expression is, a Conditional what the selected arm is.
-/
inductive Module.HasWorth (owner : Module) (readings : Readings) :
    Expr → Path → Datum → Prop where
  | computed {expr : Expr} {path : Path} {callback : Callback}
      {past future : List Site} {datum : Datum} {rest : List (Option Datum)}
      (own : expr.computing = some callback)
      (occurs : owner.sites = past ++ ⟨path, callback⟩ :: future)
      (reads : readings (past ++ [⟨path, callback⟩]) = some (some datum :: rest)) :
      HasWorth owner readings expr path datum
  | assigned {var : Variable} {valueExpr : Expr} {path : Path} {datum : Datum}
      (value : HasWorth owner readings valueExpr
        (⟨.expr (.assignVariable var valueExpr), 0⟩ :: path) datum) :
      HasWorth owner readings (.assignVariable var valueExpr) path datum
  | last {scope : Scope} {expressions : List Expr} {back : Expr} {path : Path}
      {datum : Datum} (stands : expressions.getLast? = some back)
      (value : HasWorth owner readings back
        (⟨.expr (.block scope expressions), expressions.length - 1⟩ :: path)
        datum) :
      HasWorth owner readings (.block scope expressions) path datum
  | truePart {condition truePart falsePart : Expr} {path : Path}
      {test datum : Datum}
      (tested : HasWorth owner readings condition
        (⟨conditionalNode condition truePart falsePart, 0⟩ :: path) test)
      (selects : test.NonZero)
      (value : HasWorth owner readings truePart
        (⟨conditionalNode condition truePart falsePart, 1⟩ :: path) datum) :
      HasWorth owner readings (.conditional condition truePart falsePart) path
        datum
  | falsePart {condition truePart falsePart : Expr} {path : Path}
      {test datum : Datum}
      (tested : HasWorth owner readings condition
        (⟨conditionalNode condition truePart falsePart, 0⟩ :: path) test)
      (selects : test.Zero)
      (value : HasWorth owner readings falsePart
        (⟨conditionalNode condition truePart falsePart, 2⟩ :: path) datum) :
      HasWorth owner readings (.conditional condition truePart falsePart) path
        datum

/-- An expression is worth one thing at most. -/
theorem Module.HasWorth.unique {owner : Module} {readings : Readings}
    {expr : Expr} {path : Path} {datum other : Datum}
    (worth : owner.HasWorth readings expr path datum)
    (otherWorth : owner.HasWorth readings expr path other) : datum = other := by
  induction worth generalizing other with
  | computed own occurs reads =>
      cases otherWorth with
      | computed otherOwn otherOccurs otherReads =>
          rw [own] at otherOwn
          cases otherOwn
          rw [Module.past_unique occurs otherOccurs, otherReads] at reads
          cases reads
          rfl
      | _ => cases own
  | assigned value ih =>
      cases otherWorth with
      | computed own occurs reads => cases own
      | assigned otherValue => exact ih otherValue
  | last stands value ih =>
      cases otherWorth with
      | computed own occurs reads => cases own
      | last otherStands otherValue =>
          rw [stands] at otherStands
          cases otherStands
          exact ih otherValue
  | truePart tested selects value testIH valueIH =>
      cases otherWorth with
      | computed own occurs reads => cases own
      | truePart otherTested otherSelects otherValue => exact valueIH otherValue
      | falsePart otherTested otherSelects otherValue =>
          rw [testIH otherTested] at selects
          exact absurd selects otherSelects.not_nonZero
  | falsePart tested selects value testIH valueIH =>
      cases otherWorth with
      | computed own occurs reads => cases own
      | truePart otherTested otherSelects otherValue =>
          rw [testIH otherTested] at selects
          exact absurd otherSelects selects.not_nonZero
      | falsePart otherTested otherSelects otherValue => exact valueIH otherValue

/-- Only what is known after callbacks of the module matters. -/
theorem Module.HasWorth.congr {owner : Module} {readings other : Readings}
    (same : ∀ past future, owner.sites = past ++ future →
      other past = readings past) {expr : Expr} {path : Path} {datum : Datum}
    (worth : owner.HasWorth readings expr path datum) :
    owner.HasWorth other expr path datum := by
  induction worth with
  | computed own occurs reads =>
      rename_i future datum rest
      refine .computed own occurs ((same _ future ?_).trans reads)
      rw [occurs, List.append_assoc]
      rfl
  | assigned value ih => exact .assigned ih
  | last stands value ih => exact .last stands ih
  | truePart tested selects value testIH valueIH =>
      exact .truePart testIH selects valueIH
  | falsePart tested selects value testIH valueIH =>
      exact .falsePart testIH selects valueIH

/-! ## Selecting an arm -/

/-- The callback assigns a variable. -/
def Callback.Assigns : Callback → Prop
  | .visitedAssignVariable _ _ => True
  | _ => False

/-- The condition is worth something that selects the arm. -/
def Module.Selects (owner : Module) (readings : Readings) (condition : Expr × Path)
    (selects : Datum → Prop) : Prop :=
  ∃ test, owner.HasWorth readings condition.1 condition.2 test ∧ selects test

/--
An assignment in the arm is carried out only if the condition is worth something that
selects the arm.
-/
def Module.StoresOnlyIf (owner : Module) (readings : Readings)
    (condition arm : Expr × Path) (selects : Datum → Prop) : Prop :=
  ∀ past site future, owner.sites = past ++ site :: future →
    site ∈ arm.1.sites arm.2 → site.callback.Assigns →
      (readings (past ++ [site])).isSome = true →
        owner.Selects readings condition selects

section Conditional

variable (owner : Module) (path : Path) (condition truePart falsePart : Expr)

/--
The Conditional at a place selects one arm: the stores of an arm are performed only if
the condition selects it, and where the Conditional is an operand, what is taken from
the stack is what the selected arm is worth.
-/
structure Module.SelectsOneArm (readings : Readings) : Prop where
  trueStores : owner.StoresOnlyIf readings
    (condition, ⟨conditionalNode condition truePart falsePart, 0⟩ :: path)
    (truePart, ⟨conditionalNode condition truePart falsePart, 1⟩ :: path)
    Datum.NonZero
  falseStores : owner.StoresOnlyIf readings
    (condition, ⟨conditionalNode condition truePart falsePart, 0⟩ :: path)
    (falsePart, ⟨conditionalNode condition truePart falsePart, 2⟩ :: path)
    Datum.Zero
  operand : ∀ past site future (depth : Nat) (values : List (Option Datum)),
    owner.sites = past ++ site :: future →
      site.operandTrees[depth]? =
          some (Expr.conditional condition truePart falsePart, path) →
        readings past = some values →
          ∃ datum, values[depth]? = some (some datum) ∧
            owner.HasWorth readings
              (.conditional condition truePart falsePart) path datum

end Conditional

/-- Never are the stores of both arms performed. -/
theorem Module.SelectsOneArm.never_both {owner : Module} {path : Path}
    {condition truePart falsePart : Expr} {readings : Readings}
    (selects : owner.SelectsOneArm path condition truePart falsePart readings)
    {past future : List Site} {site : Site}
    (place : owner.sites = past ++ site :: future)
    (inTrue : site ∈ truePart.sites
      (⟨conditionalNode condition truePart falsePart, 1⟩ :: path))
    (assigns : site.callback.Assigns)
    (carried : (readings (past ++ [site])).isSome = true)
    {otherPast otherFuture : List Site} {other : Site}
    (otherPlace : owner.sites = otherPast ++ other :: otherFuture)
    (inFalse : other ∈ falsePart.sites
      (⟨conditionalNode condition truePart falsePart, 2⟩ :: path))
    (otherAssigns : other.callback.Assigns) :
    readings (otherPast ++ [other]) = none := by
  by_contra known
  obtain ⟨test, worth, nonZero⟩ :=
    selects.trueStores past site future place inTrue assigns carried
  obtain ⟨otherTest, otherWorth, zero⟩ :=
    selects.falseStores otherPast other otherFuture otherPlace inFalse otherAssigns
      (Option.isSome_iff_ne_none.mpr known)
  rw [worth.unique otherWorth] at nonZero
  exact zero.not_nonZero nonZero

/-! ## What keeps an assignment from being carried out -/

section Hindered

variable (arith : FloatArith)

end Hindered

/-! ## What the callbacks leave on the stack -/

section Pushes

variable (arith : FloatArith) (owner : Module)

/-- What a callback of the module pushes is worth this. -/
def Module.Pushes (source : Site) (worth : Worth) : Prop :=
  ∃ past future, owner.sites = past ++ source :: future ∧
    (Evaluation.after arith (past ++ [source])).worths.head? = some worth

/-- Where the generator has got to, this is what a source is worth. -/
def Module.WorthHere (visitor : CodeGenVisitor) (worth : Worth) (source : Site) :
    Prop :=
  ∃ pushed child, owner.Pushes arith source pushed ∧ source.entry = some child ∧
    child < visitor.module_.blocks.length ∧
      worth = if child = visitor.block_ then pushed else pushed.elsewhere

variable {owner} {past future : List Site} {site source : Site}
variable {visitor before after : CodeGenVisitor} {worth : Worth}

theorem Module.Pushes.unique {other : Worth} (pushes : owner.Pushes arith source worth)
    (otherPushes : owner.Pushes arith source other) : worth = other := by
  obtain ⟨past, future, split, head⟩ := pushes
  obtain ⟨otherPast, otherFuture, otherSplit, otherHead⟩ := otherPushes
  rw [Module.past_unique split otherSplit, otherHead] at head
  exact (Option.some.inj head).symm

/-- When a function is entered, what was pushed before is elsewhere. -/
theorem Module.WorthHere.enter (here : owner.WorthHere arith before worth source)
    (grown : after.module_.blocks.length = before.module_.blocks.length + 1)
    (current : after.block_ = before.module_.blocks.length) :
    owner.WorthHere arith after worth.elsewhere source := by
  obtain ⟨pushed, child, pushes, entry, inside, rfl⟩ := here
  have other : child ≠ after.block_ := by omega
  refine ⟨pushed, child, pushes, entry, by omega, ?_⟩
  rw [if_neg other]
  split
  · rfl
  · exact Worth.elsewhere_elsewhere pushed

end Pushes

/-! ## When ignoring the condition does no harm -/

section Idle

variable (arith : FloatArith) (owner : Module)

variable (path : Path) (condition truePart falsePart : Expr)

end Idle

section Completed

variable (arith : FloatArith) {owner : Module} {final : CodeGenVisitor}
variable (completes : walkTree codeGen owner {} = .ok () final)

include completes

end Completed

/-! ## Conditions that are ignored -/

end Llast
