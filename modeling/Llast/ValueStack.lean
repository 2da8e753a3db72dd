import Mathlib.Data.List.Forall2
import Llast.Scoping

/-!
# The pops and pushes of the value stack

Which callbacks pop from `valueStack_` and which of them push to it is fixed by
the kind of the callback, whatever the values are.  `Site.onStack` performs these
pops and pushes on a stack of entries of any kind, so that a walk can be followed
with a stack of labels, of types or of nothing but its height.
-/

namespace Llast

open Llast.EventRun
open Llast.CodeGenVisitor

/-- How many values a callback takes with `top()` and `pop()`. -/
def Callback.operands : Callback → Nat
  | .visitedBinary _ _ _ => 2
  | .visitedAssignVariable _ _ => 1
  | .visitedReturn _ => 1
  | _ => 0

/-- The callback ends by pushing a value. -/
def Callback.pushes : Callback → Bool
  | .visitLiteralInt32 _ => true
  | .visitLiteralFloat _ => true
  | .visitVariableRef _ => true
  | .visitedAssignVariable _ _ => true
  | .visitedBinary _ _ _ => true
  | _ => false

/-- `visitedNode` of a Block, where it drops a value if there is one. -/
def Site.discards (site : Site) : Bool :=
  match site.callback with
  | .visitedNode node =>
      decide (node.nodeKind = some .block) && !site.path.isEmpty
  | _ => false

section OnStack

variable {Entry Other : Type}

/--
The pops and pushes of a callback, where `result` tells from the stack what is
pushed.
-/
def Site.onStack (result : Site → List Entry → Entry) (stack : List Entry)
    (site : Site) : List Entry :=
  if site.discards then
    stack.tail
  else if site.callback.pushes then
    result site stack :: stack.drop site.callback.operands
  else
    stack.drop site.callback.operands

/-- What the pops and pushes do to the number of entries. -/
def Site.onHeight (height : Nat) (site : Site) : Nat :=
  if site.discards then
    height - 1
  else if site.callback.pushes then
    height - site.callback.operands + 1
  else
    height - site.callback.operands

theorem Site.length_onStack (result : Site → List Entry → Entry)
    (stack : List Entry) (site : Site) :
    (site.onStack result stack).length = site.onHeight stack.length := by
  unfold Site.onStack Site.onHeight
  split
  · exact List.length_tail
  · split
    · rw [List.length_cons, List.length_drop]
    · exact List.length_drop

theorem Site.onStack_of_pushes (result : Site → List Entry → Entry)
    (stack : List Entry) {site : Site}
    (pushes : site.callback.pushes = true) :
    site.onStack result stack =
      result site stack :: stack.drop site.callback.operands := by
  rcases site with ⟨path, callback⟩
  cases callback <;> first | rfl | exact absurd pushes Bool.false_ne_true

/-- Related stacks stay related when the pushed entries are. -/
theorem Site.onStack_related {Related : Entry → Other → Prop}
    {result : Site → List Entry → Entry}
    {otherResult : Site → List Other → Other}
    {stack : List Entry} {other : List Other} (site : Site)
    (agree : List.Forall₂ Related stack other)
    (pushed : site.callback.pushes = true →
      Related (result site stack) (otherResult site other)) :
    List.Forall₂ Related (site.onStack result stack)
      (site.onStack otherResult other) := by
  rw [Site.onStack, Site.onStack]
  split
  · cases agree with
    | nil => exact .nil
    | cons top rest => exact rest
  · split
    · rename_i pushes
      exact .cons (pushed pushes) (List.forall₂_drop _ agree)
    · exact List.forall₂_drop _ agree

end OnStack

/-- The number of values after some callbacks. -/
def valuesAfter (past : List Site) : Nat :=
  past.foldl Site.onHeight 0

/--
A completed callback pops and pushes as its kind says.  The stack of nodes tells
whether it belongs to the outermost node.
-/
theorem CodeGenVisitor.Performs.valueStack {site : Site}
    {before after : CodeGenVisitor}
    (performs : Performs before site.callback after)
    (nodes : before.ancestryStack_ =
      site.callback.openNode.toList ++ site.path.nodes) :
    ∃ value, after.valueStack_ =
      site.onStack (fun _ _ => value) before.valueStack_ := by
  rcases site with ⟨path, callback⟩
  have some : Value := .constant (.int 0)
  cases performs with
  | visitingNode node => exact ⟨some, rfl⟩
  | visitedNode node inside =>
      refine ⟨some, ?_⟩
      rw [nodes] at inside
      cases path with
      | nil => simp [Callback.openNode, Path.nodes] at inside
      | cons step path =>
          by_cases isBlock : node.nodeKind = Option.some .block <;>
            simp [Site.onStack, Site.discards, discarded, isBlock,
              Callback.pushes, Callback.operands]
  | visitedOutermost node outermost =>
      refine ⟨some, ?_⟩
      rw [nodes] at outermost
      cases path with
      | nil =>
          simp [Site.onStack, Site.discards, Callback.pushes,
            Callback.operands]
      | cons step path => simp [Callback.openNode, Path.nodes] at outermost
  | visitingBlock expressions faultless => exact ⟨some, rfl⟩
  | visitedBlock scope expressions scopes => exact ⟨some, rfl⟩
  | visitedAssignVariable valueExpr found stack =>
      rw [stack]
      exact ⟨_, rfl⟩
  | visitedBinary left right chosen stack =>
      rw [stack]
      exact ⟨_, rfl⟩
  | visitLiteralInt32 visitor value => exact ⟨_, rfl⟩
  | visitLiteralFloat visitor value => exact ⟨_, rfl⟩
  | visitVariableRef found => exact ⟨_, rfl⟩
  | visitedReturn valueExpr stack =>
      rw [stack]
      exact ⟨some, rfl⟩
  | visitingFunction mapped inserts => exact ⟨some, rfl⟩
  | visitingModule visitor owner => exact ⟨some, rfl⟩
  | silent visitor notOverridden =>
      refine ⟨some, ?_⟩
      cases callback <;> first | exact notOverridden.elim | rfl

/--
A stack that is kept beside `valueStack_` by the same pops and pushes stays
related to it, if each pushed entry is related to the pushed value.
-/
theorem Module.valueStack_related {owner : Module} {Entry : Type}
    {Related : List Site → Value → Entry → Prop}
    {result : Site → List Entry → Entry}
    (later : ∀ past site value entry,
      Related past value entry → Related (past ++ [site]) value entry)
    (pushed : ∀ past site before after value rest entries,
      owner.Reaches past site before → Performs before site.callback after →
        site.callback.pushes = true → after.valueStack_ = value :: rest →
          List.Forall₂ (Related past) before.valueStack_ entries →
            Related (past ++ [site]) value (result site entries))
    {past future : List Site} {visitor : CodeGenVisitor}
    (split : owner.sites = past ++ future)
    (reaches : run codeGen.performAt past {} = .ok () visitor) :
    List.Forall₂ (Related past) visitor.valueStack_
      (past.foldl (Site.onStack result) []) := by
  refine owner.reached_induction (motive := fun past visitor =>
    List.Forall₂ (Related past) visitor.valueStack_
      (past.foldl (Site.onStack result) [])) .nil ?_ split reaches
  intro past site before after reached performs agree
  rcases performs.valueStack reached.ancestryStack with ⟨value, values⟩
  rw [List.foldl_append, List.foldl_cons, List.foldl_nil, values]
  apply site.onStack_related (agree.imp fun _ _ => later past site _ _)
  intro pushes
  rw [Site.onStack_of_pushes _ _ pushes] at values
  exact pushed past site before after value _ _ reached performs pushes values
    agree

/-- The height of the value stack follows from the callbacks alone. -/
theorem Module.valueStack_length {owner : Module} {past future : List Site}
    {visitor : CodeGenVisitor} (split : owner.sites = past ++ future)
    (reaches : run codeGen.performAt past {} = .ok () visitor) :
    visitor.valueStack_.length = valuesAfter past := by
  refine owner.reached_induction (motive := fun past visitor =>
    visitor.valueStack_.length = valuesAfter past) rfl ?_ split reaches
  intro past site before after reached performs height
  rcases performs.valueStack reached.ancestryStack with ⟨value, values⟩
  rw [values, Site.length_onStack, height, valuesAfter, valuesAfter,
    List.foldl_append, List.foldl_cons, List.foldl_nil]

theorem Module.Reaches.valueStack_length {owner : Module} {past : List Site}
    {site : Site} {visitor : CodeGenVisitor}
    (reached : owner.Reaches past site visitor) :
    visitor.valueStack_.length = valuesAfter past := by
  rcases reached.occurs with ⟨future, split⟩
  exact Module.valueStack_length split reached.reaches

end Llast
