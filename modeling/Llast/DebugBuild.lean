import Llast.EntryBlock
import Llast.TraversalLaw

/-!
# The debug build

With `LLAST_DEBUG`, `DEBUG_ASSERT` throws a `DebugAssertionFailedException` if its test
fails.  The generator has three assertions: the node that is left is the topmost of
`ancestryStack_`, a Return finds a value, and no values remain at the end.  The first
never fails.  Apart from the other two, the builds behave alike.

`ancestryStack_` holds pointers.  The nodes of a tree are distinct objects, so that a
node is known by the numbers of the steps that lead to it.
-/

namespace Llast

open Llast.EventRun
open Llast.CodeGenVisitor

/-! ## Assertions -/

/-- How a walk of the debug build can fail to complete. -/
inductive DebugFault where
  | fault (fault : Fault)
  | debugAssertionFailedException (message : String)
deriving DecidableEq, Repr

/-- What `DEBUG_ASSERT(arg, reason)` at a line of a file throws. -/
def debugAssertionFailed (file : String) (line : Nat) (arg reason : String) :
    DebugFault :=
  .debugAssertionFailedException
    ("Debug assertion failed!" ++ "\nFile       : " ++ file ++
      "\nLine       : " ++ toString line ++ "\nExpression : " ++ arg ++
      "\nReason     : " ++ reason)

/-- A `const Node *`: the numbers of the steps that lead to the node. -/
abbrev NodePointer :=
  List Nat

/-- The pointer to the node with this path. -/
def Path.pointer (path : Path) : NodePointer :=
  path.map Step.child

/-- The generator of the debug build, with the pointers on its `ancestryStack_`. -/
structure DebugVisitor where
  visitor : CodeGenVisitor := {}
  ancestryStack_ : List NodePointer := []

/-- A member function of the debug build. -/
abbrev Debug (Result : Type) :=
  EStateM DebugFault DebugVisitor Result

/-- `DEBUG_ASSERT`. -/
def debugAssert (holds : Bool) (failed : DebugFault) : Debug Unit :=
  if holds then return () else throw failed

/-- What the two builds have in common. -/
def asReleased (visit : Generate Unit) : Debug Unit :=
  fun debug =>
    match visit debug.visitor with
    | .ok _ next => .ok () { debug with visitor := next }
    | .error fault next => .error (.fault fault) { debug with visitor := next }

section Callbacks

variable (file : String)

/-- The assertion of `visitedModule`. -/
def valuesRemain : DebugFault :=
  debugAssertionFailed file 56 "valueStack_.size() == 0"
    "When compilation complete, no values should remain."

/-- The assertion of `visitedNode`. -/
def otherNode : DebugFault :=
  debugAssertionFailed file 86 "ancestryStack_.top() == expr"
    "Top node of ancestryStack_ should be the current node."

/-- The assertion of `visitedReturn`. -/
def noValue : DebugFault :=
  debugAssertionFailed file 223 "valueStack_.size() > 0" ""

/-- The callbacks of the debug build. -/
def debugPerformAt (site : Site) : Debug Unit :=
  match site.callback with
  | .visitingNode node => do
      asReleased (codeGen.perform (.visitingNode node))
      modify fun debug =>
        { debug with ancestryStack_ := site.path.pointer :: debug.ancestryStack_ }
  | .visitedNode node => do
      let debug ← get
      match debug.ancestryStack_ with
      | [] => throw (.fault (.undefined .emptyStack))
      | top :: ancestry => do
          debugAssert (top = site.path.pointer) (otherNode file)
          asReleased (codeGen.perform (.visitedNode node))
          modify fun debug => { debug with ancestryStack_ := ancestry }
  | .visitedReturn valueExpr => do
      let debug ← get
      debugAssert (debug.visitor.valueStack_.length > 0) (noValue file)
      asReleased (codeGen.perform (.visitedReturn valueExpr))
  | .visitedModule owner => do
      let debug ← get
      debugAssert (debug.visitor.valueStack_.length = 0) (valuesRemain file)
      asReleased (codeGen.perform (.visitedModule owner))
  | callback => asReleased (codeGen.perform callback)

/-- `walkTree` of a module with the generator of the debug build. -/
def debugWalkTree (owner : Module) : Debug Unit :=
  run (debugPerformAt file) owner.sites

/-! ## One callback -/

/-- The pointers to the nodes that are open after some callbacks. -/
def openPointers (past : List Site) : List NodePointer :=
  (past.foldl Site.onPlaces []).map fun place => place.path.pointer

theorem openPointers_of_visitingNode (past : List Site) (path : Path) (node : Node) :
    openPointers (past ++ [⟨path, .visitingNode node⟩]) =
      path.pointer :: openPointers past := by
  simp [openPointers, Site.onPlaces]

/-- A node that is left is the topmost one, whatever the module. -/
theorem openPointers_of_visitedNode {owner : Module} {past future : List Site}
    {path : Path} {node : Node}
    (split : owner.sites = past ++ ⟨path, .visitedNode node⟩ :: future) :
    openPointers past =
      path.pointer :: openPointers (past ++ [⟨path, .visitedNode node⟩]) := by
  have places := Module.onPlaces_eq split
  simp only [openPointers, List.foldl_append, List.foldl_cons, List.foldl_nil,
    places, Site.onPlaces]
  rfl

theorem openPointers_of_other (past : List Site) {path : Path} {callback : Callback}
    (opens : ∀ node, callback ≠ .visitingNode node)
    (closes : ∀ node, callback ≠ .visitedNode node) :
    openPointers (past ++ [⟨path, callback⟩]) = openPointers past := by
  cases callback with
  | visitingNode node => exact absurd rfl (opens node)
  | visitedNode node => exact absurd rfl (closes node)
  | _ => simp [openPointers, Site.onPlaces]

theorem asReleased_of_ok {visit : Generate Unit} {before after : CodeGenVisitor}
    (completes : visit before = .ok () after) (pointers : List NodePointer) :
    asReleased visit ⟨before, pointers⟩ = .ok () ⟨after, pointers⟩ := by
  rw [asReleased, completes]

theorem asReleased_of_error {visit : Generate Unit} {before after : CodeGenVisitor}
    {fault : Fault} (fails : visit before = .error fault after)
    (pointers : List NodePointer) :
    asReleased visit ⟨before, pointers⟩ =
      .error (.fault fault) ⟨after, pointers⟩ := by
  rw [asReleased, fails]

/-- The assertion of `visitedNode` holds wherever a walk leaves a node. -/
theorem debugPerformAt_visitedNode {owner : Module} {past future : List Site}
    {path : Path} {node : Node}
    (split : owner.sites = past ++ ⟨path, .visitedNode node⟩ :: future)
    (before : CodeGenVisitor) :
    debugPerformAt file ⟨path, .visitedNode node⟩ ⟨before, openPointers past⟩ =
      (do
        asReleased (codeGen.perform (.visitedNode node))
        modify fun debug =>
          { debug with
            ancestryStack_ :=
              openPointers (past ++ [⟨path, .visitedNode node⟩]) } :
        Debug Unit) ⟨before, openPointers past⟩ := by
  rw [openPointers_of_visitedNode split]
  change (debugAssert (decide (path.pointer = path.pointer)) _ >>= fun _ => _) _ = _
  rw [decide_eq_true rfl]
  rfl

theorem debugPerformAt_visitedReturn (path : Path) (valueExpr : Expr)
    (before : CodeGenVisitor) (pointers : List NodePointer) :
    debugPerformAt file ⟨path, .visitedReturn valueExpr⟩ ⟨before, pointers⟩ =
      match before.valueStack_ with
      | [] => .error (noValue file) ⟨before, pointers⟩
      | value :: rest =>
          .ok () ⟨{ before.inserted (.ret value) with valueStack_ := rest },
            pointers⟩ := by
  change (debugAssert (decide (before.valueStack_.length > 0)) (noValue file) >>=
    fun _ => asReleased (visitedReturn valueExpr)) _ = _
  cases stack : before.valueStack_ with
  | nil => rfl
  | cons value rest =>
      have present : (value :: rest).length > 0 := Nat.succ_pos _
      rw [decide_eq_true present]
      exact asReleased_of_ok (visitedReturn_of_cons stack) pointers

section Step

variable {owner : Module} {past future : List Site} {site : Site}
variable {before after : CodeGenVisitor}
variable (split : owner.sites = past ++ site :: future)
variable (inside : ∀ other, site.callback ≠ .visitedModule other)

include split inside

/-- A callback that completes without assertions completes with them. -/
theorem debugPerformAt_of_ok
    (completes : codeGen.performAt site before = .ok () after) :
    debugPerformAt file site ⟨before, openPointers past⟩ =
      .ok () ⟨after, openPointers (past ++ [site])⟩ := by
  rcases site with ⟨path, callback⟩
  have released : ∀ pointers, asReleased (codeGen.perform callback)
      ⟨before, pointers⟩ = .ok () ⟨after, pointers⟩ :=
    asReleased_of_ok completes
  cases callback with
  | visitingNode node =>
      rw [openPointers_of_visitingNode, debugPerformAt]
      exact (bind_eq_of_ok (released _)).trans rfl
  | visitedNode node =>
      rw [debugPerformAt_visitedNode file split]
      exact (bind_eq_of_ok (released _)).trans rfl
  | visitedReturn valueExpr =>
      rw [openPointers_of_other past (by simp) (by simp),
        debugPerformAt_visitedReturn]
      change visitedReturn valueExpr before = .ok () after at completes
      cases stack : before.valueStack_ with
      | nil =>
          rw [visitedReturn_of_nil stack] at completes
          cases completes
      | cons value rest =>
          rw [visitedReturn_of_cons stack] at completes
          cases completes
          rfl
  | visitedModule other => exact absurd rfl (inside other)
  | _ =>
      rw [openPointers_of_other past (by simp) (by simp)]
      exact released _

/-- A callback that fails, other than a Return, fails in the same way. -/
theorem debugPerformAt_of_error (other : ¬ site.callback.IsReturn) {fault : Fault}
    (fails : codeGen.performAt site before = .error fault after) :
    debugPerformAt file site ⟨before, openPointers past⟩ =
      .error (.fault fault) ⟨after, openPointers past⟩ := by
  rcases site with ⟨path, callback⟩
  have released : ∀ pointers, asReleased (codeGen.perform callback)
      ⟨before, pointers⟩ = .error (.fault fault) ⟨after, pointers⟩ :=
    asReleased_of_error fails
  cases callback with
  | visitingNode node => cases fails
  | visitedNode node =>
      rw [debugPerformAt_visitedNode file split]
      exact bind_eq_of_error (released _)
  | visitedReturn valueExpr => exact absurd trivial other
  | visitedModule inner => exact absurd rfl (inside inner)
  | _ => exact released _

end Step

/-! ## Whole walks -/

/-- Up to the end of the module, a walk without assertions is one with them. -/
theorem debug_run_of_ok {owner : Module} {past future : List Site}
    {visitor : CodeGenVisitor} (split : owner.sites = past ++ future)
    (inside : ∀ site ∈ past, ∀ other, site.callback ≠ .visitedModule other)
    (completes : run codeGen.performAt past {} = .ok () visitor) :
    run (debugPerformAt file) past {} = .ok () ⟨visitor, openPointers past⟩ := by
  induction past using List.reverseRecOn generalizing future visitor with
  | nil =>
      cases completes
      rfl
  | append_singleton past site ih =>
      rcases (run_append_eq_ok_iff _).mp completes with ⟨before, reaches, reacts⟩
      rw [run_singleton] at reacts
      have here : owner.sites = past ++ site :: future := by simp [split]
      have earlier := ih here
        (fun other member => inside other (List.mem_append_left _ member)) reaches
      rw [run_append_of_ok _ earlier, run_singleton]
      exact debugPerformAt_of_ok file here (inside site (by simp)) reacts

/--
How the walks of the two builds end: alike, but for a Return that finds no value, and
for values that remain at the end.
-/
inductive BuildsAgree (owner : Module) :
    EStateM.Result Fault CodeGenVisitor Unit →
      EStateM.Result DebugFault DebugVisitor Unit → Prop where
  | completes {final : CodeGenVisitor} (none : final.valueStack_ = []) :
      BuildsAgree owner (.ok () final) (.ok () ⟨final, []⟩)
  | remaining {final : CodeGenVisitor} (remain : final.valueStack_ ≠ []) :
      BuildsAgree owner (.ok () final)
        (.error (valuesRemain file)
          ⟨{ final with ancestryStack_ := [.module owner] }, [[]]⟩)
  | noValue {past future : List Site} {path : Path} {valueExpr : Expr}
      {visitor : CodeGenVisitor}
      (split : owner.sites = past ++ ⟨path, .visitedReturn valueExpr⟩ :: future)
      (reaches : run codeGen.performAt past {} = .ok () visitor)
      (none : visitor.valueStack_ = []) :
      BuildsAgree owner (.error (.undefined .emptyStack) visitor)
        (.error (noValue file) ⟨visitor, openPointers past⟩)
  | fault {past future : List Site} {site : Site} {before visitor : CodeGenVisitor}
      {fault : Fault} (split : owner.sites = past ++ site :: future)
      (reaches : run codeGen.performAt past {} = .ok () before)
      (other : ¬ site.callback.IsReturn)
      (fails : codeGen.performAt site before = .error fault visitor) :
      BuildsAgree owner (.error fault visitor)
        (.error (.fault fault) ⟨visitor, openPointers past⟩)

/-- The module is left at the end only. -/
theorem Module.inside_of_mem_sitesBefore {owner : Module} {child : Nat} {site : Site}
    (member : site ∈ owner.sitesBefore child) (other : Module) :
    site.callback ≠ .visitedModule other := by
  have leaves : ∀ {callback : Callback}, ¬ callback.Outer →
      callback ≠ .visitedModule other := by
    rintro callback inner rfl
    exact inner trivial
  rcases List.mem_cons.mp member with rfl | member
  · exact Callback.noConfusion
  · rcases List.mem_cons.mp member with rfl | member
    · exact Callback.noConfusion
    · rcases mem_functionSites.mp member with ⟨place, entry, -, holds⟩
      cases entry with
      | none =>
          rw [List.mem_singleton.mp holds]
          exact Callback.noConfusion
      | some func =>
          rcases Function.mem_sites.mp holds with ⟨-, own⟩ | inBody
          · intro same
            rw [same] at own
            simp [Function.ownCallbacks] at own
          · exact leaves (Expr.not_outer_of_mem_sites inBody)

/-- The end of a walk that gets there. -/
theorem run_closingSites {owner : Module} {visitor : CodeGenVisitor}
    (nodes : visitor.ancestryStack_ = [.module owner]) :
    run codeGen.performAt owner.closingSites visitor =
      .ok () { visitor with ancestryStack_ := [] } := by
  rcases visitor with ⟨context, module, function, block, scopes, values, ancestry⟩
  subst nodes
  rfl

theorem debug_run_closingSites {owner : Module} {visitor : CodeGenVisitor}
    (nodes : visitor.ancestryStack_ = [.module owner]) :
    run (debugPerformAt file) owner.closingSites ⟨visitor, [[]]⟩ =
      if visitor.valueStack_ = [] then
        .ok () ⟨{ visitor with ancestryStack_ := [] }, []⟩
      else
        .error (valuesRemain file) ⟨visitor, [[]]⟩ := by
  rcases visitor with ⟨context, module, function, block, scopes, values, ancestry⟩
  subst nodes
  cases values with
  | nil => rfl
  | cons value rest => rfl

/-- Where the release build fails inside the module, the debug build does too. -/
theorem debug_run_of_error {owner : Module} {past future : List Site} {site : Site}
    {before final : CodeGenVisitor} {fault : Fault}
    (split : owner.sites = past ++ site :: future)
    (inside : ∀ other ∈ past ++ [site], ∀ left, other.callback ≠ .visitedModule left)
    (reaches : run codeGen.performAt past {} = .ok () before)
    (fails : codeGen.performAt site before = .error fault final) :
    BuildsAgree file owner (.error fault final)
      (run (debugPerformAt file) owner.sites {}) := by
  have reachesToo := debug_run_of_ok file split
    (fun other member => inside other (List.mem_append_left _ member)) reaches
  have here := inside site (List.mem_append_right _ (List.mem_singleton_self _))
  rw [split, run_append_of_ok _ reachesToo]
  by_cases isReturn : site.callback.IsReturn
  · rcases site with ⟨path, callback⟩
    cases callback with
    | visitedReturn valueExpr =>
        have asserts := debugPerformAt_visitedReturn file path valueExpr before
          (openPointers past)
        change visitedReturn valueExpr before = _ at fails
        cases stack : before.valueStack_ with
        | nil =>
            rw [stack] at asserts
            rw [visitedReturn_of_nil stack] at fails
            cases fails
            rw [run_cons_of_error _ asserts]
            exact .noValue split reaches stack
        | cons value rest =>
            rw [visitedReturn_of_cons stack] at fails
            cases fails
    | _ => exact isReturn.elim
  · rw [run_cons_of_error _ (debugPerformAt_of_error file split here isReturn fails)]
    exact .fault split reaches isReturn fails

/-- The builds agree on every module. -/
theorem builds_agree (owner : Module) :
    BuildsAgree file owner (walkTree codeGen owner {})
      (debugWalkTree file owner {}) := by
  have inside := fun (site : Site) member =>
    @Module.inside_of_mem_sitesBefore owner owner.functions.length site member
  rw [walkTree_eq_run, debugWalkTree]
  cases walked : run codeGen.performAt
      (owner.sitesBefore owner.functions.length) {} with
  | error fault final =>
      rcases (run_eq_error_iff _).mp walked with
        ⟨past, site, later, before, parts, reaches, fails⟩
      have split : owner.sites = past ++ site :: (later ++ owner.closingSites) := by
        rw [owner.sites_eq, parts]
        simp
      have ended : run codeGen.performAt owner.sites {} = .error fault final := by
        rw [split, run_append_of_ok _ reaches, run_cons_of_error _ fails]
      rw [ended]
      refine debug_run_of_error file split (fun other member => ?_) reaches fails
      refine inside other ?_
      rw [parts]
      rcases List.mem_append.mp member with member | member
      · exact List.mem_append_left _ member
      · rw [List.mem_singleton.mp member]
        exact List.mem_append_right _ List.mem_cons_self
  | ok done middle =>
      have reached : owner.Reaches (owner.sitesBefore owner.functions.length)
          ⟨[], .visitedModule owner⟩ middle :=
        ⟨⟨_, owner.sites_eq⟩, walked⟩
      have nodes : middle.ancestryStack_ = [.module owner] := reached.ancestryStack
      have pointers : openPointers (owner.sitesBefore owner.functions.length) =
          [[]] := by
        rw [openPointers, Module.onPlaces_eq owner.sites_eq]
        rfl
      have walkedToo := debug_run_of_ok file owner.sites_eq inside walked
      rw [pointers] at walkedToo
      rw [owner.sites_eq, run_append_of_ok _ walked, run_append_of_ok _ walkedToo,
        run_closingSites nodes, debug_run_closingSites file nodes]
      by_cases none : middle.valueStack_ = []
      · rw [if_pos none]
        exact .completes none
      · rw [if_neg none]
        have ended := @BuildsAgree.remaining file owner
          { middle with ancestryStack_ := [] } none
        simp only [← nodes] at ended
        exact ended

end Callbacks

end Llast
