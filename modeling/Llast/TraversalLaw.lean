import Llast.NodeTree
import Llast.Scoping

/-!
# The law of the tree walker

Whatever the visitor does, as long as it does not throw, `walkTree` calls
`initialize`, then the callbacks of a depth-first walk of the tree, and then
`cleanUp`: `visitingNode` and `visitedNode` are brackets around each node, opened in
pre-order and closed in post-order.  A missing child ends the walk where it is
reached.

A stack that is pushed in `visitingNode` and popped in `visitedNode` therefore holds
the branch from the current node up to the module, and so does `ancestryStack_` of
the code generator.
-/

namespace Llast

open Llast.EventRun

/-! ## Recording the calls of a walk -/

/-- A call of a virtual member function of a visitor. -/
inductive VisitorCall where
  | initializeVisitor
  | callback (callback : Callback)
  | cleanUp

variable {State : Type}

/-- Note the call, and carry it out. -/
def recorded (call : VisitorCall) (visit : Visit State Unit) :
    Visit (State × List VisitorCall) Unit :=
  fun start =>
    match visit start.1 with
    | .ok _ next => .ok () (next, start.2 ++ [call])
    | .error fault next => .error fault (next, start.2 ++ [call])

/-- The visitor with a record of the calls that were made. -/
def ExpressionTreeVisitor.recording (visitor : ExpressionTreeVisitor State) :
    ExpressionTreeVisitor (State × List VisitorCall) where
  initializeVisitor := recorded .initializeVisitor visitor.initializeVisitor
  cleanUp := recorded .cleanUp visitor.cleanUp
  visitingNode node :=
    recorded (.callback (.visitingNode node)) (visitor.visitingNode node)
  visitedNode node :=
    recorded (.callback (.visitedNode node)) (visitor.visitedNode node)
  visitingBlock scope expressions :=
    recorded (.callback (.visitingBlock scope expressions))
      (visitor.visitingBlock scope expressions)
  visitedBlock scope expressions :=
    recorded (.callback (.visitedBlock scope expressions))
      (visitor.visitedBlock scope expressions)
  visitingConditional condition truePart falsePart :=
    recorded (.callback (.visitingConditional condition truePart falsePart))
      (visitor.visitingConditional condition truePart falsePart)
  visitedConditional condition truePart falsePart :=
    recorded (.callback (.visitedConditional condition truePart falsePart))
      (visitor.visitedConditional condition truePart falsePart)
  visitingBinary lValue operation rValue :=
    recorded (.callback (.visitingBinary lValue operation rValue))
      (visitor.visitingBinary lValue operation rValue)
  visitedBinary lValue operation rValue :=
    recorded (.callback (.visitedBinary lValue operation rValue))
      (visitor.visitedBinary lValue operation rValue)
  visitLiteralInt32 value :=
    recorded (.callback (.visitLiteralInt32 value))
      (visitor.visitLiteralInt32 value)
  visitLiteralFloat value :=
    recorded (.callback (.visitLiteralFloat value))
      (visitor.visitLiteralFloat value)
  visitingReturn valueExpr :=
    recorded (.callback (.visitingReturn valueExpr))
      (visitor.visitingReturn valueExpr)
  visitedReturn valueExpr :=
    recorded (.callback (.visitedReturn valueExpr))
      (visitor.visitedReturn valueExpr)
  visitVariableRef var :=
    recorded (.callback (.visitVariableRef var)) (visitor.visitVariableRef var)
  visitingAssignVariable var valueExpr :=
    recorded (.callback (.visitingAssignVariable var valueExpr))
      (visitor.visitingAssignVariable var valueExpr)
  visitedAssignVariable var valueExpr :=
    recorded (.callback (.visitedAssignVariable var valueExpr))
      (visitor.visitedAssignVariable var valueExpr)
  visitingFunction func :=
    recorded (.callback (.visitingFunction func)) (visitor.visitingFunction func)
  visitedFunction func :=
    recorded (.callback (.visitedFunction func)) (visitor.visitedFunction func)
  visitingModule owner :=
    recorded (.callback (.visitingModule owner)) (visitor.visitingModule owner)
  visitedModule owner :=
    recorded (.callback (.visitedModule owner)) (visitor.visitedModule owner)

/-- The record of the call a site stands for. -/
def Site.issued (site : Site) : VisitorCall :=
  .callback site.callback

theorem ExpressionTreeVisitor.perform_recording
    (visitor : ExpressionTreeVisitor State) {callback : Callback}
    (present : callback ≠ .nullArgument) :
    visitor.recording.perform callback =
      recorded (.callback callback) (visitor.perform callback) := by
  cases callback with
  | nullArgument => exact absurd rfl present
  | _ => rfl

/-- No member function of the visitor throws, and none is undefined. -/
structure ExpressionTreeVisitor.NeverThrows
    (visitor : ExpressionTreeVisitor State) : Prop where
  initializes : ∀ state, ∃ next, visitor.initializeVisitor state = .ok () next
  performs : ∀ callback, callback ≠ .nullArgument →
    ∀ state, ∃ next, visitor.perform callback state = .ok () next
  cleansUp : ∀ state, ∃ next, visitor.cleanUp state = .ok () next

/-- No null test fails at these sites. -/
def NothingMissing (sites : List Site) : Prop :=
  ∀ site ∈ sites, site.callback ≠ .nullArgument

section Recording

variable {visitor : ExpressionTreeVisitor State}

theorem recorded_of_ok {visit : Visit State Unit} {start next : State}
    (call : VisitorCall) (log : List VisitorCall)
    (completes : visit start = .ok () next) :
    recorded call visit (start, log) = .ok () (next, log ++ [call]) := by
  rw [recorded, completes]

/-- A visitor that does not throw goes through the sites, and each is recorded. -/
theorem ExpressionTreeVisitor.NeverThrows.run_recording
    (quiet : visitor.NeverThrows) {sites : List Site}
    (present : NothingMissing sites) (start : State)
    (log : List VisitorCall) :
    ∃ final, run visitor.performAt sites start = .ok () final ∧
      run visitor.recording.performAt sites (start, log) =
        .ok () (final, log ++ sites.map Site.issued) := by
  induction sites generalizing start log with
  | nil => exact ⟨start, rfl, by rw [List.map_nil, List.append_nil]; rfl⟩
  | cons site rest ih =>
      have here := present site List.mem_cons_self
      obtain ⟨next, performs⟩ := quiet.performs site.callback here start
      have records :
          visitor.recording.performAt site (start, log) =
            .ok () (next, log ++ [site.issued]) := by
        rw [ExpressionTreeVisitor.performAt, visitor.perform_recording here]
        exact recorded_of_ok _ log performs
      obtain ⟨final, completes, recordsRest⟩ :=
        ih (fun site member => present site (List.mem_cons_of_mem _ member))
          next (log ++ [site.issued])
      refine ⟨final, ?_, ?_⟩
      · rw [run_cons_of_ok visitor.performAt performs, completes]
      · rw [run_cons_of_ok _ records, recordsRest]
        simp

theorem walkTree_of_ok {owner : Module} {start next inside final : State}
    (initializes : visitor.initializeVisitor start = .ok () next)
    (walks : run visitor.performAt owner.sites next = .ok () inside)
    (cleansUp : visitor.cleanUp inside = .ok () final) :
    walkTree visitor owner start = .ok () final := by
  rw [← walkModule_eq_run] at walks
  rw [walkTree, bind_of_ok initializes, bind_of_ok walks, cleansUp]

theorem walkTree_of_error {owner : Module} {start next final : State}
    {fault : Fault} (initializes : visitor.initializeVisitor start = .ok () next)
    (fails : run visitor.performAt owner.sites next = .error fault final) :
    walkTree visitor owner start = .error fault final := by
  rw [← walkModule_eq_run] at fails
  rw [walkTree, bind_of_ok initializes, bind_of_error fails]

/-- With nothing missing, the walk is recorded from `initialize` to `cleanUp`. -/
theorem ExpressionTreeVisitor.NeverThrows.walkTree_recording
    (quiet : visitor.NeverThrows) {owner : Module}
    (present : NothingMissing owner.sites) (start : State) :
    ∃ final, walkTree visitor owner start = .ok () final ∧
      walkTree visitor.recording owner (start, []) =
        .ok () (final, .initializeVisitor ::
          owner.sites.map Site.issued ++ [.cleanUp]) := by
  obtain ⟨next, initializes⟩ := quiet.initializes start
  obtain ⟨inside, walks, recordsWalk⟩ :=
    quiet.run_recording present next [.initializeVisitor]
  obtain ⟨final, cleansUp⟩ := quiet.cleansUp inside
  refine ⟨final, walkTree_of_ok initializes walks cleansUp, ?_⟩
  exact walkTree_of_ok (recorded_of_ok _ [] initializes) recordsWalk
    (recorded_of_ok _ _ cleansUp)

/-- A missing child ends the walk, which has been recorded so far. -/
theorem ExpressionTreeVisitor.NeverThrows.walkTree_recording_missing
    (quiet : visitor.NeverThrows) {owner : Module} {past future : List Site}
    {path : Path} (split : owner.sites = past ++ ⟨path, .nullArgument⟩ :: future)
    (present : NothingMissing past) (start : State) :
    ∃ final, walkTree visitor owner start = .error argNotNull final ∧
      walkTree visitor.recording owner (start, []) =
        .error argNotNull
          (final, .initializeVisitor :: past.map Site.issued) := by
  obtain ⟨next, initializes⟩ := quiet.initializes start
  obtain ⟨inside, walks, recordsWalk⟩ :=
    quiet.run_recording present next [.initializeVisitor]
  have noted := recorded_of_ok .initializeVisitor [] initializes
  rw [List.nil_append] at noted
  refine ⟨inside, walkTree_of_error initializes ?_,
    walkTree_of_error noted ?_⟩
  · rw [split, run_append_of_ok _ walks]
    rfl
  · rw [split, run_append_of_ok _ recordsWalk]
    rfl

end Recording

/-! ## The stack of the open nodes -/

/-- A stack that is pushed in `visitingNode` and popped in `visitedNode`. -/
def Site.onPlaces (stack : List Place) (site : Site) : List Place :=
  match site.callback with
  | .visitingNode node => ⟨site.path, some node⟩ :: stack
  | .visitedNode _ => stack.tail
  | _ => stack

/-- The places on a path, innermost first. -/
def Path.places : Path → List Place
  | [] => []
  | step :: outer => ⟨outer, some step.node⟩ :: Path.places outer

/-- The places a site stands in: its own, once it is open, and those around it. -/
def Site.openPlaces (site : Site) : List Place :=
  (site.callback.openNode.toList.map fun node => ⟨site.path, some node⟩) ++
    site.path.places

/-- Sites at which the stack holds the open places, and which leave it alone. -/
abbrev Stacked (path : Path) (sites : List Site) : Prop :=
  Plan Site.onPlaces (fun site stack => stack = site.openPlaces) path.places
    sites path.places

/-- The callbacks of a node inside its brackets find it open and leave the stack. -/
theorem Node.openNode_of_own (node : Node) :
    ∀ callback ∈ node.opening ++ node.closing,
      callback.openNode = some node ∧
        ∀ stack path, Site.onPlaces stack ⟨path, callback⟩ = stack := by
  cases node with
  | expr expression =>
      cases expression <;>
        simp [Node.opening, Node.closing, Expr.opening, Expr.closing,
          Callback.openNode, Site.onPlaces]
  | function func =>
      simp [Node.opening, Node.closing, Callback.openNode, Site.onPlaces]
  | «module» owner =>
      simp [Node.opening, Node.closing, Callback.openNode, Site.onPlaces]

private theorem own_plan (path : Path) {node : Node}
    {callbacks : List Callback}
    (own : ∀ callback ∈ callbacks, callback ∈ node.opening ++ node.closing) :
    Plan Site.onPlaces (fun site stack => stack = site.openPlaces)
      (⟨path, some node⟩ :: path.places) (callbacks.map (Site.mk path))
      (⟨path, some node⟩ :: path.places) := by
  induction callbacks with
  | nil => exact .nil _
  | cons callback rest ih =>
      have mine := node.openNode_of_own callback (own callback List.mem_cons_self)
      refine .cons ?_ ?_
      · simp [Site.openPlaces, mine.1]
      · rw [mine.2]
        exact ih fun other member => own other (List.mem_cons_of_mem _ member)

/-- A node with its children in between. -/
private theorem around_plan {path : Path} (node : Node) {children : List Site}
    (middle : Plan Site.onPlaces (fun site stack => stack = site.openPlaces)
      (⟨path, some node⟩ :: path.places) children
      (⟨path, some node⟩ :: path.places)) :
    Stacked path (bracket path node node.opening children node.closing) := by
  have opens := own_plan path fun (callback : Callback) member =>
    List.mem_append_left node.closing member
  have closes := own_plan path fun (callback : Callback) member =>
    List.mem_append_right node.opening member
  have leaves :
      Plan Site.onPlaces (fun site stack => stack = site.openPlaces)
        (⟨path, some node⟩ :: path.places) [⟨path, .visitedNode node⟩]
        path.places :=
    .cons rfl (.nil _)
  exact .cons rfl (((opens.append middle).append closes).append leaves)

private theorem flatMap_plan {Part : Type} {parts : List Part}
    {sites : Part → List Site} {stack : List Place}
    (each : ∀ part ∈ parts,
      Plan Site.onPlaces (fun site stack => stack = site.openPlaces)
        stack (sites part) stack) :
    Plan Site.onPlaces (fun site stack => stack = site.openPlaces)
      stack (parts.flatMap sites) stack := by
  induction parts with
  | nil => exact .nil _
  | cons part rest ih =>
      rw [List.flatMap_cons]
      exact (each part List.mem_cons_self).append
        (ih fun other member => each other (List.mem_cons_of_mem _ member))

theorem Expr.sites_stacked (expr : Expr) (path : Path) :
    Stacked path (expr.sites path) := by
  induction expr using Expr.children_induction generalizing path with
  | step expr ih =>
      cases present : expr.isNull with
      | true =>
          cases expr <;> simp [Expr.isNull] at present
          exact .cons rfl (.nil _)
      | false =>
          rw [Expr.sites_eq present]
          exact around_plan (.expr expr)
            (flatMap_plan fun child member =>
              ih child member (⟨.expr expr, child.2⟩ :: path))

theorem Function.sites_stacked (func : Function) (path : Path) :
    Stacked path (func.sites path) :=
  around_plan (.function func)
    (func.body.sites_stacked (⟨.function func, 0⟩ :: path))

/-- The sites of a module find the stack as it should be. -/
theorem Module.sites_stacked (owner : Module) : Stacked [] owner.sites := by
  refine around_plan (.module owner) ?_
  rw [functionSites_eq_flatMap]
  apply flatMap_plan
  rintro ⟨entry, child⟩ -
  cases entry with
  | none => exact .cons rfl (.nil _)
  | some func => exact func.sites_stacked [⟨.module owner, child⟩]

/-- Before any site of a module, the stack of places is that of the site. -/
theorem Module.onPlaces_eq {owner : Module} {past future : List Site}
    {site : Site} (split : owner.sites = past ++ site :: future) :
    past.foldl Site.onPlaces [] = site.openPlaces := by
  have plan := owner.sites_stacked
  rw [Stacked, split] at plan
  exact plan.expected

/-- The sites of a module leave the stack as they find it. -/
theorem Module.onPlaces_sites (owner : Module) :
    owner.sites.foldl Site.onPlaces [] = [] :=
  owner.sites_stacked.final_eq.symm

/-! ## The brackets around the nodes -/

/-- The bracket that a call of `visitingNode` or `visitedNode` is. -/
def Site.bracket? (site : Site) : Option (RoseTree.Bracket Place) :=
  match site.callback with
  | .visitingNode node => some (.opening ⟨site.path, some node⟩)
  | .visitedNode node => some (.closing ⟨site.path, some node⟩)
  | _ => none

/-- A bracket belongs to one site only. -/
theorem Site.bracket?_injective {site other : Site}
    {bracket : RoseTree.Bracket Place} (mine : bracket ∈ site.bracket?)
    (its : bracket ∈ other.bracket?) : site = other := by
  rcases site with ⟨path, callback⟩
  rcases other with ⟨place, call⟩
  cases callback <;> simp [Site.bracket?] at mine <;> subst mine <;>
    cases call <;> simp_all [Site.bracket?]

/-- The callbacks of a node inside its brackets are no brackets. -/
theorem Node.bracket?_of_own (node : Node) (path : Path) :
    ∀ callback ∈ node.opening ++ node.closing,
      Site.bracket? ⟨path, callback⟩ = none := by
  cases node with
  | expr expression =>
      cases expression <;>
        simp [Node.opening, Node.closing, Expr.opening, Expr.closing,
          Site.bracket?]
  | function func => simp [Node.opening, Node.closing, Site.bracket?]
  | «module» owner => simp [Node.opening, Node.closing, Site.bracket?]

theorem Place.filterMap_bracket? {place : Place} (present : place.node.isSome) :
    place.before.filterMap Site.bracket? = [.opening place] ∧
      place.after.filterMap Site.bracket? = [.closing place] := by
  rcases place with ⟨path, node⟩
  cases node with
  | none => cases present
  | some node =>
      have opening :
          (node.opening.map (Site.mk path)).filterMap Site.bracket? = [] := by
        rw [List.filterMap_map, List.filterMap_eq_nil_iff]
        exact fun callback member => node.bracket?_of_own path callback
          (List.mem_append_left _ member)
      have closing :
          (node.closing.map (Site.mk path)).filterMap Site.bracket? = [] := by
        rw [List.filterMap_map, List.filterMap_eq_nil_iff]
        exact fun callback member => node.bracket?_of_own path callback
          (List.mem_append_right _ member)
      simp [Place.before, Place.after, opening, closing, Site.bracket?]

/-- The sites of the walk of a module, read off its tree. -/
def Module.walkSites (owner : Module) : List Site :=
  owner.tree.traverse Place.before Place.after

theorem Module.brackets_eq {owner : Module} (present : owner.NothingNull) :
    owner.walkSites.filterMap Site.bracket? = owner.tree.brackets := by
  rw [Module.walkSites, RoseTree.filterMap_traverse]
  exact RoseTree.traverse_congr fun place member =>
    Place.filterMap_bracket? (present place member)

/-- Every place is opened and closed once. -/
theorem Module.brackets_nodup {owner : Module} (present : owner.NothingNull) :
    owner.tree.brackets.Nodup := by
  have distinct := owner.sites_nodup
  rw [Module.sites_eq_traverse] at distinct
  rw [← Module.brackets_eq present]
  exact distinct.filterMap fun site other bracket mine its =>
    Site.bracket?_injective mine its

/-! ## What stands on the stack -/

/-- The places of a tree at this path are reached from its root. -/
def Rooted (path : Path) (tree : RoseTree Place) : Prop :=
  ∀ place ∈ tree.preOrder, ∃ inner,
    place :: place.path.places = inner ++ path.places ∧ tree.Branch inner

theorem rooted_node {path : Path} {node : Node}
    {children : List (RoseTree Place)}
    (each : ∀ child ∈ children, ∃ number, Rooted (⟨node, number⟩ :: path) child) :
    Rooted path (.node ⟨path, some node⟩ children) := by
  intro place member
  rcases RoseTree.mem_preOrder_node.mp member with rfl | ⟨child, inside, below⟩
  · exact ⟨[⟨path, some node⟩], rfl, .root _ _⟩
  · obtain ⟨number, rooted⟩ := each child inside
    obtain ⟨inner, branch, leads⟩ := rooted place below
    refine ⟨inner ++ [⟨path, some node⟩], ?_, .inChild inside leads⟩
    rw [branch, List.append_assoc]
    rfl

theorem rooted_missing (path : Path) : Rooted path (.node ⟨path, none⟩ []) := by
  intro place member
  rcases RoseTree.mem_preOrder_node.mp member with rfl | ⟨child, inside, -⟩
  · exact ⟨[⟨path, none⟩], rfl, .root _ _⟩
  · cases inside

/-- The path of a place leads from the place to the module. -/
theorem Module.rooted (owner : Module) : Rooted [] owner.tree :=
  owner.tree_induction rooted_missing fun _ _ _ each => rooted_node each

theorem Path.map_node_places (path : Path) :
    path.places.map Place.node = path.nodes.map some := by
  induction path with
  | nil => rfl
  | cons step outer ih =>
      rw [Path.places, List.map_cons, ih]
      rfl

theorem Site.map_node_openPlaces (site : Site) :
    site.openPlaces.map Place.node =
      (site.callback.openNode.toList ++ site.path.nodes).map some := by
  rw [Site.openPlaces, List.map_append, List.map_append, Path.map_node_places,
    List.map_map]
  rfl

/-! ## The law -/

theorem Place.present_before_after {place : Place} {site : Site}
    (present : place.node.isSome)
    (issues : site ∈ place.before ∨ site ∈ place.after) :
    site.callback ≠ .nullArgument := by
  rcases place with ⟨path, node⟩
  cases node with
  | none => cases present
  | some node =>
      intro missing
      have own : site.callback ∉ node.opening ++ node.closing := by
        rw [missing]
        intro member
        exact absurd (node.openNode_of_own _ member).1 (by simp [Callback.openNode])
      simp only [Place.before, Place.after, List.mem_cons, List.mem_append,
        mem_map_site, List.not_mem_nil, or_false] at issues own
      rcases issues with (rfl | ⟨-, member⟩) | (⟨-, member⟩ | rfl)
      · cases missing
      · exact own (.inl member)
      · exact own (.inr member)
      · cases missing

theorem Module.nothingMissing {owner : Module} (present : owner.NothingNull) :
    NothingMissing owner.sites := by
  intro site member
  rw [Module.sites_eq_traverse, RoseTree.mem_traverse] at member
  rcases member with ⟨place, inside, issues⟩
  exact Place.present_before_after (present place inside) issues

/-- Where something is missing, there is a first null test that fails. -/
theorem Module.exists_missing {owner : Module}
    (incomplete : ¬ owner.NothingNull) :
    ∃ past path future,
      owner.sites = past ++ ⟨path, .nullArgument⟩ :: future ∧
        NothingMissing past := by
  rw [Module.NothingNull] at incomplete
  push Not at incomplete
  rcases incomplete with ⟨⟨path, node⟩, inside, none⟩
  have leaf : node = Option.none := by simpa using none
  subst leaf
  have issued : ⟨path, .nullArgument⟩ ∈ owner.sites := by
    rw [Module.sites_eq_traverse, RoseTree.mem_traverse]
    exact ⟨_, inside, .inl List.mem_cons_self⟩
  have called : .nullArgument ∈ owner.sites.map Site.callback :=
    List.mem_map_of_mem issued
  rcases List.eq_append_cons_of_mem called with ⟨before, after, split, fresh⟩
  rcases List.map_eq_append_iff.mp split with ⟨past, rest, parts, pastEq, restEq⟩
  rcases List.map_eq_cons_iff.mp restEq with
    ⟨⟨place, callback⟩, future, restParts, same, -⟩
  cases same
  refine ⟨past, place, future, by rw [parts, restParts], ?_⟩
  intro site member missing
  exact fresh (pastEq ▸ missing ▸ List.mem_map_of_mem member)

/--
The calls of `walkTree` for every visitor that does not throw, and what a stack of the
open nodes holds at each of them.
-/
structure TraversalLaw (owner : Module) : Prop where
  completes : owner.NothingNull →
    ∀ (State : Type) (visitor : ExpressionTreeVisitor State),
      visitor.NeverThrows → ∀ start, ∃ final,
        walkTree visitor owner start = .ok () final ∧
          walkTree visitor.recording owner (start, []) =
            .ok () (final, .initializeVisitor ::
              owner.walkSites.map Site.issued ++ [.cleanUp])
  brackets : owner.NothingNull →
    owner.walkSites.filterMap Site.bracket? = owner.tree.brackets ∧
      RoseTree.Balanced owner.tree.brackets ∧ owner.tree.brackets.Nodup ∧
        owner.tree.brackets.filterMap RoseTree.Bracket.opened =
          owner.tree.preOrder ∧
          owner.tree.brackets.filterMap RoseTree.Bracket.closed =
            owner.tree.postOrder
  pushed : ∀ past site future, owner.walkSites = past ++ site :: future →
    past.foldl Site.onPlaces [] = site.openPlaces
  branches : ∀ place ∈ owner.tree.preOrder,
    owner.tree.Branch (place :: place.path.places)
  ancestryStack : ∀ past site visitor, owner.Reaches past site visitor →
    visitor.ancestryStack_.map some =
        (past.foldl Site.onPlaces []).map Place.node ∧
      ∀ node, site.callback = .visitedNode node →
        (past.foldl Site.onPlaces []).head? = some ⟨site.path, some node⟩ ∧
          visitor.ancestryStack_.head? = some node
  missing : ¬ owner.NothingNull →
    ∃ past path future,
      owner.walkSites = past ++ ⟨path, .nullArgument⟩ :: future ∧
        NothingMissing past ∧
          ∀ (State : Type) (visitor : ExpressionTreeVisitor State),
            visitor.NeverThrows → ∀ start, ∃ final,
              walkTree visitor owner start = .error argNotNull final ∧
                walkTree visitor.recording owner (start, []) =
                  .error argNotNull
                    (final, .initializeVisitor :: past.map Site.issued)

/-- Every walk of a module obeys the law. -/
theorem walk_is_traversal (owner : Module) : TraversalLaw owner := by
  have sites : owner.walkSites = owner.sites := owner.sites_eq_traverse.symm
  constructor
  · intro present State visitor quiet start
    rw [sites]
    exact quiet.walkTree_recording (Module.nothingMissing present) start
  · intro present
    exact ⟨Module.brackets_eq present, owner.tree.balanced_brackets,
      Module.brackets_nodup present, owner.tree.opened_brackets,
      owner.tree.closed_brackets⟩
  · intro past site future split
    exact Module.onPlaces_eq (sites ▸ split)
  · intro place member
    obtain ⟨inner, branch, leads⟩ := owner.rooted place member
    rw [branch, Path.places, List.append_nil]
    exact leads
  · intro past site visitor reached
    rcases reached.occurs with ⟨future, split⟩
    have stack := Module.onPlaces_eq split
    have nodes := reached.ancestryStack
    constructor
    · rw [stack, Site.map_node_openPlaces, nodes]
    · intro node leaves
      rw [stack, nodes, Site.openPlaces, leaves]
      exact ⟨rfl, rfl⟩
  · intro incomplete
    rcases Module.exists_missing incomplete with
      ⟨past, path, future, split, present⟩
    refine ⟨past, path, future, sites ▸ split, present, ?_⟩
    intro State visitor quiet start
    exact quiet.walkTree_recording_missing split present start

end Llast
