import Llast.Subtrees

/-!
# Where a callback stands in the tree

The nodes around a place and the Blocks among them, read off its path.  A visitor
that pushes in `visitingNode` and pops in `visitedNode`, or pushes in
`visitingBlock` and pops in `visitedBlock`, follows these surroundings: the sites
of every tree are a plan for such a stack.  A Block counts as open from its
`visitingBlock` to its `visitedBlock`, and what encloses a function is not
visible inside of it.
-/

namespace Llast

open Llast.EventRun

/-- The nodes on a path, innermost first. -/
def Path.nodes (path : Path) : List Node :=
  path.map Step.node

/--
The Blocks around a place inside its function, innermost first, each with its
own path.
-/
def enclosingBlocks : Path → List (Path × Scope)
  | [] => []
  | step :: outer =>
      match step.node with
      | .expr (.block scope _) => (outer, scope) :: enclosingBlocks outer
      | .function _ => []
      | _ => enclosingBlocks outer

/-- The function around a place. -/
def enclosingFunction : Path → Option Function
  | [] => none
  | step :: outer =>
      match step.node with
      | .function func => some func
      | _ => enclosingFunction outer

/-- The open nodes, the open Blocks and the open function. -/
structure Surroundings where
  nodes : List Node
  blocks : List (Path × Scope)
  function : Option Function

/-- The surroundings of a node with the given path. -/
def Path.surroundings (path : Path) : Surroundings where
  nodes := path.nodes
  blocks := enclosingBlocks path
  function := enclosingFunction path

/-- The node a callback is about, once it has been opened. -/
def Callback.openNode : Callback → Option Node
  | .nullArgument => none
  | .visitingNode _ => none
  | .visitedNode node => some node
  | .visitingBlock scope expressions => some (.expr (.block scope expressions))
  | .visitedBlock scope expressions => some (.expr (.block scope expressions))
  | .visitingConditional condition truePart falsePart =>
      some (.expr (.conditional condition truePart falsePart))
  | .visitedConditional condition truePart falsePart =>
      some (.expr (.conditional condition truePart falsePart))
  | .visitingBinary lValue operation rValue =>
      some (.expr (.binary lValue operation rValue))
  | .visitedBinary lValue operation rValue =>
      some (.expr (.binary lValue operation rValue))
  | .visitLiteralInt32 value => some (.expr (.literalInt32 value))
  | .visitLiteralFloat value => some (.expr (.literalFloat value))
  | .visitingReturn valueExpr => some (.expr (.return valueExpr))
  | .visitedReturn valueExpr => some (.expr (.return valueExpr))
  | .visitVariableRef var => some (.expr (.variableRef var))
  | .visitingAssignVariable var valueExpr =>
      some (.expr (.assignVariable var valueExpr))
  | .visitedAssignVariable var valueExpr =>
      some (.expr (.assignVariable var valueExpr))
  | .visitingFunction func => some (.function func)
  | .visitedFunction func => some (.function func)
  | .visitingModule owner => some (.module owner)
  | .visitedModule owner => some (.module owner)

/-- The Blocks that are open when the callback of a site is called. -/
def Site.openBlocks (site : Site) : List (Path × Scope) :=
  match site.callback with
  | .visitedBlock scope _ => (site.path, scope) :: enclosingBlocks site.path
  | _ => enclosingBlocks site.path

/-- The function that is open when the callback of a site is called. -/
def Site.openFunction (site : Site) : Option Function :=
  match site.callback with
  | .visitedFunction func => some func
  | _ => enclosingFunction site.path

/-- The surroundings in which the callback of a site is called. -/
def Site.surroundings (site : Site) : Surroundings where
  nodes := site.callback.openNode.toList ++ site.path.nodes
  blocks := site.openBlocks
  function := site.openFunction

/-- How the stacks of a visitor follow the callbacks. -/
def Surroundings.follow (around : Surroundings) (site : Site) : Surroundings :=
  match site.callback with
  | .visitingNode node => { around with nodes := node :: around.nodes }
  | .visitedNode _ => { around with nodes := around.nodes.tail }
  | .visitingBlock scope _ =>
      { around with blocks := (site.path, scope) :: around.blocks }
  | .visitedBlock _ _ => { around with blocks := around.blocks.tail }
  | .visitingFunction func => { around with function := some func }
  | .visitedFunction _ => { around with function := none }
  | _ => around

/-- The stacks hold exactly the surroundings of the site. -/
def Site.Fits (site : Site) (around : Surroundings) : Prop :=
  around = site.surroundings

/-- A list of sites that finds its surroundings and gives them back. -/
abbrev Balanced (around : Surroundings) (sites : List Site)
    (final : Surroundings) : Prop :=
  Plan Surroundings.follow Site.Fits around sites final

/-! ## The sites of every tree are balanced -/

/-- The surroundings of the children of a node. -/
def Path.inside (path : Path) (node : Node) : Surroundings :=
  Path.surroundings (⟨node, 0⟩ :: path)

theorem Path.surroundings_child (path : Path) (node : Node) (child : Nat) :
    Path.surroundings (⟨node, child⟩ :: path) = path.inside node :=
  rfl

private theorem bracket_balanced {path : Path} {node : Node}
    {opening closing : List Callback} {children : List Site}
    (opens :
      Balanced { path.surroundings with nodes := node :: path.nodes }
        (opening.map (Site.mk path)) (path.inside node))
    (middle : Balanced (path.inside node) children (path.inside node))
    (closes :
      Balanced (path.inside node) (closing.map (Site.mk path))
        { path.surroundings with nodes := node :: path.nodes }) :
    Balanced path.surroundings (bracket path node opening children closing)
      path.surroundings := by
  have leaves :
      Balanced { path.surroundings with nodes := node :: path.nodes }
        [⟨path, .visitedNode node⟩] path.surroundings :=
    .cons rfl (.nil _)
  exact .cons rfl (((opens.append middle).append closes).append leaves)

private theorem childSites_balanced_of_each {expressions : List Expr}
    {node : Node} {path : Path}
    (each : ∀ expr ∈ expressions, ∀ path : Path,
      Balanced path.surroundings (expr.sites path) path.surroundings)
    (child : Nat) :
    Balanced (path.inside node) (childSites expressions node path child)
      (path.inside node) := by
  induction expressions generalizing child with
  | nil => exact .nil _
  | cons expr rest ih =>
      have first := each expr List.mem_cons_self (⟨node, child⟩ :: path)
      rw [Path.surroundings_child] at first
      exact first.append
        (ih (fun expr member => each expr (List.mem_cons_of_mem _ member))
          (child + 1))

/-- The sites of an expression leave the surroundings as they find them. -/
theorem Expr.sites_balanced (expr : Expr) (path : Path) :
    Balanced path.surroundings (expr.sites path) path.surroundings := by
  induction expr generalizing path with
  | null => exact .cons rfl (.nil _)
  | literalInt32 value =>
      exact bracket_balanced (.cons rfl (.nil _)) (.nil _) (.nil _)
  | literalFloat value =>
      exact bracket_balanced (.cons rfl (.nil _)) (.nil _) (.nil _)
  | variableRef var =>
      exact bracket_balanced (.cons rfl (.nil _)) (.nil _) (.nil _)
  | binary lValue operation rValue leftIH rightIH =>
      have left := leftIH (⟨.expr (.binary lValue operation rValue), 0⟩ :: path)
      have right :=
        rightIH (⟨.expr (.binary lValue operation rValue), 1⟩ :: path)
      exact bracket_balanced (.cons rfl (.nil _)) (left.append right)
        (.cons rfl (.nil _))
  | assignVariable var valueExpr valueIH =>
      have value :=
        valueIH (⟨.expr (.assignVariable var valueExpr), 0⟩ :: path)
      exact bracket_balanced (.cons rfl (.nil _)) value (.cons rfl (.nil _))
  | «return» valueExpr valueIH =>
      have value := valueIH (⟨.expr (.return valueExpr), 0⟩ :: path)
      exact bracket_balanced (.cons rfl (.nil _)) value (.cons rfl (.nil _))
  | block scope expressions each =>
      exact bracket_balanced (.cons rfl (.nil _))
        (childSites_balanced_of_each each 0) (.cons rfl (.nil _))
  | conditional condition truePart falsePart conditionIH trueIH falseIH =>
      let node := Node.expr (.conditional condition truePart falsePart)
      have first := conditionIH (⟨node, 0⟩ :: path)
      have second :
          Balanced (path.inside node)
            (if truePart.isNull then []
              else truePart.sites (⟨node, 1⟩ :: path))
            (path.inside node) := by
        cases truePart.isNull with
        | true => exact .nil _
        | false => exact trueIH (⟨node, 1⟩ :: path)
      have third :
          Balanced (path.inside node)
            (if falsePart.isNull then []
              else falsePart.sites (⟨node, 2⟩ :: path))
            (path.inside node) := by
        cases falsePart.isNull with
        | true => exact .nil _
        | false => exact falseIH (⟨node, 2⟩ :: path)
      exact bracket_balanced (.cons rfl (.nil _))
        ((first.append second).append third) (.cons rfl (.nil _))

theorem Function.sites_balanced (func : Function) (path : Path)
    (noBlock : enclosingBlocks path = [])
    (noFunction : enclosingFunction path = none) :
    Balanced path.surroundings (func.sites path) path.surroundings := by
  have body := func.body.sites_balanced (⟨.function func, 0⟩ :: path)
  have entered :
      path.inside (.function func) =
        { nodes := .function func :: path.nodes
          blocks := path.surroundings.blocks
          function := some func } := by
    simp [Path.inside, Path.surroundings, Path.nodes, enclosingBlocks,
      enclosingFunction, noBlock]
  have left :
      { path.surroundings with nodes := .function func :: path.nodes } =
        { nodes := .function func :: path.nodes
          blocks := path.surroundings.blocks
          function := none : Surroundings } := by
    rw [← noFunction]
    rfl
  refine bracket_balanced ?_ body ?_
  · rw [entered]
    exact .cons rfl (.nil _)
  · rw [entered, left]
    exact .cons rfl (.nil _)

private theorem functionSites_balanced (owner : Module)
    (functions : List (Option Function)) (child : Nat) :
    Balanced (Path.inside [] (.module owner))
      (functionSites owner functions child)
      (Path.inside [] (.module owner)) := by
  induction functions generalizing child with
  | nil => exact .nil _
  | cons func rest ih =>
      cases func with
      | none => exact .cons rfl (ih (child + 1))
      | some func =>
          exact (func.sites_balanced [⟨.module owner, child⟩] rfl rfl).append
            (ih (child + 1))

/-- The sites of a module open and close everything they are about. -/
theorem Module.sites_balanced (owner : Module) :
    Balanced (Path.surroundings []) owner.sites (Path.surroundings []) :=
  bracket_balanced (.cons rfl (.nil _))
    (functionSites_balanced owner owner.functions 0) (.cons rfl (.nil _))

/-- Before any site of a module, the stacks hold what encloses the site. -/
theorem Module.surroundings_eq (owner : Module) {past future : List Site}
    {site : Site} (split : owner.sites = past ++ site :: future) :
    past.foldl Surroundings.follow (Path.surroundings []) =
      site.surroundings := by
  have plan := owner.sites_balanced
  rw [split] at plan
  exact plan.expected

/-! ## The function around a callback -/

theorem Expr.enclosingFunction_of_mem_sites (expr : Expr) {path : Path}
    {site : Site} (member : site ∈ expr.sites path) :
    enclosingFunction site.path = enclosingFunction path := by
  induction expr using Expr.children_induction generalizing path with
  | step expr ih =>
      rcases Expr.mem_sites.mp member with ⟨same, -⟩ | ⟨child, inside, member⟩
      · rw [same]
      · have same := ih child inside member
        exact same

/-- A callback about an expression is issued inside a function. -/
theorem Module.enclosingFunction_of_inner {owner : Module} {site : Site}
    (member : site ∈ owner.sites) (inner : ¬ site.callback.Outer)
    (present : site.callback ≠ .nullArgument) :
    ∃ func, enclosingFunction site.path = some func := by
  rcases Module.mem_sites member with
    ⟨-, own⟩ | ⟨child, -, same⟩ | ⟨child, func, place, ⟨-, own⟩ | inBody⟩
  · refine absurd ?_ inner
    simp only [Module.ownCallbacks, List.mem_cons, List.not_mem_nil, or_false]
      at own
    rcases own with own | own | own | own <;> rw [own] <;> trivial
  · rw [same] at present
    exact absurd rfl present
  · refine absurd ?_ inner
    simp only [Function.ownCallbacks, List.mem_cons, List.not_mem_nil, or_false]
      at own
    rcases own with own | own | own | own <;> rw [own] <;> trivial
  · exact ⟨func, func.body.enclosingFunction_of_mem_sites inBody⟩

theorem Site.openFunction_of_inner {site : Site}
    (inner : ¬ site.callback.Outer) :
    site.openFunction = enclosingFunction site.path := by
  rcases site with ⟨path, callback⟩
  cases callback <;> first | rfl | exact absurd trivial inner

end Llast
