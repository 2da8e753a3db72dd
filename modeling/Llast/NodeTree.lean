import Llast.RoseTree
import Llast.Subtrees

/-!
# The tree of the nodes of a module

A module with its functions and their expressions is a finite tree of places: every
node stands at its own place, and where a required child is missing there is a leaf
without a node.  An absent arm of a conditional is no place at all.  The sites of a
walk are the walk of this tree that issues, at each place, the callbacks of the kind
of its node.
-/

namespace Llast

/-- A place of a tree, with the node that stands there unless it is missing. -/
structure Place where
  path : Path
  node : Option Node

/-! ## The tree -/

mutual

/-- The tree of an expression whose parents are `path`. -/
def Expr.tree : Expr → Path → RoseTree Place
  | .null, path => .node ⟨path, none⟩ []
  | .literalInt32 value, path =>
      .node ⟨path, some (.expr (.literalInt32 value))⟩ []
  | .literalFloat value, path =>
      .node ⟨path, some (.expr (.literalFloat value))⟩ []
  | .binary lValue operation rValue, path =>
      let node := Node.expr (.binary lValue operation rValue)
      .node ⟨path, some node⟩
        [lValue.tree (⟨node, 0⟩ :: path), rValue.tree (⟨node, 1⟩ :: path)]
  | .variableRef var, path => .node ⟨path, some (.expr (.variableRef var))⟩ []
  | .assignVariable var valueExpr, path =>
      let node := Node.expr (.assignVariable var valueExpr)
      .node ⟨path, some node⟩ [valueExpr.tree (⟨node, 0⟩ :: path)]
  | .return valueExpr, path =>
      let node := Node.expr (.return valueExpr)
      .node ⟨path, some node⟩ [valueExpr.tree (⟨node, 0⟩ :: path)]
  | .block scope expressions, path =>
      let node := Node.expr (.block scope expressions)
      .node ⟨path, some node⟩ (childTrees expressions node path 0)
  | .conditional condition truePart falsePart, path =>
      let node := Node.expr (.conditional condition truePart falsePart)
      .node ⟨path, some node⟩
        (condition.tree (⟨node, 0⟩ :: path) ::
          ((if truePart.isNull then []
              else [truePart.tree (⟨node, 1⟩ :: path)]) ++
            (if falsePart.isNull then []
              else [falsePart.tree (⟨node, 2⟩ :: path)])))

/-- The trees of the children of a block, numbered from `child` on. -/
def childTrees : List Expr → Node → Path → Nat → List (RoseTree Place)
  | [], _, _, _ => []
  | expr :: rest, node, path, child =>
      expr.tree (⟨node, child⟩ :: path) :: childTrees rest node path (child + 1)

end

/-- The tree of a function. -/
def Function.tree (func : Function) (path : Path) : RoseTree Place :=
  .node ⟨path, some (.function func)⟩
    [func.body.tree (⟨.function func, 0⟩ :: path)]

/-- The trees of the functions of a module, numbered from `child` on. -/
def functionTrees (owner : Module) :
    List (Option Function) → Nat → List (RoseTree Place)
  | [], _ => []
  | none :: rest, child =>
      .node ⟨[⟨.module owner, child⟩], none⟩ [] ::
        functionTrees owner rest (child + 1)
  | some func :: rest, child =>
      func.tree [⟨.module owner, child⟩] ::
        functionTrees owner rest (child + 1)

/-- The tree of a module. -/
def Module.tree (owner : Module) : RoseTree Place :=
  .node ⟨[], some (.module owner)⟩ (functionTrees owner owner.functions 0)

/-- No required child of the module or below it is missing. -/
def Module.NothingNull (owner : Module) : Prop :=
  ∀ place ∈ owner.tree.preOrder, place.node.isSome

/-! ## The callbacks of a place -/

/-- The callbacks of a node before its children, after `visitingNode`. -/
def Node.opening : Node → List Callback
  | .expr expression => expression.opening
  | .function func => [.visitingFunction func]
  | .module owner => [.visitingModule owner]

/-- The callbacks of a node after its children, before `visitedNode`. -/
def Node.closing : Node → List Callback
  | .expr expression => expression.closing
  | .function func => [.visitedFunction func]
  | .module owner => [.visitedModule owner]

/-- What is called at a place before its children, or the null test that fails. -/
def Place.before (place : Place) : List Site :=
  match place.node with
  | none => [⟨place.path, .nullArgument⟩]
  | some node =>
      ⟨place.path, .visitingNode node⟩ :: node.opening.map (Site.mk place.path)

/-- What is called at a place after its children. -/
def Place.after (place : Place) : List Site :=
  match place.node with
  | none => []
  | some node =>
      node.closing.map (Site.mk place.path) ++
        [⟨place.path, .visitedNode node⟩]

/-! ## The sites are a walk of the tree -/

private theorem childTrees_eq_map (expressions : List Expr) (node : Node)
    (path : Path) (first : Nat) :
    childTrees expressions node path first =
      (expressions.zipIdx first).map fun child =>
        child.1.tree (⟨node, child.2⟩ :: path) := by
  induction expressions generalizing first with
  | nil => rfl
  | cons expr rest ih =>
      rw [childTrees, ih, List.zipIdx_cons, List.map_cons]

/-- The node of an expression, unless it is missing. -/
def Expr.asNode (expr : Expr) : Option Node :=
  if expr.isNull then none else some (.expr expr)

/-- The tree of every kind of expression has the trees of its children below it. -/
theorem Expr.tree_eq (expr : Expr) (path : Path) :
    expr.tree path =
      .node ⟨path, expr.asNode⟩
        (expr.children.map fun child =>
          child.1.tree (⟨.expr expr, child.2⟩ :: path)) := by
  cases expr with
  | null => rfl
  | literalInt32 value => rfl
  | literalFloat value => rfl
  | variableRef var => rfl
  | binary lValue operation rValue =>
      rw [Expr.tree]
      rfl
  | assignVariable var valueExpr =>
      rw [Expr.tree]
      rfl
  | «return» valueExpr =>
      rw [Expr.tree]
      rfl
  | block scope expressions =>
      rw [Expr.tree, childTrees_eq_map]
      rfl
  | conditional condition truePart falsePart =>
      have present :
          (Expr.conditional condition truePart falsePart).asNode =
            some (.expr (.conditional condition truePart falsePart)) :=
        rfl
      rw [Expr.tree, present]
      cases noTrue : truePart.isNull <;> cases noFalse : falsePart.isNull <;>
        simp [Expr.children, noTrue, noFalse]

theorem Expr.sites_eq_traverse (expr : Expr) (path : Path) :
    expr.sites path = (expr.tree path).traverse Place.before Place.after := by
  induction expr using Expr.children_induction generalizing path with
  | step expr ih =>
      rw [Expr.tree_eq, RoseTree.traverse_node, List.flatMap_map]
      cases present : expr.isNull with
      | true =>
          cases expr <;> simp [Expr.isNull] at present
          rfl
      | false =>
          have below :
              expr.innerSites path =
                expr.children.flatMap fun child =>
                  (child.1.tree (⟨.expr expr, child.2⟩ :: path)).traverse
                    Place.before Place.after :=
            List.flatMap_congr fun child member => ih child member _
          rw [Expr.sites_eq present, below]
          simp [bracket, Place.before, Place.after, Expr.asNode, present,
            Node.opening, Node.closing]

theorem Function.sites_eq_traverse (func : Function) (path : Path) :
    func.sites path = (func.tree path).traverse Place.before Place.after := by
  rw [Function.tree, RoseTree.traverse_node, Function.sites,
    Expr.sites_eq_traverse]
  simp [bracket, Place.before, Place.after, Node.opening, Node.closing]

theorem functionSites_eq_traverse (owner : Module)
    (functions : List (Option Function)) (child : Nat) :
    functionSites owner functions child =
      (functionTrees owner functions child).flatMap
        (RoseTree.traverse Place.before Place.after) := by
  induction functions generalizing child with
  | nil => rfl
  | cons func rest ih =>
      cases func with
      | none =>
          rw [functionSites, functionTrees, List.flatMap_cons, ih]
          rfl
      | some func =>
          rw [functionSites, functionTrees, List.flatMap_cons, ih,
            Function.sites_eq_traverse]

/-- The sites of a module are the walk of its tree. -/
theorem Module.sites_eq_traverse (owner : Module) :
    owner.sites = owner.tree.traverse Place.before Place.after := by
  rw [Module.tree, RoseTree.traverse_node, Module.sites,
    functionSites_eq_traverse]
  simp [bracket, Place.before, Place.after, Node.opening, Node.closing]

/-! ## Induction over the tree of a module -/

section TreeInduction

variable {motive : Path → RoseTree Place → Prop}
variable
    (missing : ∀ path, motive path (.node ⟨path, none⟩ []))
    (node : ∀ path node children,
      (∀ child ∈ children, ∃ number, motive (⟨node, number⟩ :: path) child) →
        motive path (.node ⟨path, some node⟩ children))

include missing node

theorem Expr.tree_induction (expr : Expr) (path : Path) :
    motive path (expr.tree path) := by
  induction expr using Expr.children_induction generalizing path with
  | step expr ih =>
      cases present : expr.isNull with
      | true =>
          cases expr <;> simp [Expr.isNull] at present
          exact missing path
      | false =>
          have standing : expr.asNode = some (.expr expr) := by
            rw [Expr.asNode, present]
            rfl
          rw [Expr.tree_eq, standing]
          apply node
          intro child member
          rcases List.mem_map.mp member with ⟨part, inside, rfl⟩
          exact ⟨part.2, ih part inside _⟩

theorem functionTrees_induction {owner : Module}
    {functions : List (Option Function)} {first : Nat} {tree : RoseTree Place}
    (member : tree ∈ functionTrees owner functions first) :
    ∃ number, motive [⟨.module owner, number⟩] tree := by
  induction functions generalizing first with
  | nil => cases member
  | cons entry rest ih =>
      cases entry with
      | none =>
          rcases List.mem_cons.mp member with rfl | later
          · exact ⟨first, missing _⟩
          · exact ih later
      | some func =>
          rcases List.mem_cons.mp member with rfl | later
          · refine ⟨first, node _ _ _ fun body inside => ?_⟩
            rw [List.mem_singleton.mp inside]
            exact ⟨0, func.body.tree_induction missing node _⟩
          · exact ih later

/-- What passes from the children of a node to the node holds of every module. -/
theorem Module.tree_induction (owner : Module) : motive [] owner.tree :=
  node _ _ _ fun _ member => functionTrees_induction missing node member

end TreeInduction

end Llast
