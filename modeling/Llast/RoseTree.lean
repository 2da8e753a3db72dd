import Mathlib.Data.List.Basic

/-!
# Rose trees

Finite trees with ordered children, and the lists that are read off them: the events
of a depth-first walk, of which the pre-order, the post-order and the brackets are
cases, and the outline, which gives every label with its depth.  An outline
determines its tree: `ofOutline` hangs each entry over the deeper entries that
follow it.
-/

namespace Llast

/-- A node with its label and its children in order. -/
inductive RoseTree (Label : Type) where
  | node (label : Label) (children : List (RoseTree Label))

namespace RoseTree

variable {Label Other Event Result : Type}

/-- Induction over trees, with the children as one family. -/
@[induction_eliminator]
theorem induction {motive : RoseTree Label → Prop}
    (node : ∀ label children,
      (∀ child ∈ children, motive child) → motive (.node label children))
    (tree : RoseTree Label) : motive tree := by
  refine RoseTree.rec (motive_1 := motive)
    (motive_2 := fun children => ∀ child ∈ children, motive child)
    node ?nil ?cons tree
  case nil =>
    intro child member
    exact absurd member List.not_mem_nil
  case cons =>
    intro head tail headHolds tailHolds child member
    rcases List.mem_cons.mp member with rfl | member
    · exact headHolds
    · exact tailHolds child member

mutual

/-- Combine the label of every node with the results of its children. -/
def fold (combine : Label → List Result → Result) : RoseTree Label → Result
  | .node label children => combine label (foldEach combine children)

/-- The results of some trees. -/
def foldEach (combine : Label → List Result → Result) :
    List (RoseTree Label) → List Result
  | [] => []
  | child :: rest => fold combine child :: foldEach combine rest

end

theorem foldEach_eq_map (combine : Label → List Result → Result)
    (children : List (RoseTree Label)) :
    foldEach combine children = children.map (fold combine) := by
  induction children with
  | nil => rfl
  | cons child rest ih => rw [foldEach, ih, List.map_cons]

theorem fold_node (combine : Label → List Result → Result) (label : Label)
    (children : List (RoseTree Label)) :
    (node label children).fold combine =
      combine label (children.map (fold combine)) := by
  rw [fold, foldEach_eq_map]

/-- The tree with other labels. -/
def map (relabel : Label → Other) : RoseTree Label → RoseTree Other :=
  fold fun label children => .node (relabel label) children

@[simp]
theorem map_node (relabel : Label → Other) (label : Label)
    (children : List (RoseTree Label)) :
    (node label children).map relabel =
      .node (relabel label) (children.map (map relabel)) :=
  fold_node _ _ _

/-! ## Walks -/

/--
The events of a depth-first walk: some before the children of a node and some after
them.
-/
def traverse (before after : Label → List Event) :
    RoseTree Label → List Event :=
  fold fun label children => before label ++ children.flatten ++ after label

@[simp]
theorem traverse_node (before after : Label → List Event) (label : Label)
    (children : List (RoseTree Label)) :
    (node label children).traverse before after =
      before label ++ children.flatMap (traverse before after) ++
        after label := by
  rw [traverse, fold_node, List.flatMap]

/-- The labels, each before those of the children. -/
def preOrder : RoseTree Label → List Label :=
  traverse (fun label => [label]) fun _ => []

/-- The labels, each after those of the children. -/
def postOrder : RoseTree Label → List Label :=
  traverse (fun _ => []) fun label => [label]

/-- Going down to a node and leaving it. -/
inductive Bracket (Label : Type) where
  | opening (label : Label)
  | closing (label : Label)
deriving DecidableEq, Repr

/-- The brackets around the nodes. -/
def brackets : RoseTree Label → List (Bracket Label) :=
  traverse (fun label => [.opening label]) fun label => [.closing label]

/-- A bracket contains brackets that are balanced, and such may follow it. -/
inductive Balanced : List (Bracket Label) → Prop where
  | nil : Balanced []
  | wrap {inner rest : List (Bracket Label)} (label : Label)
      (inside : Balanced inner) (behind : Balanced rest) :
      Balanced (.opening label :: inner ++ .closing label :: rest)

theorem Balanced.append {first second : List (Bracket Label)}
    (balanced : Balanced first) (behind : Balanced second) :
    Balanced (first ++ second) := by
  induction balanced with
  | nil => exact behind
  | wrap label inside rest insideIH restIH =>
      have wrapped := Balanced.wrap label inside restIH
      simpa using wrapped

/-- The brackets around the nodes of some trees are balanced. -/
theorem balanced_flatMap {children : List (RoseTree Label)}
    (each : ∀ child ∈ children, Balanced child.brackets) :
    Balanced (children.flatMap brackets) := by
  induction children with
  | nil => exact .nil
  | cons child rest ih =>
      rw [List.flatMap_cons]
      exact (each child List.mem_cons_self).append
        (ih fun other member => each other (List.mem_cons_of_mem _ member))

theorem brackets_node (label : Label) (children : List (RoseTree Label)) :
    (node label children).brackets =
      .opening label :: children.flatMap brackets ++ [.closing label] :=
  traverse_node _ _ _ _

theorem balanced_brackets (tree : RoseTree Label) :
    Balanced tree.brackets := by
  induction tree with
  | node label children ih =>
      rw [brackets_node]
      exact .wrap label (balanced_flatMap ih) .nil

/-- The labels from a node, which comes first, up to the root. -/
inductive Branch : RoseTree Label → List Label → Prop where
  | root (label : Label) (children : List (RoseTree Label)) :
      Branch (.node label children) [label]
  | inChild {label : Label} {children : List (RoseTree Label)}
      {child : RoseTree Label} {branch : List Label}
      (member : child ∈ children) (leads : Branch child branch) :
      Branch (.node label children) (branch ++ [label])

/-- Looking only at some events of a walk is again a walk. -/
theorem filterMap_traverse (select : Event → Option Result)
    (before after : Label → List Event) (tree : RoseTree Label) :
    (tree.traverse before after).filterMap select =
      tree.traverse (fun label => (before label).filterMap select)
        fun label => (after label).filterMap select := by
  induction tree with
  | node label children ih =>
      rw [traverse_node, traverse_node, List.filterMap_append,
        List.filterMap_append, List.filterMap_flatMap]
      congr 2
      exact List.flatMap_congr ih

theorem mem_preOrder_node {label other : Label}
    {children : List (RoseTree Label)} :
    other ∈ (node label children).preOrder ↔
      other = label ∨ ∃ child ∈ children, other ∈ child.preOrder := by
  rw [preOrder, traverse_node, List.append_nil, List.singleton_append,
    List.mem_cons, List.mem_flatMap]

/-- A walk depends on the events of the labels of the tree only. -/
theorem traverse_congr {before after otherBefore otherAfter : Label → List Event}
    {tree : RoseTree Label}
    (same : ∀ label ∈ tree.preOrder,
      before label = otherBefore label ∧ after label = otherAfter label) :
    tree.traverse before after = tree.traverse otherBefore otherAfter := by
  induction tree with
  | node label children ih =>
      have own := same label (mem_preOrder_node.mpr (.inl rfl))
      rw [traverse_node, traverse_node, own.1, own.2]
      congr 2
      apply List.flatMap_congr
      intro child member
      apply ih child member
      intro other inside
      exact same other (mem_preOrder_node.mpr (.inr ⟨child, member, inside⟩))

theorem mem_traverse {before after : Label → List Event}
    {tree : RoseTree Label} {event : Event} :
    event ∈ tree.traverse before after ↔
      ∃ label ∈ tree.preOrder, event ∈ before label ∨ event ∈ after label := by
  induction tree with
  | node label children ih =>
      rw [traverse_node, List.mem_append, List.mem_append, List.mem_flatMap]
      constructor
      · rintro ((own | ⟨child, member, inside⟩) | own)
        · exact ⟨label, mem_preOrder_node.mpr (.inl rfl), .inl own⟩
        · rcases (ih child member).mp inside with ⟨other, below, issues⟩
          exact ⟨other, mem_preOrder_node.mpr (.inr ⟨child, member, below⟩),
            issues⟩
        · exact ⟨label, mem_preOrder_node.mpr (.inl rfl), .inr own⟩
      · rintro ⟨other, inside, issues⟩
        rcases mem_preOrder_node.mp inside with rfl | ⟨child, member, below⟩
        · rcases issues with own | own
          · exact .inl (.inl own)
          · exact .inr own
        · exact .inl (.inr ⟨child, member,
            (ih child member).mpr ⟨other, below, issues⟩⟩)

/-- What the events of a walk stand for is again a walk. -/
theorem flatMap_traverse (meaning : Event → List Result)
    (before after : Label → List Event) (tree : RoseTree Label) :
    (tree.traverse before after).flatMap meaning =
      tree.traverse (fun label => (before label).flatMap meaning)
        fun label => (after label).flatMap meaning := by
  induction tree with
  | node label children ih =>
      rw [traverse_node, traverse_node, List.flatMap_append,
        List.flatMap_append, List.flatMap_assoc]
      congr 2
      exact List.flatMap_congr ih

/-- A walk with events only before the children goes through the pre-order. -/
theorem traverse_before (before : Label → List Event) (tree : RoseTree Label) :
    (tree.traverse before fun _ => []) = tree.preOrder.flatMap before := by
  rw [preOrder, flatMap_traverse]
  apply traverse_congr
  intro label member
  simp

/-- The label a bracket opens. -/
def Bracket.opened : Bracket Label → Option Label
  | .opening label => some label
  | .closing _ => none

/-- The label a bracket closes. -/
def Bracket.closed : Bracket Label → Option Label
  | .opening _ => none
  | .closing label => some label

/-- The brackets are opened in pre-order. -/
theorem opened_brackets (tree : RoseTree Label) :
    tree.brackets.filterMap Bracket.opened = tree.preOrder :=
  filterMap_traverse _ _ _ _

/-- The brackets are closed in post-order. -/
theorem closed_brackets (tree : RoseTree Label) :
    tree.brackets.filterMap Bracket.closed = tree.postOrder :=
  filterMap_traverse _ _ _ _

/-! ## Outlines -/

/-- Every label with its depth, in pre-order. -/
def outline (tree : RoseTree Label) (depth : Nat) : List (Nat × Label) :=
  tree.fold (fun label children depth =>
    (depth, label) :: children.flatMap fun child => child (depth + 1)) depth

@[simp]
theorem outline_node (label : Label) (children : List (RoseTree Label))
    (depth : Nat) :
    (node label children).outline depth =
      (depth, label) ::
        children.flatMap fun child => child.outline (depth + 1) := by
  rw [outline, fold_node, List.flatMap_map]
  rfl

/-- An outline goes through the labels in pre-order. -/
theorem map_snd_outline (tree : RoseTree Label) (depth : Nat) :
    (tree.outline depth).map Prod.snd = tree.preOrder := by
  induction tree generalizing depth with
  | node label children ih =>
      rw [outline_node, preOrder, traverse_node, List.map_cons, List.map_flatMap,
        List.append_nil, List.singleton_append]
      congr 1
      exact List.flatMap_congr fun child member => ih child member (depth + 1)

theorem outline_map (relabel : Label → Other) (tree : RoseTree Label)
    (depth : Nat) :
    (tree.map relabel).outline depth =
      (tree.outline depth).map fun entry => (entry.1, relabel entry.2) := by
  induction tree generalizing depth with
  | node label children ih =>
      rw [map_node, outline_node, outline_node, List.map_cons, List.flatMap_map,
        List.map_flatMap]
      congr 1
      exact List.flatMap_congr fun child member => ih child member (depth + 1)

/-- Every entry becomes the parent of the deeper ones that directly follow it. -/
def hang (entry : Nat × Label) (later : List (Nat × RoseTree Label)) :
    List (Nat × RoseTree Label) :=
  (entry.1, .node entry.2
      ((later.takeWhile fun other => entry.1 < other.1).map Prod.snd)) ::
    later.dropWhile fun other => entry.1 < other.1

/-- The tree with the given outline. -/
def ofOutline (entries : List (Nat × Label)) : Option (RoseTree Label) :=
  match entries.foldr hang [] with
  | [(_, tree)] => some tree
  | _ => none

/-- The next tree does not hang below what stands at the depth. -/
def NotBelow (depth : Nat) (later : List (Nat × RoseTree Label)) : Prop :=
  ∀ entry ∈ later.head?, entry.1 ≤ depth

/-- An entry is hung over all its children and nothing else. -/
theorem hang_children (label : Label) (depth : Nat)
    (children : List (RoseTree Label)) {later : List (Nat × RoseTree Label)}
    (outside : NotBelow depth later) :
    hang (depth, label) (children.map (depth + 1, ·) ++ later) =
      (depth, .node label children) :: later := by
  have below : ∀ entry ∈ children.map ((depth + 1, ·) : _ → Nat × RoseTree Label),
      decide (depth < entry.1) = true := by
    intro entry member
    rcases List.mem_map.mp member with ⟨child, -, rfl⟩
    simp
  have taken : later.takeWhile (fun other => decide (depth < other.1)) = [] := by
    cases later with
    | nil => rfl
    | cons entry rest =>
        have high := outside entry rfl
        rw [List.takeWhile_cons_of_neg]
        simpa using high
  have left : later.dropWhile (fun other => decide (depth < other.1)) = later := by
    cases later with
    | nil => rfl
    | cons entry rest =>
        have high := outside entry rfl
        rw [List.dropWhile_cons_of_neg]
        simpa using high
  rw [hang, List.takeWhile_append_of_pos below, List.dropWhile_append_of_pos below,
    taken, left, List.append_nil, List.map_map]
  congr 2
  exact congrArg _ (List.map_id _)

/-- Hanging the outlines of some trees of one depth gives these trees. -/
theorem foldr_hang_flatMap {children : List (RoseTree Label)} {depth : Nat}
    (each : ∀ child ∈ children, ∀ later, NotBelow depth later →
      (child.outline depth).foldr hang later = (depth, child) :: later)
    {later : List (Nat × RoseTree Label)} (outside : NotBelow depth later) :
    (children.flatMap fun child => child.outline depth).foldr hang later =
      children.map (depth, ·) ++ later := by
  induction children with
  | nil => rfl
  | cons child rest ih =>
      rw [List.flatMap_cons, List.foldr_append,
        ih fun other member => each other (List.mem_cons_of_mem _ member)]
      apply each child List.mem_cons_self
      cases rest with
      | nil => exact outside
      | cons next others =>
          intro entry same
          cases same
          exact Nat.le_refl depth

theorem foldr_hang_outline (tree : RoseTree Label) (depth : Nat)
    {later : List (Nat × RoseTree Label)} (outside : NotBelow depth later) :
    (tree.outline depth).foldr hang later = (depth, tree) :: later := by
  induction tree generalizing depth later with
  | node label children ih =>
      have deeper : NotBelow (depth + 1) later :=
        fun entry member => Nat.le_succ_of_le (outside entry member)
      rw [outline_node, List.foldr_cons,
        foldr_hang_flatMap (fun child member later => ih child member (depth + 1))
          deeper,
        hang_children label depth children outside]

/-- An outline determines the tree it was read off. -/
theorem ofOutline_outline (tree : RoseTree Label) (depth : Nat) :
    ofOutline (tree.outline depth) = some tree := by
  rw [ofOutline, foldr_hang_outline tree depth (by simp [NotBelow])]

end RoseTree

end Llast
