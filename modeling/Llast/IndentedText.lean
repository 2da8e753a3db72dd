import Llast.RoseTree

/-!
# Trees as indented text

A tree of texts is written with one line for each node, in pre-order and indented by
the depth of the node.  Lines and leading tabs give the outline back, and with it the
tree, unless a label contains a line break or begins with a tab.
-/

namespace Llast

/-- The tabs in front of a line. -/
def tabs (count : Nat) : String :=
  String.ofList (List.replicate count '\t')

/-- A line break, the indentation and the label. -/
def line (entry : Nat × String) : String :=
  "\n" ++ tabs entry.1 ++ entry.2

/-- The lines of a tree whose root is indented by `depth`. -/
def RoseTree.text (tree : RoseTree String) (depth : Nat) : String :=
  String.join ((tree.outline depth).map line)

/-- The depth of a line and its label. -/
def readLine (characters : List Char) : Nat × String :=
  ((characters.takeWhile (· = '\t')).length,
    String.ofList (characters.dropWhile (· = '\t')))

/-- The tree that is written, with an empty line before it and one after it. -/
def readTree (text : String) : Option (RoseTree String) :=
  RoseTree.ofOutline
    ((text.toList.splitOn '\n').tail.dropLast.map readLine)

/-- The label stays on its line, and does not look like indentation. -/
structure Legible (label : String) : Prop where
  oneLine : '\n' ∉ label.toList
  noTab : label.toList.head? ≠ some '\t'

/-- The characters of a line after its line break. -/
def lineBody (entry : Nat × String) : List Char :=
  List.replicate entry.1 '\t' ++ entry.2.toList

theorem toList_line (entry : Nat × String) :
    (line entry).toList = '\n' :: lineBody entry := by
  simp [line, tabs, lineBody]

theorem readLine_lineBody {entry : Nat × String} (legible : Legible entry.2) :
    readLine (lineBody entry) = entry := by
  have indentation :
      ∀ character ∈ List.replicate entry.1 '\t',
        decide (character = '\t') = true := by
    intro character member
    rw [List.eq_of_mem_replicate member]
    rfl
  have taken :
      entry.2.toList.takeWhile (fun character => decide (character = '\t')) =
          [] ∧
        entry.2.toList.dropWhile (fun character => decide (character = '\t')) =
          entry.2.toList := by
    cases characters : entry.2.toList with
    | nil => exact ⟨rfl, rfl⟩
    | cons first rest =>
        have other : first ≠ '\t' := by
          intro same
          exact legible.noTab (by rw [characters, same]; rfl)
        constructor
        · rw [List.takeWhile_cons_of_neg (by simpa using other)]
        · rw [List.dropWhile_cons_of_neg (by simpa using other)]
  rw [readLine, lineBody, List.takeWhile_append_of_pos indentation,
    List.dropWhile_append_of_pos indentation, taken.1, taken.2,
    List.append_nil, List.length_replicate, String.ofList_toList]

theorem newline_notMem_lineBody {entry : Nat × String}
    (legible : Legible entry.2) : '\n' ∉ lineBody entry := by
  intro member
  rcases List.mem_append.mp member with indentation | inLabel
  · exact absurd (List.eq_of_mem_replicate indentation) (by decide)
  · exact legible.oneLine inLabel

/-- Splitting at the line breaks gives the lines. -/
theorem splitOn_lines {entries : List (Nat × String)}
    (legible : ∀ entry ∈ entries, Legible entry.2) {first : List Char}
    (oneLine : '\n' ∉ first) :
    (first ++ (entries.flatMap (fun entry => '\n' :: lineBody entry) ++
      ['\n'])).splitOn '\n' = first :: entries.map lineBody ++ [[]] := by
  induction entries generalizing first with
  | nil =>
      rw [List.flatMap_nil, List.nil_append,
        List.splitOn_append_cons_self_of_not_mem oneLine]
      rfl
  | cons entry rest ih =>
      have here := newline_notMem_lineBody (legible entry List.mem_cons_self)
      have later := ih
        (fun other member => legible other (List.mem_cons_of_mem _ member)) here
      rw [List.flatMap_cons, List.cons_append, List.cons_append,
        List.splitOn_append_cons_self_of_not_mem oneLine, List.append_assoc,
        later]
      simp

/-- A tree of legible labels can be read back from its text. -/
theorem readTree_text {tree : RoseTree String}
    (legible : ∀ label ∈ tree.preOrder, Legible label) (depth : Nat) :
    readTree (tree.text depth ++ "\n") = some tree := by
  have entries : ∀ entry ∈ tree.outline depth, Legible entry.2 := by
    intro entry member
    apply legible
    rw [← RoseTree.map_snd_outline tree depth]
    exact List.mem_map_of_mem member
  have characters :
      (tree.text depth ++ "\n").toList =
        [] ++ ((tree.outline depth).flatMap (fun entry =>
          '\n' :: lineBody entry) ++ ['\n']) := by
    rw [RoseTree.text, String.toList_append, String.toList_join,
      List.flatMap_map, funext toList_line]
    rfl
  have same :
      ((tree.outline depth).map lineBody).map readLine = tree.outline depth := by
    rw [List.map_map]
    conv_rhs => rw [← List.map_id (tree.outline depth)]
    exact List.map_congr_left fun entry member =>
      readLine_lineBody (entries entry member)
  rw [readTree, characters, splitOn_lines entries List.not_mem_nil,
    List.cons_append, List.tail_cons, List.dropLast_concat, same,
    RoseTree.ofOutline_outline]

end Llast
