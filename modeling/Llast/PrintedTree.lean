import Llast.PrettyPrinter
import Llast.TraversalLaw

/-!
# What the pretty printer prints

A walk with the pretty printer writes the tree of labels as indented text, and leaves
the indentation as it found it, unless it ends in an exception: then the nodes that
were open stay counted.
-/

namespace Llast

open Llast.EventRun
open Llast.PrettyPrinterVisitor

/-! ## Labels -/

/-- What the printer writes about an expression itself. -/
def Expr.label (order : SortByName) : Expr → String
  | .null => ""
  | .literalInt32 value => "LiteralInt32: " ++ int32ToString value
  | .literalFloat value => "LiteralFloat: " ++ floatToString value
  | .binary _ operation _ => "Binary: " ++ operation.toString
  | .variableRef var => "VariableRef: " ++ var.name
  | .assignVariable var _ => "AssignVariable: " ++ var.name
  | .return _ => "Return: "
  | .block scope _ => "Block:" ++ headerText (order.sort scope.variables)
  | .conditional _ _ _ => "Conditional: "

/-- What the printer writes about a node itself. -/
def Node.label (order : SortByName) : Node → String
  | .expr expression => expression.label order
  | .function func => "Function: " ++ func.name
  | .module owner => "Module: " ++ owner.name

/-- The label of the node of a place. -/
def Place.label (order : SortByName) (place : Place) : String :=
  (place.node.map (Node.label order)).getD ""

/-- The labels of a module, in the shape of the module. -/
def Module.labelTree (order : SortByName) (owner : Module) : RoseTree String :=
  owner.tree.map (Place.label order)

/-- What the callback of a site writes if the module is indented by `base`. -/
def Site.text (order : SortByName) (base : Nat) (site : Site) : String :=
  match site.callback with
  | .visitingNode _ => "\n" ++ tabs (base + site.path.length)
  | .visitingBlock scope _ =>
      "Block:" ++ headerText (order.sort scope.variables)
  | .visitingBinary _ operation _ => "Binary: " ++ operation.toString
  | .visitLiteralInt32 value => "LiteralInt32: " ++ int32ToString value
  | .visitLiteralFloat value => "LiteralFloat: " ++ floatToString value
  | .visitVariableRef var => "VariableRef: " ++ var.name
  | .visitingConditional _ _ _ => "Conditional: "
  | .visitingAssignVariable var _ => "AssignVariable: " ++ var.name
  | .visitingReturn _ => "Return: "
  | .visitingFunction func => "Function: " ++ func.name
  | .visitingModule owner => "Module: " ++ owner.name
  | _ => ""

/-! ## One callback -/

/-- The node can be printed: its variables are accepted. -/
def Node.Printable : Node → Prop
  | .expr (.block scope _) => ∀ var ∈ scope.variables, var.Accepted
  | _ => True

/-- Nothing is missing at the place, and its node can be printed. -/
def Place.Printable (place : Place) : Prop :=
  ∃ node, place.node = some node ∧ node.Printable

/-- The printer does not fail at the site. -/
def Site.Printable (site : Site) : Prop :=
  match site.callback with
  | .nullArgument => False
  | .visitingBlock scope _ => ∀ var ∈ scope.variables, var.Accepted
  | _ => True

/-- All of the module can be printed. -/
def Module.Printable (owner : Module) : Prop :=
  ∀ place ∈ owner.tree.preOrder, place.Printable

theorem Path.length_places (path : Path) :
    path.places.length = path.length := by
  induction path with
  | nil => rfl
  | cons step outer ih => rw [Path.places, List.length_cons, List.length_cons, ih]

/-- The printer stands at a site, the module being indented by `base`. -/
def PrettyPrinterVisitor.IndentedAt (printer : PrettyPrinterVisitor) (base : Nat)
    (stack : List Place) : Prop :=
  printer.indent_ = base - 1 + stack.length

theorem visitingBlock_of_accepted (order : SortByName) {scope : Scope}
    (accepted : ∀ var ∈ scope.variables, var.Accepted) (expressions : List Expr)
    (printer : PrettyPrinterVisitor) :
    PrettyPrinterVisitor.visitingBlock order scope expressions printer =
      .ok () (printer.wrote
        ("Block:" ++ headerText (order.sort scope.variables))) := by
  rw [PrettyPrinterVisitor.visitingBlock, bind_of_ok (write_eq "Block:" printer),
    writeScopeVariables_of_accepted order accepted, wrote_wrote]

theorem visitingBlock_of_rejected (order : SortByName) {scope : Scope}
    (rejected : ∃ var ∈ scope.variables, ¬ var.Accepted)
    (expressions : List Expr) (printer : PrettyPrinterVisitor) :
    ∃ final, PrettyPrinterVisitor.visitingBlock order scope expressions printer =
        .error (.thrown .unhandledSwitchCase) final ∧
      final.indent_ = printer.indent_ := by
  rw [PrettyPrinterVisitor.visitingBlock, bind_of_ok (write_eq "Block:" printer)]
  exact writeScopeVariables_of_rejected order rejected _

/-- A printable site is printed, and the indentation follows the open nodes. -/
theorem Site.Printable.prints {site : Site} (printable : site.Printable)
    (order : SortByName) {base : Nat} {printer : PrettyPrinterVisitor}
    (indented : printer.IndentedAt base site.openPlaces) :
    ∃ next, (prettyPrinter order).performAt site printer = .ok () next ∧
      next.IndentedAt base (Site.onPlaces site.openPlaces site) ∧
        next.out_ = printer.out_ ++ site.text order base := by
  rcases site with ⟨path, callback⟩
  cases callback with
  | nullArgument => exact printable.elim
  | visitingNode node =>
      have depth : printer.indent_ + 1 = (base + path.length : Nat) := by
        simp only [PrettyPrinterVisitor.IndentedAt, Site.openPlaces,
          Callback.openNode, Option.toList_none, List.map_nil, List.nil_append,
          Path.length_places] at indented
        omega
      refine ⟨_, visitingNode_eq node printer, ?_, ?_⟩
      · simp only [PrettyPrinterVisitor.IndentedAt, Site.onPlaces,
          List.length_cons, wrote_indent_] at indented ⊢
        omega
      · rw [depth, Int.toNat_natCast]
        rfl
  | visitedNode node =>
      refine ⟨_, rfl, ?_, String.append_empty.symm⟩
      simp only [PrettyPrinterVisitor.IndentedAt, Site.onPlaces, Site.openPlaces,
        Callback.openNode, Option.toList_some, List.map_cons, List.map_nil,
        List.singleton_append, List.length_cons, List.tail_cons] at indented ⊢
      omega
  | visitingBlock scope expressions =>
      exact ⟨_, visitingBlock_of_accepted order printable expressions printer,
        indented, rfl⟩
  | visitedBlock => exact ⟨_, rfl, indented, String.append_empty.symm⟩
  | visitedConditional => exact ⟨_, rfl, indented, String.append_empty.symm⟩
  | visitedBinary => exact ⟨_, rfl, indented, String.append_empty.symm⟩
  | visitedReturn => exact ⟨_, rfl, indented, String.append_empty.symm⟩
  | visitedAssignVariable => exact ⟨_, rfl, indented, String.append_empty.symm⟩
  | visitedFunction => exact ⟨_, rfl, indented, String.append_empty.symm⟩
  | visitedModule => exact ⟨_, rfl, indented, String.append_empty.symm⟩
  | _ => exact ⟨_, rfl, indented, rfl⟩

/-- At any other site the printer fails, and the indentation stays. -/
theorem Site.fails_of_not_printable {site : Site}
    (unprintable : ¬ site.Printable) (order : SortByName)
    (printer : PrettyPrinterVisitor) :
    ∃ fault final, (prettyPrinter order).performAt site printer =
        .error fault final ∧ final.indent_ = printer.indent_ := by
  rcases site with ⟨path, callback⟩
  cases callback with
  | nullArgument => exact ⟨argNotNull, printer, rfl, rfl⟩
  | visitingBlock scope expressions =>
      have rejected : ∃ var ∈ scope.variables, ¬ var.Accepted := by
        by_contra none
        push Not at none
        exact unprintable none
      obtain ⟨final, fails, indent⟩ :=
        visitingBlock_of_rejected order rejected expressions printer
      exact ⟨_, final, fails, indent⟩
  | _ => exact absurd trivial unprintable

theorem Site.printable_of_ok {site : Site} {order : SortByName}
    {printer next : PrettyPrinterVisitor}
    (completes : (prettyPrinter order).performAt site printer = .ok () next) :
    site.Printable := by
  by_contra unprintable
  obtain ⟨fault, final, fails, -⟩ :=
    Site.fails_of_not_printable unprintable order printer
  rw [fails] at completes
  cases completes

/-! ## The whole walk -/

/-- The text of some sites, one after the other. -/
def textOf (order : SortByName) (base : Nat) (sites : List Site) : String :=
  String.join (sites.map (Site.text order base))

/-- Wherever the walk gets to, the text and the indentation are those of the sites. -/
theorem printed_of_run {order : SortByName} {owner : Module} {base : Nat}
    {start printer : PrettyPrinterVisitor} (indented : start.IndentedAt base [])
    {past future : List Site} (split : owner.sites = past ++ future)
    (reaches : run (prettyPrinter order).performAt past start =
      .ok () printer) :
    printer.IndentedAt base (past.foldl Site.onPlaces []) ∧
      printer.out_ = start.out_ ++ textOf order base past := by
  refine reached_induction
    (motive := fun past printer =>
      printer.IndentedAt base (past.foldl Site.onPlaces []) ∧
        printer.out_ = start.out_ ++ textOf order base past)
    ?_ ?_ split reaches
  · exact ⟨indented, String.append_empty.symm⟩
  · intro past site before after reached performs ⟨indentedBefore, written⟩
    rcases reached.occurs with ⟨future, split⟩
    rw [Module.onPlaces_eq split] at indentedBefore
    obtain ⟨next, prints, indentedAfter, text⟩ :=
      (Site.printable_of_ok performs).prints order indentedBefore
    rw [prints] at performs
    cases performs
    rw [List.foldl_append, List.foldl_cons, List.foldl_nil,
      Module.onPlaces_eq split]
    refine ⟨indentedAfter, ?_⟩
    rw [text, written, textOf, textOf, List.map_append, String.join_append]
    simp [String.append_assoc]

/-- A walk of a printable module completes. -/
theorem run_of_printable (order : SortByName) {owner : Module} {base : Nat}
    {start : PrettyPrinterVisitor} (indented : start.IndentedAt base [])
    (printable : ∀ site ∈ owner.sites, site.Printable) :
    ∃ final, run (prettyPrinter order).performAt owner.sites start =
      .ok () final := by
  cases outcome : run (prettyPrinter order).performAt owner.sites start with
  | ok result final => exact ⟨final, rfl⟩
  | error fault final =>
      rcases (run_eq_error_iff _).mp outcome with
        ⟨past, site, future, printer, split, reaches, fails⟩
      have printed := (printed_of_run indented split reaches).1
      rw [Module.onPlaces_eq split] at printed
      have member : site ∈ owner.sites := by simp [split]
      obtain ⟨next, prints, -⟩ := (printable site member).prints order printed
      rw [prints] at fails
      cases fails

/-! ## The text of a module -/

/-- The outline of a module has every place at the length of its path. -/
theorem Module.outline_eq (owner : Module) (base : Nat) :
    owner.tree.outline base =
      owner.tree.preOrder.map fun place =>
        (base + place.path.length, place) := by
  refine owner.tree_induction
    (motive := fun path tree =>
      tree.outline (base + path.length) =
        tree.preOrder.map fun place => (base + place.path.length, place))
    ?_ ?_
  · intro path
    simp [RoseTree.preOrder]
  · intro path node children each
    rw [RoseTree.outline_node, RoseTree.preOrder, RoseTree.traverse_node,
      List.append_nil, List.singleton_append, List.map_cons, List.map_flatMap]
    congr 1
    refine List.flatMap_congr fun child member => ?_
    obtain ⟨number, below⟩ := each child member
    exact below

theorem textOf_nil (order : SortByName) (base : Nat) : textOf order base [] = "" :=
  String.join_nil

theorem textOf_singleton (order : SortByName) (base : Nat) (site : Site) :
    textOf order base [site] = site.text order base := by
  rw [textOf, List.map_singleton, String.join_cons, String.join_nil,
    String.append_empty]

theorem Node.text_of_own (order : SortByName) (base : Nat) (path : Path)
    (node : Node) :
    textOf order base (node.opening.map (Site.mk path)) = node.label order ∧
      textOf order base (node.closing.map (Site.mk path)) = "" := by
  have none := textOf_nil order base
  have one := fun callback => textOf_singleton order base ⟨path, callback⟩
  cases node with
  | expr expression =>
      cases expression with
      | null => exact ⟨none, none⟩
      | literalInt32 value => exact ⟨one (.visitLiteralInt32 value), none⟩
      | literalFloat value => exact ⟨one (.visitLiteralFloat value), none⟩
      | variableRef var => exact ⟨one (.visitVariableRef var), none⟩
      | _ => exact ⟨one _, one _⟩
  | function func => exact ⟨one _, one _⟩
  | «module» owner => exact ⟨one _, one _⟩

/-- A place is printed as one line, before its children. -/
theorem Place.text_eq (order : SortByName) (base : Nat) {place : Place}
    (present : place.node.isSome) :
    textOf order base place.before =
        line (base + place.path.length, place.label order) ∧
      textOf order base place.after = "" := by
  rcases place with ⟨path, node⟩
  cases node with
  | none => cases present
  | some node =>
      obtain ⟨opening, closing⟩ := node.text_of_own order base path
      constructor
      · rw [Place.before, textOf, List.map_cons, String.join_cons]
        exact congrArg _ opening
      · rw [Place.after, textOf, List.map_append, String.join_append]
        rw [textOf] at closing
        rw [closing]
        rfl

theorem toList_textOf (order : SortByName) (base : Nat) (sites : List Site) :
    (textOf order base sites).toList =
      sites.flatMap fun site => (site.text order base).toList := by
  rw [textOf, String.toList_join, List.flatMap_map]

/-- The sites of a module print its tree of labels. -/
theorem Module.textOf_sites {owner : Module} (present : owner.NothingNull)
    (order : SortByName) (base : Nat) :
    textOf order base owner.sites = (owner.labelTree order).text base := by
  have places :
      ∀ place ∈ owner.tree.preOrder,
        place.before.flatMap (fun site => (site.text order base).toList) =
            (line (base + place.path.length, place.label order)).toList ∧
          place.after.flatMap (fun site => (site.text order base).toList) =
            [] := by
    intro place member
    obtain ⟨before, after⟩ :=
      Place.text_eq order base (present place member)
    rw [← toList_textOf, ← toList_textOf, before, after]
    exact ⟨rfl, rfl⟩
  apply String.toList_inj.mp
  rw [toList_textOf, Module.sites_eq_traverse, RoseTree.flatMap_traverse,
    RoseTree.traverse_congr places, RoseTree.traverse_before, RoseTree.text,
    String.toList_join, Module.labelTree, RoseTree.outline_map,
    Module.outline_eq, List.flatMap_map, List.flatMap_map, List.flatMap_map]

/-! ## Printable modules -/

theorem Place.printable_iff {place : Place} :
    place.Printable ↔
      ∀ site, site ∈ place.before ∨ site ∈ place.after → site.Printable := by
  rcases place with ⟨path, node⟩
  cases node with
  | none => simp [Place.Printable, Place.before, Place.after, Site.Printable]
  | some node =>
      cases node with
      | expr expression =>
          cases expression <;>
            simp [Place.Printable, Place.before, Place.after, Node.opening,
              Node.closing, Expr.opening, Expr.closing, Node.Printable,
              Site.Printable, or_imp, forall_and]
      | function func =>
          simp [Place.Printable, Place.before, Place.after, Node.opening,
            Node.closing, Node.Printable, Site.Printable, or_imp, forall_and]
      | «module» owner =>
          simp [Place.Printable, Place.before, Place.after, Node.opening,
            Node.closing, Node.Printable, Site.Printable, or_imp, forall_and]

/-- The printer gets through a module exactly if all of it can be printed. -/
theorem Module.printable_iff {owner : Module} :
    owner.Printable ↔ ∀ site ∈ owner.sites, site.Printable := by
  rw [Module.sites_eq_traverse]
  constructor
  · intro printable site member
    rcases RoseTree.mem_traverse.mp member with ⟨place, inside, issues⟩
    exact Place.printable_iff.mp (printable place inside) site issues
  · intro printable place inside
    refine Place.printable_iff.mpr fun site issues => printable site ?_
    exact RoseTree.mem_traverse.mpr ⟨place, inside, issues⟩

theorem Module.Printable.nothingNull {owner : Module} (printable : owner.Printable) :
    owner.NothingNull := by
  intro place member
  rcases printable place member with ⟨node, standing, -⟩
  rw [standing]
  rfl

/-- Where the printer fails, some node is open. -/
theorem Module.openPlaces_of_not_printable {owner : Module} {site : Site}
    (member : site ∈ owner.sites) (unprintable : ¬ site.Printable) :
    0 < site.openPlaces.length := by
  rcases site with ⟨path, callback⟩
  cases callback with
  | nullArgument =>
      have below : path ≠ [] := by
        rcases Module.mem_sites member with
          ⟨-, own⟩ | ⟨child, -, same⟩ | ⟨child, func, -, ⟨-, own⟩ | inBody⟩
        · simp [Module.ownCallbacks] at own
        · cases same
          exact List.cons_ne_nil _ _
        · simp [Function.ownCallbacks] at own
        · rintro rfl
          have inside := func.body.suffix_of_mem_sites inBody
          exact absurd (List.suffix_nil.mp inside) (List.cons_ne_nil _ _)
      rw [Site.openPlaces, List.length_append, Path.length_places]
      exact Nat.lt_of_lt_of_le (List.length_pos_iff.mpr below)
        (Nat.le_add_left _ _)
  | visitingBlock scope expressions =>
      simp [Site.openPlaces, Callback.openNode]
  | _ => exact absurd trivial unprintable

section WalkTree

variable (order : SortByName) {owner : Module} {base : Nat}
variable {start : PrettyPrinterVisitor}
variable (indented : start.IndentedAt base [])

include indented

/-- A printable module is printed, and the indentation is restored. -/
theorem walkTree_of_printable (printable : owner.Printable) :
    walkTree (prettyPrinter order) owner start =
      .ok () (start.wrote ((owner.labelTree order).text base ++ "\n")) := by
  obtain ⟨final, completes⟩ :=
    run_of_printable order indented (Module.printable_iff.mp printable)
  have printed := printed_of_run indented (List.append_nil _).symm completes
  rw [Module.onPlaces_sites, Module.textOf_sites printable.nothingNull] at printed
  have same : final = start.wrote ((owner.labelTree order).text base) := by
    rcases printed with ⟨indent, out⟩
    exact congrArg₂ PrettyPrinterVisitor.mk (indent.trans indented.symm) out
  rw [same] at completes
  rw [walkTree_of_ok rfl completes (write_eq "\n" _), wrote_wrote]

/-- The walk of any other module fails, and the indentation has grown. -/
theorem walkTree_of_not_printable (unprintable : ¬ owner.Printable) :
    ∃ fault final, walkTree (prettyPrinter order) owner start =
        .error fault final ∧
      ∃ deeper, base < deeper ∧ final.IndentedAt deeper [] := by
  cases outcome : run (prettyPrinter order).performAt owner.sites start with
  | ok result final =>
      refine absurd (Module.printable_iff.mpr fun site member => ?_) unprintable
      obtain ⟨printer, next, completes⟩ := completes_of_mem _ outcome member
      exact Site.printable_of_ok completes
  | error fault final =>
      rcases (run_eq_error_iff _).mp outcome with
        ⟨past, site, future, printer, split, reaches, fails⟩
      have member : site ∈ owner.sites := by simp [split]
      have printed := (printed_of_run indented split reaches).1
      rw [Module.onPlaces_eq split] at printed
      have refused : ¬ site.Printable := by
        intro printable
        obtain ⟨next, prints, -⟩ := printable.prints order printed
        rw [prints] at fails
        cases fails
      obtain ⟨_, stop, failure, indent⟩ :=
        Site.fails_of_not_printable refused order printer
      rw [failure] at fails
      cases fails
      have opened := Module.openPlaces_of_not_printable member refused
      refine ⟨fault, final, walkTree_of_error rfl outcome,
        base + site.openPlaces.length, by omega, ?_⟩
      simp only [PrettyPrinterVisitor.IndentedAt] at printed ⊢
      rw [indent, printed, List.length_nil]
      omega

end WalkTree

/-! ## Labels can be read back -/

/-- The names that are printed with a node. -/
def Node.names : Node → List String
  | .expr (.variableRef var) => [var.name]
  | .expr (.assignVariable var _) => [var.name]
  | .expr (.block scope _) => scope.variables.map Variable.name
  | .expr _ => []
  | .function func => [func.name]
  | .module owner => [owner.name]

/-- No name in the module contains a line break. -/
def Module.OneLineNames (owner : Module) : Prop :=
  ∀ place ∈ owner.tree.preOrder, ∀ node ∈ place.node,
    ∀ name ∈ node.names, '\n' ∉ name.toList

theorem newline_notMem_append {first second : String} :
    '\n' ∉ (first ++ second).toList ↔
      '\n' ∉ first.toList ∧ '\n' ∉ second.toList := by
  rw [String.toList_append, List.mem_append, not_or]

theorem newline_notMem_natRepr (number : Nat) :
    '\n' ∉ number.repr.toList := by
  intro member
  rw [Nat.repr, String.toList_ofList] at member
  exact absurd (Nat.isDigit_of_mem_toDigits (by decide) (by decide) member)
    (by decide)

theorem newline_notMem_int32ToString (value : BitVec 32) :
    '\n' ∉ (int32ToString value).toList := by
  rw [int32ToString]
  cases value.toInt with
  | ofNat number => exact newline_notMem_natRepr number
  | negSucc number =>
      rw [Int.repr, newline_notMem_append]
      exact ⟨by decide, newline_notMem_natRepr _⟩

theorem newline_notMem_sixDigits (number : Nat) :
    '\n' ∉ (sixDigits number).toList := by
  intro member
  rw [sixDigits, String.toList_ofList] at member
  rcases List.mem_map.mp member with ⟨place, -, same⟩
  have digit := Nat.mod_lt (number / 10 ^ place) (show 0 < 10 by decide)
  generalize number / 10 ^ place % 10 = value at same digit
  revert same
  revert value
  decide

theorem newline_notMem_floatToString (value : BitVec 32) :
    '\n' ∉ (floatToString value).toList := by
  have sign : '\n' ∉ (if value.msb then "-" else "").toList := by
    split <;> decide
  unfold floatToString
  simp only
  split
  · rw [newline_notMem_append]
    refine ⟨sign, ?_⟩
    split <;> decide
  · simp only [newline_notMem_append]
    exact ⟨⟨⟨sign, newline_notMem_natRepr _⟩, by decide⟩,
      newline_notMem_sixDigits _⟩

theorem newline_notMem_dataType {dataType : DataType} {text : String}
    (accepted : dataType.toString = .ok text) : '\n' ∉ text.toList := by
  cases dataType <;> cases accepted <;> decide

theorem newline_notMem_text {var : Variable} (named : '\n' ∉ var.name.toList) :
    '\n' ∉ var.text.toList := by
  rw [Variable.text, Variable.toString]
  cases accepted : var.dataType.toString with
  | error exception => exact List.not_mem_nil
  | ok kind =>
      change '\n' ∉ (var.name ++ ":" ++ kind).toList
      rw [newline_notMem_append, newline_notMem_append]
      exact ⟨⟨named, by decide⟩, newline_notMem_dataType accepted⟩

theorem newline_notMem_headerText {sorted : List Variable}
    (named : ∀ var ∈ sorted, '\n' ∉ var.name.toList) :
    '\n' ∉ (headerText sorted).toList := by
  have texts : '\n' ∉ (", ".intercalate (sorted.map Variable.text)).toList := by
    induction sorted with
    | nil => simp
    | cons var rest ih =>
        have here := newline_notMem_text (named var List.mem_cons_self)
        have later :=
          ih fun other member => named other (List.mem_cons_of_mem _ member)
        cases rest with
        | nil => simpa using here
        | cons next others =>
            rw [List.map_cons, List.map_cons, String.intercalate_cons_cons,
              newline_notMem_append, newline_notMem_append]
            rw [List.map_cons] at later
            exact ⟨⟨here, by decide⟩, later⟩
  rw [headerText, newline_notMem_append, newline_notMem_append]
  exact ⟨⟨by decide, texts⟩, by decide⟩

/-- A title of one line may be followed by anything without a line break. -/
theorem legible_append {title detail : String} (legible : Legible title)
    (titled : title.toList ≠ []) (oneLine : '\n' ∉ detail.toList) :
    Legible (title ++ detail) := by
  refine ⟨newline_notMem_append.mpr ⟨legible.oneLine, oneLine⟩, ?_⟩
  rw [String.toList_append, List.head?_append_of_ne_nil _ titled]
  exact legible.noTab

theorem Node.legible_label (order : SortByName) {node : Node}
    (named : ∀ name ∈ node.names, '\n' ∉ name.toList) :
    Legible (node.label order) := by
  cases node with
  | expr expression =>
      cases expression with
      | null =>
          change Legible ""
          exact ⟨by decide, by decide⟩
      | literalInt32 value =>
          exact legible_append ⟨by decide, by decide⟩ (by decide)
            (newline_notMem_int32ToString value)
      | literalFloat value =>
          exact legible_append ⟨by decide, by decide⟩ (by decide)
            (newline_notMem_floatToString value)
      | binary lValue operation rValue =>
          have kind : '\n' ∉ operation.toString.toList := by
            cases operation <;> decide
          exact legible_append ⟨by decide, by decide⟩ (by decide) kind
      | variableRef var =>
          exact legible_append ⟨by decide, by decide⟩ (by decide)
            (named var.name List.mem_cons_self)
      | assignVariable var valueExpr =>
          exact legible_append ⟨by decide, by decide⟩ (by decide)
            (named var.name List.mem_cons_self)
      | «return» valueExpr =>
          change Legible "Return: "
          exact ⟨by decide, by decide⟩
      | block scope expressions =>
          refine legible_append ⟨by decide, by decide⟩ (by decide)
            (newline_notMem_headerText fun var member => ?_)
          exact named var.name (List.mem_map_of_mem
            ((order.perm scope.variables).mem_iff.mp member))
      | conditional condition truePart falsePart =>
          change Legible "Conditional: "
          exact ⟨by decide, by decide⟩
  | function func =>
      exact legible_append ⟨by decide, by decide⟩ (by decide)
        (named func.name List.mem_cons_self)
  | «module» owner =>
      exact legible_append ⟨by decide, by decide⟩ (by decide)
        (named owner.name List.mem_cons_self)

theorem Module.legible_labelTree {owner : Module} (named : owner.OneLineNames)
    (order : SortByName) :
    ∀ label ∈ (owner.labelTree order).preOrder, Legible label := by
  intro label member
  rw [Module.labelTree, ← RoseTree.map_snd_outline _ 0, RoseTree.outline_map,
    List.map_map, List.mem_map] at member
  rcases member with ⟨⟨depth, place⟩, inside, rfl⟩
  have standing : place ∈ owner.tree.preOrder := by
    rw [← RoseTree.map_snd_outline _ 0]
    exact List.mem_map_of_mem inside
  change Legible (place.label order)
  rw [Place.label]
  cases present : place.node with
  | none => exact ⟨List.not_mem_nil, by simp⟩
  | some node =>
      exact Node.legible_label order (named place standing node present)

/-! ## The printer shows the tree -/

/--
The text has one line for each node, in pre-order and indented by its depth below the
module, and one more line break; the indentation is as at the beginning; and the text
can be read back, so that it determines the tree of labels.
-/
structure ShowsTree (order : SortByName) (owner : Module)
    (final : PrettyPrinterVisitor) : Prop where
  text :
    final.out_ =
      String.join (((owner.labelTree order).outline 0).map line) ++ "\n"
  indent : final.indent_ = -1
  readBack : owner.OneLineNames →
    readTree final.out_ = some (owner.labelTree order)
  determines : owner.OneLineNames →
    ∀ (other : Module) (otherOrder : SortByName)
      (otherFinal : PrettyPrinterVisitor),
      other.OneLineNames →
        walkTree (prettyPrinter otherOrder) other {} = .ok () otherFinal →
          otherFinal.out_ = final.out_ →
            other.labelTree otherOrder = owner.labelTree order

/-- A new printer has not indented anything. -/
theorem indentedAt_new : PrettyPrinterVisitor.IndentedAt {} 0 [] :=
  rfl

theorem Module.printable_of_ok {order : SortByName} {owner : Module}
    {base : Nat} {start final : PrettyPrinterVisitor}
    (indented : start.IndentedAt base [])
    (completes : walkTree (prettyPrinter order) owner start = .ok () final) :
    owner.Printable := by
  by_contra unprintable
  obtain ⟨fault, stop, fails, -⟩ :=
    walkTree_of_not_printable order indented unprintable
  rw [fails] at completes
  cases completes

/-- What a new printer has written when it is done. -/
theorem fresh_of_ok {order : SortByName} {owner : Module}
    {final : PrettyPrinterVisitor}
    (completes : walkTree (prettyPrinter order) owner {} = .ok () final) :
    final = wrote {} ((owner.labelTree order).text 0 ++ "\n") := by
  rw [walkTree_of_printable order indentedAt_new
    (Module.printable_of_ok indentedAt_new completes)] at completes
  cases completes
  rfl

/-- A walk of the printer that completes shows the tree. -/
theorem printer_shows_tree {order : SortByName} {owner : Module}
    {final : PrettyPrinterVisitor}
    (completes : walkTree (prettyPrinter order) owner {} = .ok () final) :
    ShowsTree order owner final := by
  have written := fresh_of_ok completes
  have text : final.out_ = (owner.labelTree order).text 0 ++ "\n" := by
    rw [written]
    exact String.empty_append
  have readBack : owner.OneLineNames →
      readTree final.out_ = some (owner.labelTree order) := by
    intro named
    rw [text, readTree_text (owner.legible_labelTree named order)]
  constructor
  · exact text
  · rw [written]
    rfl
  · exact readBack
  · intro named other otherOrder otherFinal otherNamed otherCompletes same
    have otherText :
        otherFinal.out_ = (other.labelTree otherOrder).text 0 ++ "\n" := by
      rw [fresh_of_ok otherCompletes]
      exact String.empty_append
    have again := readBack named
    rw [← same, otherText,
      readTree_text (other.legible_labelTree otherNamed otherOrder)] at again
    exact Option.some_inj.mp again

/-- `int32 f() { int var2, var1; var1 = 12; var2 = 6 * var1; }`. -/
def readmeModule : Module :=
  let block : BlockBuilder :=
    (((BlockBuilder.addVariable {} ⟨2, "var2", .int32⟩).addVariable
      ⟨1, "var1", .int32⟩).addExpression
        (.assignVariable ⟨1, "var1", .int32⟩ (.literalInt32 12))).addExpression
        (.assignVariable ⟨2, "var2", .int32⟩
          (.binary (.literalInt32 6) .mul (.variableRef ⟨1, "var1", .int32⟩)))
  let fb : FunctionBuilder :=
    { name_ := "f", returnType_ := .int32, blockBuilder_ := block }
  (ModuleBuilder.addFunction { name_ := "m" }
    (some (fb.build .insertion .insertion))).build

/-- What is printed for it. -/
def readmeText : String :=
  "\nModule: m" ++
    "\n\tFunction: f" ++
    "\n\t\tBlock:(var1:Int32, var2:Int32)" ++
    "\n\t\t\tAssignVariable: var1" ++
    "\n\t\t\t\tLiteralInt32: 12" ++
    "\n\t\t\tAssignVariable: var2" ++
    "\n\t\t\t\tBinary: Mul" ++
    "\n\t\t\t\t\tLiteralInt32: 6" ++
    "\n\t\t\t\t\tVariableRef: var1" ++
    "\n"

theorem printer_shows_tree_readme :
    ∃ final, walkTree (prettyPrinter .insertion) readmeModule {} = .ok () final ∧
      final.out_ = readmeText ∧ ShowsTree .insertion readmeModule final := by
  have completes :
      completedWith (fun final => final.out_ = readmeText)
        (walkTree (prettyPrinter .insertion) readmeModule {}) = true := by
    decide +kernel
  obtain ⟨final, walks, text⟩ := exists_of_completedWith completes
  exact ⟨final, walks, of_decide_eq_true text, printer_shows_tree walks⟩

/-! ## One printer for several modules -/

/-- The state in which a callback or a walk leaves the visitor. -/
def stateOf {State : Type} : EStateM.Result Fault State Unit → State
  | .ok _ final => final
  | .error _ final => final

/-- The printer after it was used for these modules, whether they failed or not. -/
def printEach (order : SortByName) (owners : List Module) :
    PrettyPrinterVisitor :=
  owners.foldl
    (fun printer owner =>
      stateOf (walkTree (prettyPrinter order) owner printer)) {}

/-- A printer that has already been used writes what a new printer writes. -/
def SurvivesErrors (order : SortByName) (owners : List Module) : Prop :=
  ∀ past owner future, owners = past ++ owner :: future →
    ∀ final,
      walkTree (prettyPrinter order) owner (printEach order past) =
          .ok () final →
        ∃ fresh, walkTree (prettyPrinter order) owner {} = .ok () fresh ∧
          final.out_ = (printEach order past).out_ ++ fresh.out_

/-- The indentation counts how deep the failed walks got. -/
theorem printEach_indentedAt (order : SortByName) (owners : List Module) :
    ∃ base, (printEach order owners).IndentedAt base [] ∧
      (base = 0 ↔ ∀ owner ∈ owners, owner.Printable) := by
  induction owners using List.reverseRecOn with
  | nil => exact ⟨0, rfl, by simp⟩
  | append_singleton owners owner ih =>
      obtain ⟨base, indented, whole⟩ := ih
      have last :
          printEach order (owners ++ [owner]) =
            stateOf (walkTree (prettyPrinter order) owner
              (printEach order owners)) := by
        simp [printEach]
      rw [last]
      by_cases printable : owner.Printable
      · rw [walkTree_of_printable order indented printable]
        refine ⟨base, indented, ?_⟩
        rw [whole]
        simp [or_imp, forall_and, printable]
      · obtain ⟨fault, final, fails, deeper, grown, stays⟩ :=
          walkTree_of_not_printable order indented printable
        rw [fails]
        refine ⟨deeper, stays, ?_⟩
        constructor
        · intro none
          omega
        · intro all
          exact absurd (all owner (by simp)) printable

/-- The text of a module begins with its indentation. -/
theorem toList_text (order : SortByName) (owner : Module) (base : Nat) :
    ∃ rest, ((owner.labelTree order).text base).toList =
      '\n' :: (List.replicate base '\t' ++ 'M' :: rest) := by
  have root :
      owner.labelTree order =
        .node ("Module: " ++ owner.name)
          ((functionTrees owner owner.functions 0).map
            (RoseTree.map (Place.label order))) := by
    rw [Module.labelTree, Module.tree, RoseTree.map_node]
    rfl
  rw [RoseTree.text, root, RoseTree.outline_node, List.map_cons, String.join_cons,
    String.toList_append, toList_line, lineBody, String.toList_append]
  generalize String.join _ = below
  exact ⟨"odule: ".toList ++ owner.name.toList ++ below.toList, by simp⟩

theorem text_ne_of_indented (order : SortByName) (owner : Module) {base : Nat}
    (indented : base ≠ 0) :
    (owner.labelTree order).text base ≠ (owner.labelTree order).text 0 := by
  intro same
  obtain ⟨rest, deep⟩ := toList_text order owner base
  obtain ⟨others, flat⟩ := toList_text order owner 0
  rw [same, flat] at deep
  obtain ⟨count, rfl⟩ := Nat.exists_eq_succ_of_ne_zero indented
  simp [List.replicate_succ] at deep

/-- After a failed walk the next module that can be printed is indented. -/
theorem not_survives {order : SortByName} {past future : List Module}
    {owner : Module} (printable : owner.Printable)
    (failed : ¬ ∀ earlier ∈ past, earlier.Printable) :
    ¬ SurvivesErrors order (past ++ owner :: future) := by
  intro survives
  obtain ⟨base, indented, whole⟩ := printEach_indentedAt order past
  have deep : base ≠ 0 := fun none => failed (whole.mp none)
  obtain ⟨fresh, completes, text⟩ :=
    survives past owner future rfl _ (walkTree_of_printable order indented printable)
  rw [fresh_of_ok completes] at text
  have texts :
      (owner.labelTree order).text base = (owner.labelTree order).text 0 := by
    apply String.toList_inj.mp
    have characters := congrArg String.toList text
    simpa [wrote] using characters
  exact text_ne_of_indented order owner deep texts

/--
A printer survives errors exactly if no module that can be printed comes after one
that cannot: nothing takes the indentation back that a failed walk has left.
-/
theorem printer_survives_iff (order : SortByName) (owners : List Module) :
    SurvivesErrors order owners ↔
      ∀ past owner future, owners = past ++ owner :: future →
        owner.Printable → ∀ earlier ∈ past, earlier.Printable := by
  constructor
  · intro survives past owner future split printable
    by_contra failed
    exact not_survives printable failed (split ▸ survives)
  · intro clean past owner future split final completes
    obtain ⟨base, indented, whole⟩ := printEach_indentedAt order past
    have printable := Module.printable_of_ok indented completes
    have none := whole.mpr (clean past owner future split printable)
    subst none
    refine ⟨_, walkTree_of_printable order indentedAt_new printable, ?_⟩
    rw [walkTree_of_printable order indented printable] at completes
    cases completes
    simp [wrote]

/-- A null function, which no walk gets past, and then a module without functions. -/
theorem failed_walk_shifts_the_next :
    ¬ SurvivesErrors .insertion [⟨"broken", [none]⟩, ⟨"empty", []⟩] := by
  refine @not_survives .insertion [⟨"broken", [none]⟩] [] ⟨"empty", []⟩ ?_ ?_
  · simp [Module.Printable, Module.tree, functionTrees, RoseTree.preOrder,
      Place.Printable, Node.Printable]
  · simp [Module.Printable, Module.tree, functionTrees, RoseTree.preOrder,
      Place.Printable, Node.Printable]

end Llast
