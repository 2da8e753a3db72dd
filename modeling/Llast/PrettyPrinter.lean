import Mathlib.Data.List.Sort
import Mathlib.Data.String.Basic
import Llast.ExpressionTreeVisitor
import Llast.IndentedText

/-!
# The pretty printer

`PrettyPrinterVisitor` of `PrettyPrinter.hpp`, with the `to_string` functions it
calls.  The stream is the text written so far.  `std::sort` is a parameter that is
known to sort.

`indent_` is an `int`; a tree or a series of failing walks deep enough to overflow it
is out of reach, so it is an integer here.
-/

namespace Llast

/-! ## Texts -/

/-- `to_string(OperationKind)`. -/
def OperationKind.toString : OperationKind → String
  | .add => "Add"
  | .sub => "Sub"
  | .mul => "Mul"
  | .div => "Div"

/-- `to_string(DataType)`, which has no case for `Double`. -/
def DataType.toString : DataType → Except Exception String
  | .void => .ok "void"
  | .bool => .ok "Bool"
  | .int32 => .ok "Int32"
  | .float => .ok "Float"
  | .pointer => .ok "Pointer"
  | .double => .error .unhandledSwitchCase

/-- `Variable::toString`. -/
def Variable.toString (var : Variable) : Except Exception String := do
  let dataType ← var.dataType.toString
  return var.name ++ ":" ++ dataType

/-- `std::to_string(int)`. -/
def int32ToString (value : BitVec 32) : String :=
  value.toInt.repr

/-- The whole number closest to a fraction, and of two such numbers the even one. -/
def roundHalfEven (numerator denominator : Nat) : Nat :=
  let whole := numerator / denominator
  let rest := 2 * (numerator % denominator)
  if rest < denominator ∨ rest = denominator ∧ whole % 2 = 0 then
    whole
  else
    whole + 1

/-- Six digits, with zeros in front. -/
def sixDigits (number : Nat) : String :=
  String.ofList ((List.range 6).reverse.map fun place =>
    Nat.digitChar (number / 10 ^ place % 10))

/--
`std::to_string(float)`, which is the conversion `%f` of `printf`: the exact value of
the binary32 number, rounded to six decimals.
-/
def floatToString (value : BitVec 32) : String :=
  let sign := if value.msb then "-" else ""
  let exponent := (value.extractLsb' 23 8).toNat
  let fraction := (value.extractLsb' 0 23).toNat
  if exponent = 255 then
    sign ++ (if fraction = 0 then "inf" else "nan")
  else
    -- the value is `significand * 2 ^ (scale - 150)`, also when it is subnormal
    let significand := if exponent = 0 then fraction else fraction + 2 ^ 23
    let scale := max exponent 1
    let millionths := roundHalfEven (significand * 10 ^ 6 * 2 ^ scale) (2 ^ 150)
    sign ++ (millionths / 10 ^ 6).repr ++ "." ++ sixDigits (millionths % 10 ^ 6)

example : floatToString 0x3dcccccd#32 = "0.100000" := by decide +kernel

example : floatToString 0xc80b0200#32 = "-142344.000000" := by decide +kernel

/-! ## The visitor -/

/--
`std::sort` of variables with the comparison `a->name() < b->name()`.  `std::string`
compares bytes, which for UTF-8 is the order of the characters.
-/
structure SortByName where
  sort : List Variable → List Variable
  perm : ∀ vars, (sort vars).Perm vars
  sorted : ∀ vars,
    (sort vars).Pairwise fun first later => ¬ later.name < first.name

theorem SortByName.sort_cons_eq_concat (order : SortByName) (front : Variable)
    (rest : List Variable) :
    ∃ init back, order.sort (front :: rest) = init ++ [back] := by
  have perm := order.perm (front :: rest)
  rcases List.eq_nil_or_concat (order.sort (front :: rest)) with
    empty | ⟨init, back, split⟩
  · rw [empty] at perm
    exact absurd perm.symm.eq_nil (List.cons_ne_nil _ _)
  · exact ⟨init, back, split.trans List.concat_eq_append⟩

/-- The members of the class `PrettyPrinterVisitor`. -/
structure PrettyPrinterVisitor where
  indent_ : Int := -1
  out_ : String := ""
deriving DecidableEq, Repr

/-- A member function of the class. -/
abbrev Print (Result : Type) :=
  Visit PrettyPrinterVisitor Result

namespace PrettyPrinterVisitor

/-- The printer after it has written a text. -/
def wrote (printer : PrettyPrinterVisitor) (text : String) :
    PrettyPrinterVisitor :=
  { printer with out_ := printer.out_ ++ text }

/-- `out_ << text`. -/
def write (text : String) : Print Unit :=
  modify fun printer => printer.wrote text

/-- `out_ << text`, where making the text may throw. -/
def writeOrThrow : Except Exception String → Print Unit
  | .ok text => write text
  | .error exception => throw (.thrown exception)

/-- The loop of `writeTabs`, with the number of rounds that are left. -/
def writeTabsLoop : Nat → Print Unit
  | 0 => return ()
  | count + 1 => do
      write "\t"
      writeTabsLoop count

/-- `PrettyPrinterVisitor::writeTabs`. -/
def writeTabs : Print Unit := do
  let printer ← get
  writeTabsLoop printer.indent_.toNat

/-- `PrettyPrinterVisitor::cleanUp`. -/
def cleanUp : Print Unit :=
  write "\n"

/-- `PrettyPrinterVisitor::visitingNode`. -/
def visitingNode (_node : Node) : Print Unit := do
  modify fun printer => { printer with indent_ := printer.indent_ + 1 }
  write "\n"
  writeTabs

/-- `PrettyPrinterVisitor::visitedNode`. -/
def visitedNode (_node : Node) : Print Unit :=
  modify fun printer => { printer with indent_ := printer.indent_ - 1 }

/-- The loop of `writeScopeVariables` over all variables but the last one. -/
def writeSeparated : List Variable → Print Unit
  | [] => return ()
  | var :: rest => do
      writeOrThrow var.toString
      write ", "
      writeSeparated rest

/-- `PrettyPrinterVisitor::writeScopeVariables`. -/
def writeScopeVariables (order : SortByName) (scope : Scope) : Print Unit := do
  write "("
  match scope.variables with
  | [] => write ")"
  | [front] => do
      writeOrThrow front.toString
      write ")"
  | vars => do
      let sorted := order.sort vars
      writeSeparated sorted.dropLast
      match sorted.getLast? with
      | none => throw (.undefined .emptyVector)
      | some back => do
          writeOrThrow back.toString
          write ")"

/-- `PrettyPrinterVisitor::visitingBlock`. -/
def visitingBlock (order : SortByName) (scope : Scope)
    (_expressions : List Expr) : Print Unit := do
  write "Block:"
  writeScopeVariables order scope

end PrettyPrinterVisitor

open PrettyPrinterVisitor in
/-- The callbacks `PrettyPrinterVisitor` overrides. -/
def prettyPrinter (order : SortByName) :
    ExpressionTreeVisitor PrettyPrinterVisitor where
  cleanUp := PrettyPrinterVisitor.cleanUp
  visitingNode := PrettyPrinterVisitor.visitingNode
  visitedNode := PrettyPrinterVisitor.visitedNode
  visitingBlock := PrettyPrinterVisitor.visitingBlock order
  visitingBinary _ operation _ := write ("Binary: " ++ operation.toString)
  visitLiteralInt32 value := write ("LiteralInt32: " ++ int32ToString value)
  visitLiteralFloat value := write ("LiteralFloat: " ++ floatToString value)
  visitVariableRef var := write ("VariableRef: " ++ var.name)
  visitingConditional _ _ _ := write "Conditional: "
  visitingAssignVariable var _ := write ("AssignVariable: " ++ var.name)
  visitingReturn _ := write "Return: "
  visitingFunction func := write ("Function: " ++ func.name)
  visitingModule owner := write ("Module: " ++ owner.name)

/-! ## What is written -/

/-- `to_string` accepts the data type of the variable. -/
def Variable.Accepted (var : Variable) : Prop :=
  ∃ text, var.toString = .ok text

/-- What `toString` says about an accepted variable. -/
def Variable.text (var : Variable) : String :=
  match var.toString with
  | .ok text => text
  | .error _ => ""

theorem Variable.Accepted.toString_eq {var : Variable} (accepted : var.Accepted) :
    var.toString = .ok var.text := by
  rcases accepted with ⟨text, same⟩
  rw [Variable.text, same]

theorem Variable.toString_of_not_accepted {var : Variable}
    (rejected : ¬ var.Accepted) :
    var.toString = .error .unhandledSwitchCase := by
  rcases var with ⟨address, name, dataType⟩
  cases dataType with
  | double => rfl
  | _ => exact absurd ⟨_, rfl⟩ rejected

/-- What `writeScopeVariables` writes for variables in this order. -/
def headerText (sorted : List Variable) : String :=
  "(" ++ ", ".intercalate (sorted.map Variable.text) ++ ")"

namespace PrettyPrinterVisitor

variable {printer : PrettyPrinterVisitor}

@[simp]
theorem wrote_wrote (printer : PrettyPrinterVisitor) (first second : String) :
    (printer.wrote first).wrote second = printer.wrote (first ++ second) := by
  simp [wrote, String.append_assoc]

@[simp]
theorem wrote_indent_ (printer : PrettyPrinterVisitor) (text : String) :
    (printer.wrote text).indent_ = printer.indent_ :=
  rfl

@[simp]
theorem wrote_empty (printer : PrettyPrinterVisitor) :
    printer.wrote "" = printer := by
  simp [wrote]

theorem write_eq (text : String) (printer : PrettyPrinterVisitor) :
    write text printer = .ok () (printer.wrote text) :=
  rfl

theorem writeOrThrow_of_accepted {var : Variable} (accepted : var.Accepted)
    (printer : PrettyPrinterVisitor) :
    writeOrThrow var.toString printer = .ok () (printer.wrote var.text) := by
  rw [accepted.toString_eq]
  rfl

theorem writeOrThrow_of_not_accepted {var : Variable}
    (rejected : ¬ var.Accepted) (printer : PrettyPrinterVisitor) :
    writeOrThrow var.toString printer =
      .error (.thrown .unhandledSwitchCase) printer := by
  rw [Variable.toString_of_not_accepted rejected]
  rfl

theorem writeTabsLoop_eq (count : Nat) (printer : PrettyPrinterVisitor) :
    writeTabsLoop count printer = .ok () (printer.wrote (tabs count)) := by
  induction count generalizing printer with
  | zero =>
      rw [tabs, List.replicate_zero, String.ofList_nil, wrote_empty]
      rfl
  | succ count ih =>
      have first :
          writeTabsLoop (count + 1) printer =
            writeTabsLoop count (printer.wrote "\t") :=
        rfl
      rw [first, ih, wrote_wrote, tabs, tabs, List.replicate_succ,
        String.ofList_cons]
      rfl

theorem visitingNode_eq (node : Node) (printer : PrettyPrinterVisitor) :
    visitingNode node printer =
      .ok ()
        (wrote { printer with indent_ := printer.indent_ + 1 }
          ("\n" ++ tabs (printer.indent_ + 1).toNat)) := by
  have opened :
      visitingNode node printer =
        writeTabsLoop (printer.indent_ + 1).toNat
          (wrote { printer with indent_ := printer.indent_ + 1 } "\n") :=
    rfl
  rw [opened, writeTabsLoop_eq, wrote_wrote]

theorem writeSeparated_eq {vars : List Variable}
    (accepted : ∀ var ∈ vars, var.Accepted)
    (printer : PrettyPrinterVisitor) :
    writeSeparated vars printer =
      .ok () (printer.wrote
        (String.join (vars.map fun var => var.text ++ ", "))) := by
  induction vars generalizing printer with
  | nil =>
      rw [List.map_nil, String.join_nil, wrote_empty]
      rfl
  | cons var rest ih =>
      have here := accepted var List.mem_cons_self
      have later : ∀ other ∈ rest, other.Accepted :=
        fun other member => accepted other (List.mem_cons_of_mem _ member)
      rw [writeSeparated, bind_of_ok (writeOrThrow_of_accepted here _),
        bind_of_ok (write_eq ", " _), ih later, List.map_cons, String.join_cons]
      simp [String.append_assoc]

/-- The last text of a series has no separator behind it. -/
theorem join_separated (init : List Variable) (back : Variable) :
    String.join (init.map fun var => var.text ++ ", ") ++ back.text =
      ", ".intercalate ((init ++ [back]).map Variable.text) := by
  induction init with
  | nil => simp
  | cons var rest ih =>
      have more : (rest ++ [back]).map Variable.text ≠ [] := by simp
      rw [List.cons_append, List.map_cons, List.map_cons, String.join_cons,
        String.intercalate_cons_of_ne_nil more, ← ih]
      simp [String.append_assoc]

/-- Accepted variables are written between one pair of parentheses. -/
theorem writeScopeVariables_of_accepted (order : SortByName) {scope : Scope}
    (accepted : ∀ var ∈ scope.variables, var.Accepted)
    (printer : PrettyPrinterVisitor) :
    writeScopeVariables order scope printer =
      .ok () (printer.wrote (headerText (order.sort scope.variables))) := by
  rw [writeScopeVariables, bind_of_ok (write_eq "(" printer), headerText]
  cases vars : scope.variables with
  | nil =>
      rw [(order.perm []).eq_nil]
      change write ")" _ = _
      rw [write_eq, wrote_wrote]
      simp
  | cons front rest =>
      rw [vars] at accepted
      cases rest with
      | nil =>
          have here := accepted front List.mem_cons_self
          rw [List.perm_singleton.mp (order.perm [front])]
          change (writeOrThrow front.toString >>= fun _ => write ")") _ = _
          rw [bind_of_ok (writeOrThrow_of_accepted here _), write_eq,
            wrote_wrote, wrote_wrote]
          simp [String.append_assoc]
      | cons next others =>
          have perm := order.perm (front :: next :: others)
          obtain ⟨init, back, split⟩ := order.sort_cons_eq_concat front _
          have sortedAccepted : ∀ var ∈ init ++ [back], var.Accepted :=
            fun var member => accepted var (perm.mem_iff.mp (split ▸ member))
          have last := sortedAccepted back (by simp)
          change (writeSeparated (order.sort (front :: next :: others)).dropLast
            >>= fun _ => _) _ = _
          rw [split, List.dropLast_concat, bind_of_ok (writeSeparated_eq
            (fun var member => sortedAccepted var (List.mem_append_left _ member)) _),
            List.getLast?_concat]
          change (writeOrThrow back.toString >>= fun _ => write ")") _ = _
          rw [bind_of_ok (writeOrThrow_of_accepted last _), write_eq,
            ← join_separated]
          simp [String.append_assoc]

theorem writeSeparated_of_rejected {vars : List Variable}
    (rejected : ∃ var ∈ vars, ¬ var.Accepted)
    (printer : PrettyPrinterVisitor) :
    ∃ final, writeSeparated vars printer =
        .error (.thrown .unhandledSwitchCase) final ∧
      final.indent_ = printer.indent_ := by
  induction vars generalizing printer with
  | nil =>
      rcases rejected with ⟨var, member, -⟩
      cases member
  | cons var rest ih =>
      rw [writeSeparated]
      by_cases here : var.Accepted
      · have later : ∃ other ∈ rest, ¬ other.Accepted := by
          rcases rejected with ⟨other, member, refused⟩
          rcases List.mem_cons.mp member with rfl | member
          · exact absurd here refused
          · exact ⟨other, member, refused⟩
        obtain ⟨final, fails, indent⟩ :=
          ih later ((printer.wrote var.text).wrote ", ")
        refine ⟨final, ?_, indent⟩
        rw [bind_of_ok (writeOrThrow_of_accepted here _),
          bind_of_ok (write_eq ", " _), fails]
      · exact ⟨printer, bind_of_error (writeOrThrow_of_not_accepted here _), rfl⟩

/-- A variable that is not accepted makes the header fail. -/
theorem writeScopeVariables_of_rejected (order : SortByName) {scope : Scope}
    (rejected : ∃ var ∈ scope.variables, ¬ var.Accepted)
    (printer : PrettyPrinterVisitor) :
    ∃ final, writeScopeVariables order scope printer =
        .error (.thrown .unhandledSwitchCase) final ∧
      final.indent_ = printer.indent_ := by
  rw [writeScopeVariables, bind_of_ok (write_eq "(" printer)]
  rcases rejected with ⟨var, member, refused⟩
  cases vars : scope.variables with
  | nil =>
      rw [vars] at member
      cases member
  | cons front rest =>
      rw [vars] at member
      cases rest with
      | nil =>
          rw [List.mem_singleton.mp member] at refused
          exact ⟨printer.wrote "(",
            bind_of_error (writeOrThrow_of_not_accepted refused _), rfl⟩
      | cons next others =>
          have perm := order.perm (front :: next :: others)
          obtain ⟨init, back, split⟩ := order.sort_cons_eq_concat front _
          change ∃ final, (writeSeparated
            (order.sort (front :: next :: others)).dropLast >>= fun _ => _) _ =
              _ ∧ _
          rw [split, List.dropLast_concat, List.getLast?_concat]
          by_cases early : ∃ other ∈ init, ¬ other.Accepted
          · obtain ⟨final, fails, indent⟩ :=
              writeSeparated_of_rejected early (printer.wrote "(")
            exact ⟨final, bind_of_error fails, indent⟩
          · push Not at early
            have last : ¬ back.Accepted := by
              intro accepted
              have inside : var ∈ init ++ [back] :=
                split ▸ perm.mem_iff.mpr member
              rcases List.mem_append.mp inside with before | final
              · exact refused (early var before)
              · exact refused (List.mem_singleton.mp final ▸ accepted)
            rw [bind_of_ok (writeSeparated_eq early _)]
            exact ⟨_, bind_of_error (writeOrThrow_of_not_accepted last _), rfl⟩

end PrettyPrinterVisitor

/-! ## Headers do not depend on the order of the declarations -/

/-- `std::sort` by insertion. -/
def SortByName.insertion : SortByName where
  sort vars := vars.insertionSort fun first later => first.name ≤ later.name
  perm vars := List.perm_insertionSort _ vars
  sorted vars := by
    have total :
        Std.Total fun first later : Variable => first.name ≤ later.name :=
      ⟨fun first later => le_total first.name later.name⟩
    have trans :
        IsTrans Variable fun first later => first.name ≤ later.name :=
      ⟨fun _ _ _ => le_trans⟩
    exact (List.pairwise_insertionSort _ vars).imp not_lt_of_ge

/-- Variables of distinct names that are sorted by name increase strictly. -/
theorem SortByName.strictly_sorted (order : SortByName) {vars : List Variable}
    (distinct : (vars.map Variable.name).Nodup) :
    (order.sort vars).Pairwise fun first later => first.name < later.name := by
  have names : ((order.sort vars).map Variable.name).Nodup :=
    ((order.perm vars).map Variable.name).nodup_iff.mpr distinct
  rw [List.Nodup, List.pairwise_map] at names
  exact ((order.sorted vars).and names).imp fun both =>
    lt_of_le_of_ne (not_lt.mp both.1) both.2

/-- There is one way to sort variables of distinct names. -/
theorem eq_of_strictly_sorted {first second : List Variable}
    (perm : first.Perm second)
    (firstSorted : first.Pairwise fun var later => var.name < later.name)
    (secondSorted : second.Pairwise fun var later => var.name < later.name) :
    first = second := by
  refine perm.eq_of_pairwise ?_ firstSorted secondSorted
  intro var other _ _ less greater
  exact absurd less greater.asymm

theorem mapM_toString_of_accepted {vars : List Variable}
    (accepted : ∀ var ∈ vars, var.Accepted) :
    vars.mapM Variable.toString = .ok (vars.map Variable.text) := by
  induction vars with
  | nil => rfl
  | cons var rest ih =>
      rw [List.mapM_cons, (accepted var List.mem_cons_self).toString_eq,
        ih fun other member => accepted other (List.mem_cons_of_mem _ member)]
      rfl

open PrettyPrinterVisitor in
/--
The header of a Block does not depend on the order in which its variables were added,
on the order in which the map enumerates them, or on the sorting algorithm: it lists
every variable once, by increasing names.
-/
theorem block_header_is_canonical {vars : List Variable}
    (distinct : (vars.map Variable.name).Nodup)
    (accepted : ∀ var ∈ vars, var.Accepted) :
    ∃ sorted : List Variable, sorted.Perm vars ∧
      sorted.Pairwise (fun first later => first.name < later.name) ∧
        ∃ texts, sorted.mapM Variable.toString = .ok texts ∧
          ∀ (additions : List Variable) (enumeration : EnumerationOrder)
            (order : SortByName) (printer : PrettyPrinterVisitor),
            additions.Perm vars →
              writeScopeVariables order
                  ((additions.foldl ScopeBuilder.addVariable .new).build
                    enumeration) printer =
                .ok () (printer.wrote
                  ("(" ++ ", ".intercalate texts ++ ")")) := by
  have canonical := SortByName.insertion.perm vars
  refine ⟨SortByName.insertion.sort vars, canonical,
    SortByName.insertion.strictly_sorted distinct,
    (SortByName.insertion.sort vars).map Variable.text, ?_, ?_⟩
  · exact mapM_toString_of_accepted fun var member =>
      accepted var (canonical.mem_iff.mp member)
  · intro additions enumeration order printer perm
    have names : (additions.map Variable.name).Nodup :=
      (perm.map Variable.name).nodup_iff.mpr distinct
    have inScope := ScopeBuilder.build_variables_perm names enumeration
    have scopeNames := (inScope.map Variable.name).nodup_iff.mpr names
    have same := eq_of_strictly_sorted
      ((order.perm _).trans ((inScope.trans perm).trans canonical.symm))
      (order.strictly_sorted scopeNames)
      (SortByName.insertion.strictly_sorted distinct)
    rw [writeScopeVariables_of_accepted order
      (fun var member => accepted var ((inScope.trans perm).mem_iff.mp member)),
      same, headerText]

open PrettyPrinterVisitor in
theorem block_header_is_canonical_two :
    ∃ text, ∀ (order : SortByName) (printer : PrettyPrinterVisitor),
      writeScopeVariables order
          (([⟨1, "b", .float⟩, ⟨0, "a", .int32⟩].foldl
            ScopeBuilder.addVariable .new).build .insertion) printer =
        .ok () (printer.wrote text) ∧
      writeScopeVariables order
          (([⟨0, "a", .int32⟩, ⟨1, "b", .float⟩].foldl
            ScopeBuilder.addVariable .new).build .insertion) printer =
        .ok () (printer.wrote text) := by
  obtain ⟨sorted, -, -, texts, -, written⟩ :=
    @block_header_is_canonical [⟨0, "a", .int32⟩, ⟨1, "b", .float⟩]
      (by decide) (by
        intro var member
        simp only [List.mem_cons, List.not_mem_nil, or_false] at member
        rcases member with rfl | rfl
        · exact ⟨_, rfl⟩
        · exact ⟨_, rfl⟩)
  exact ⟨_, fun order printer =>
    ⟨written _ .insertion order printer (List.Perm.swap _ _ _),
      written _ .insertion order printer (List.Perm.refl _)⟩⟩

end Llast
