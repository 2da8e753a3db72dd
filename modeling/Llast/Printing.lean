import Llast.ExprRunner
import Llast.PrintedTree
import Llast.Scoping

/-!
# Printing the modules that compile

`ExecutionContext::prettyPrint` walks a module with a new printer on `std::cout`.  The
call in `addModule`, before the generator's own walk, is commented out.  The generator
maps `double`, which has no `to_string`, so that the two visitors differ on a module
exactly if one of its Blocks declares a `double`.
-/

namespace Llast

open Llast.EventRun
open Llast.PrettyPrinterVisitor

/-- `ExecutionContext::prettyPrint`, with what `std::cout` has been given so far. -/
def ExecutionContext.prettyPrint (order : SortByName) (owner : Module) :
    EStateM Fault String Unit :=
  fun cout =>
    match walkTree (prettyPrinter order) owner { out_ := cout } with
    | .ok result visitor => .ok result visitor.out_
    | .error fault visitor => .error fault visitor.out_

/-- A Block of the module declares a variable of type `double`. -/
def Module.DeclaresDouble (owner : Module) : Prop :=
  ∃ place ∈ owner.tree.preOrder, ∃ scope expressions,
    place.node = some (.expr (.block scope expressions)) ∧
      ∃ var ∈ scope.variables, var.dataType = .double

/-! ## What the generator lets through -/

/-- `to_string` lacks exactly the data type `double`. -/
theorem Variable.accepted_iff {var : Variable} :
    var.Accepted ↔ var.dataType ≠ .double := by
  rcases var with ⟨address, name, dataType⟩
  cases dataType with
  | double =>
      constructor
      · rintro ⟨text, same⟩
        cases same
      · exact fun other => absurd rfl other
  | _ => exact ⟨fun _ => DataType.noConfusion, fun _ => ⟨_, rfl⟩⟩

/-- No child is missing in a module that the generator gets through. -/
theorem Module.nothingNull_of_completes {owner : Module}
    {final : CodeGenVisitor}
    (completes : walkTree codeGen owner {} = .ok () final) :
    owner.NothingNull := by
  rw [walkTree_eq_run] at completes
  intro place inside
  rcases place with ⟨path, node⟩
  cases node with
  | some node => rfl
  | none =>
      have issued : (⟨path, .nullArgument⟩ : Site) ∈ owner.sites := by
        rw [Module.sites_eq_traverse]
        exact RoseTree.mem_traverse.mpr
          ⟨⟨path, none⟩, inside, .inl (List.mem_singleton_self _)⟩
      obtain ⟨before, after, performed⟩ := completes_of_mem _ completes issued
      cases performed

/-- With no child missing, the printer gets through if no Block declares a `double`. -/
theorem Module.printable_iff_declares {owner : Module}
    (present : owner.NothingNull) :
    owner.Printable ↔ ¬ owner.DeclaresDouble := by
  constructor
  · rintro printable ⟨place, inside, scope, expressions, standing, var, declared,
      double⟩
    obtain ⟨node, own, accepted⟩ := printable place inside
    rw [standing] at own
    cases own
    exact Variable.accepted_iff.mp (accepted var declared) double
  · intro none place inside
    obtain ⟨node, standing⟩ := Option.isSome_iff_exists.mp (present place inside)
    refine ⟨node, standing, ?_⟩
    cases node with
    | expr expression =>
        cases expression with
        | block scope expressions =>
            intro var declared
            refine Variable.accepted_iff.mpr fun double => none ?_
            exact ⟨place, inside, scope, expressions, standing, var, declared,
              double⟩
        | _ => trivial
    | _ => trivial

/-- Where the test for a missing child fails, no node stands. -/
theorem Place.null_of_issued {place : Place} {path : Path}
    (issued : (⟨path, .nullArgument⟩ : Site) ∈ place.before ∨
      (⟨path, .nullArgument⟩ : Site) ∈ place.after) :
    place.node = none := by
  rcases place with ⟨own, node⟩
  cases node with
  | none => rfl
  | some node =>
      exfalso
      cases node with
      | expr expression =>
          cases expression <;>
            simp [Place.before, Place.after, Node.opening, Node.closing,
              Expr.opening, Expr.closing] at issued
      | function func =>
          simp [Place.before, Place.after, Node.opening, Node.closing] at issued
      | «module» owner =>
          simp [Place.before, Place.after, Node.opening, Node.closing] at issued

/-- At a node that is there, the printer has one exception to end in. -/
theorem prettyPrinter_throws_at {site : Site} (present : site.callback ≠ .nullArgument)
    {order : SortByName} {printer final : PrettyPrinterVisitor} {fault : Fault}
    (fails : (prettyPrinter order).performAt site printer = .error fault final) :
    fault = .thrown .unhandledSwitchCase := by
  rcases site with ⟨path, callback⟩
  cases callback with
  | nullArgument => exact absurd rfl present
  | visitingNode node =>
      have completes := visitingNode_eq node printer
      exact nomatch fails.symm.trans completes
  | visitingBlock scope expressions =>
      change visitingBlock order scope expressions printer = _ at fails
      by_cases accepted : ∀ var ∈ scope.variables, var.Accepted
      · rw [visitingBlock_of_accepted order accepted] at fails
        cases fails
      · push Not at accepted
        obtain ⟨stop, throws, -⟩ :=
          visitingBlock_of_rejected order accepted expressions printer
        rw [throws] at fails
        cases fails
        rfl
  | _ => cases fails

/-- With no child missing, the printer has one exception to end in. -/
theorem prettyPrinter_throws {owner : Module} (present : owner.NothingNull)
    {order : SortByName} {start final : PrettyPrinterVisitor} {fault : Fault}
    (fails : walkTree (prettyPrinter order) owner start = .error fault final) :
    fault = .thrown .unhandledSwitchCase := by
  cases outcome : run (prettyPrinter order).performAt owner.sites start with
  | ok result reached =>
      rw [walkTree_of_ok rfl outcome (write_eq "\n" _)] at fails
      cases fails
  | error other reached =>
      rw [walkTree_of_error rfl outcome] at fails
      cases fails
      rcases (run_eq_error_iff _).mp outcome with
        ⟨past, site, future, printer, split, -, performed⟩
      refine prettyPrinter_throws_at ?_ performed
      intro missing
      have issued : site ∈ owner.sites := by simp [split]
      rw [Module.sites_eq_traverse] at issued
      rcases RoseTree.mem_traverse.mp issued with ⟨place, inside, own⟩
      rcases site with ⟨path, callback⟩
      cases missing
      have standing := present place inside
      rw [Place.null_of_issued own] at standing
      cases standing

/-! ## The two visitors -/

/--
Of a module that `addModule` accepts, `prettyPrint` writes the whole tree and a new
line, unless a Block declares a `double`.  Then it throws `UnhandledSwitchCase`.
-/
theorem accepted_module_prints {owner : Module} {context : ExecutionContext}
    (accepted : ExecutionContext.addModule owner = .ok context)
    (order : SortByName) (cout : String) :
    (¬ owner.DeclaresDouble →
      ExecutionContext.prettyPrint order owner cout =
        .ok () (cout ++ ((owner.labelTree order).text 0 ++ "\n"))) ∧
      (owner.DeclaresDouble →
        ∃ written, ExecutionContext.prettyPrint order owner cout =
          .error (.thrown .unhandledSwitchCase) written) := by
  have present : owner.NothingNull := by
    cases outcome : walkTree codeGen owner {} with
    | ok result final => exact Module.nothingNull_of_completes outcome
    | error fault final =>
        rw [ExecutionContext.addModule, outcome] at accepted
        cases accepted
  have indented : PrettyPrinterVisitor.IndentedAt { out_ := cout } 0 [] := rfl
  constructor
  · intro none
    have printable := (Module.printable_iff_declares present).mpr none
    rw [ExecutionContext.prettyPrint, walkTree_of_printable order indented printable]
    rfl
  · intro declares
    have unprintable : ¬ owner.Printable := fun printable =>
      (Module.printable_iff_declares present).mp printable declares
    obtain ⟨fault, final, fails, -⟩ :=
      walkTree_of_not_printable order indented unprintable
    refine ⟨final.out_, ?_⟩
    rw [ExecutionContext.prettyPrint, fails, prettyPrinter_throws present fails]

/-- `int32 f() { double d; 1; }`. -/
def doubleModule : Module :=
  let block : BlockBuilder :=
    (BlockBuilder.addVariable {} ⟨0, "d", .double⟩).addExpression (.literalInt32 1)
  let fb : FunctionBuilder :=
    { name_ := "f", returnType_ := .int32, blockBuilder_ := block }
  (ModuleBuilder.addFunction { name_ := "m" }
    (some (fb.build .insertion .insertion))).build

/-- The generator takes a module that cannot be printed. -/
theorem accepted_module_prints_double :
    ∃ context, ExecutionContext.addModule doubleModule = .ok context ∧
      ∃ written, ExecutionContext.prettyPrint .insertion doubleModule "" =
        .error (.thrown .unhandledSwitchCase) written := by
  have completed :
      completedWith (fun _ => true) (walkTree codeGen doubleModule {}) = true := by
    decide +kernel
  obtain ⟨final, completes, -⟩ := exists_of_completedWith completed
  have accepted :
      ExecutionContext.addModule doubleModule = .ok ⟨final.module_⟩ := by
    rw [ExecutionContext.addModule, completes]
    rfl
  have declares : doubleModule.DeclaresDouble := by
    refine ⟨_, .tail _ (.tail _ (.head _)), _, _, rfl, ⟨0, "d", .double⟩, ?_, rfl⟩
    exact .head _
  exact ⟨_, accepted, (accepted_module_prints accepted .insertion "").2 declares⟩

end Llast
