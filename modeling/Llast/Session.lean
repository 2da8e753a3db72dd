import Llast.Renaming

/-!
# Several modules in one context

An `ExecutionContext` keeps its LLVM context and its JIT from one `addModule` to the
next, while every module gets a `CodeGenVisitor` of its own.  So a context to which
modules are added behaves like a collection of trees: a module that is rejected leaves
no trace, one that is accepted means what it means alone, and a name stands for a
function of an accepted module that has the name.

Which module this is, where several have the name, is up to the layers of LLVM that
`SimpleJIT::findSymbol` asks.  Their search is a parameter.
-/

namespace Llast

open Llast.EventRun
open Llast.Coupling

/-! ## The context -/

/-- The members of an `ExecutionContext`, the JIT as the modules it holds. -/
structure Session where
  context_ : LlvmContext := {}
  jit_ : List LlvmModule := []

/-- `ExecutionContext::addModule`. -/
def Session.addModule (owner : Module) : EStateM Fault Session Unit :=
  fun session =>
    match walkTree codeGen owner (.startedIn session.context_) with
    | .ok result visitor =>
        .ok result
          { context_ := visitor.context_
            jit_ := session.jit_ ++ [visitor.module_] }
    | .error fault visitor =>
        .error fault { session with context_ := visitor.context_ }

/-- What a client asks of a context, catching the exceptions of `addModule`. -/
inductive Request where
  | addModule (owner : Module)
  | call (name : String)

/-- What the client gets to see; a name may be unknown, so that its address is null. -/
inductive Answer where
  | added
  | rejected (exception : Exception)
  | unknown
  | returned (datum : Datum)
deriving DecidableEq

/-- How `CompileLayer.findSymbol` searches the modules of the JIT for a name. -/
abbrev SymbolSearch :=
  List LlvmModule → String → Option LlvmModule

/-- A search finds one of the modules that have the name, if there is any. -/
structure SymbolSearch.FindsNames (findSymbol : SymbolSearch) : Prop where
  found : ∀ modules name llvmModule, findSymbol modules name = some llvmModule →
    llvmModule ∈ modules ∧ (llvmModule.getFunction name).isSome
  missing : ∀ modules name, findSymbol modules name = none →
    ∀ llvmModule ∈ modules, llvmModule.getFunction name = none

section Serve

variable (arith : FloatArith) (findSymbol : SymbolSearch)

/-- A request to the context.  Nothing is answered where the behaviour is undefined. -/
def Session.serve : Request → Session → Option (Answer × Session)
  | .addModule owner, session =>
      match Session.addModule owner session with
      | .ok _ next => some (.added, next)
      | .error (.thrown exception) next => some (.rejected exception, next)
      | .error (.undefined _) _ => none
  | .call name, session =>
      match findSymbol session.jit_ name with
      | none => some (.unknown, session)
      | some llvmModule =>
          match ExprRunner.machineCall arith ⟨llvmModule⟩
              (llvmModule.getFunction name) with
          | .ok (some datum) => some (.returned datum, session)
          | _ => none

/--
What may be answered by the trees that have been accepted: a call may be one of any
accepted tree that has the name.
-/
inductive AnswerOfTrees :
    Request → List Module → Option (Answer × List Module) → Prop where
  | added {owner : Module} {accepted : List Module}
      (accepts : owner.forecast = none) :
      AnswerOfTrees (.addModule owner) accepted (some (.added, accepted ++ [owner]))
  | rejected {owner : Module} {accepted : List Module} {exception : Exception}
      (throws : owner.forecast = some (.thrown exception)) :
      AnswerOfTrees (.addModule owner) accepted
        (some (.rejected exception, accepted))
  | crashed {owner : Module} {accepted : List Module} {behaviour : Undefined}
      (crashes : owner.forecast = some (.undefined behaviour)) :
      AnswerOfTrees (.addModule owner) accepted none
  | unknown {name : String} {accepted : List Module}
      (lacks : ∀ owner ∈ accepted, owner.firstNamed name = none) :
      AnswerOfTrees (.call name) accepted (some (.unknown, accepted))
  | returned {name : String} {accepted : List Module} {owner : Module}
      {datum : Datum} (member : owner ∈ accepted)
      (means : ExprRunner.callMeaning arith owner name = .ok (some datum)) :
      AnswerOfTrees (.call name) accepted (some (.returned datum, accepted))
  | undefinedCall {name : String} {accepted : List Module} {owner : Module}
      (member : owner ∈ accepted)
      (means : ExprRunner.callMeaning arith owner name = .ok none) :
      AnswerOfTrees (.call name) accepted none

end Serve

/-- The modules that are added are runnable, and the names that are called plain. -/
def Request.Allowed : Request → Prop
  | .addModule owner => owner.Runnable
  | .call name => PlainName name

/-! ## The same module in a used context -/

/-- Nothing is renamed, but the context has made objects before. -/
def Renaming.unchanged (offset : Nat) : Renaming where
  onName := id
  onAddress := Variable.address
  injective := Function.injective_id
  offset := offset

theorem Scope.relabel_unchanged (offset : Nat) (scope : Scope) :
    (Renaming.unchanged offset).onScope scope = scope := by
  rcases scope with ⟨entries, distinctKeys⟩
  simp only [Renaming.onScope, Scope.mk.injEq]
  exact List.map_id entries

theorem Expr.relabel_unchanged (offset : Nat) (expr : Expr) :
    expr.relabel (Renaming.unchanged offset).relabeling = expr := by
  induction expr using Expr.induction with
  | null => rfl
  | literalInt32 value => rfl
  | literalFloat value => rfl
  | binary lValue operation rValue left right => rw [Expr.relabel, left, right]
  | variableRef var => rfl
  | assignVariable var valueExpr value =>
      rw [Expr.relabel, value]
      rfl
  | «return» valueExpr value => rw [Expr.relabel, value]
  | block scope expressions each =>
      rw [Expr.relabel, relabelEach_eq_map, List.map_congr_left each, List.map_id']
      exact congrArg (Expr.block · expressions) (scope.relabel_unchanged offset)
  | conditional condition truePart falsePart test whenTrue whenFalse =>
      rw [Expr.relabel, test, whenTrue, whenFalse]

theorem Module.relabel_unchanged (offset : Nat) (owner : Module) :
    owner.relabel (Renaming.unchanged offset).relabeling = owner := by
  have each : Function.relabel (Renaming.unchanged offset).relabeling = id := by
    funext func
    rw [Function.relabel, Expr.relabel_unchanged]
    exact congrArg (fun scope => { func with parameterScope := scope })
      (Scope.relabel_unchanged offset func.parameterScope)
  rw [Module.relabel, each, Option.map_id, List.map_id]

/-! ## One request -/

/-- The code of the tree, at addresses of its own. -/
def Module.CompiledAs (owner : Module) (llvmModule : LlvmModule) : Prop :=
  ∃ final offset, walkTree codeGen owner {} = .ok () final ∧
    llvmModule = final.module_.renamed (.unchanged offset)

section Requests

variable {owner : Module}

/-- In a used context the generator ends as in a new one. -/
theorem Session.walkTree_lockstep (session : Session) (owner : Module) :
    Outcomes (Renaming.unchanged session.context_.nextAddress).States
      (Fault.Renamed id) Eq (walkTree codeGen owner {})
      (walkTree codeGen owner (.startedIn session.context_)) := by
  have lockstep :=
    lockstep_walkTree (.unchanged session.context_.nextAddress) owner
  rw [Module.relabel_unchanged] at lockstep
  exact lockstep

/-- An accepted module is added to the JIT as it is compiled alone. -/
theorem Session.addModule_of_accepted (session : Session)
    (accepted : owner.forecast = none) :
    ∃ next llvmModule, Session.addModule owner session = .ok () next ∧
      next.jit_ = session.jit_ ++ [llvmModule] ∧ owner.CompiledAs llvmModule := by
  rw [← Module.faultOf_walkTree] at accepted
  obtain ⟨final, completes⟩ := ends_iff.mpr accepted
  have lockstep := session.walkTree_lockstep owner
  rw [completes] at lockstep
  rw [Session.addModule]
  generalize walkTree codeGen owner (.startedIn session.context_) = outcome
    at lockstep ⊢
  cases lockstep with
  | ok results states =>
      refine ⟨_, _, rfl, rfl, final, session.context_.nextAddress, completes, ?_⟩
      rw [states]
      rfl

/-- A module that is rejected throws what it throws alone, and is not added. -/
theorem Session.addModule_of_refused (session : Session) {fault : Fault}
    (refused : owner.forecast = some fault) :
    ∃ next, Session.addModule owner session = .error fault next ∧
      next.jit_ = session.jit_ := by
  rw [← Module.faultOf_walkTree] at refused
  have lockstep := session.walkTree_lockstep owner
  rw [Session.addModule]
  generalize walkTree codeGen owner (.startedIn session.context_) = outcome
    at lockstep ⊢
  generalize walkTree codeGen owner {} = alone at lockstep refused
  cases lockstep with
  | ok results states => cases refused
  | error errors states =>
      cases refused
      rw [errors.eq_of_id]
      exact ⟨_, rfl, rfl⟩

/-- Compiled code has the names of the tree. -/
theorem Module.CompiledAs.getFunction {llvmModule : LlvmModule}
    (compiled : owner.CompiledAs llvmModule) {name : String} (present : name ≠ "") :
    (llvmModule.getFunction name).isSome = (owner.firstNamed name).isSome := by
  rcases compiled with ⟨final, offset, completes, rfl⟩
  change (final.module_.getFunction name).isSome = _
  cases first : owner.firstNamed name with
  | none => rw [Module.getFunction_of_missing completes first]
  | some child =>
      obtain ⟨func, place, -, -⟩ := Module.firstNamed_eq_some first
      obtain ⟨index, symbol, -⟩ :=
        Module.entry_of_firstNamed completes present first place
      rw [symbol]
      rfl

/-- Calling a name of compiled code does what it means in the tree. -/
theorem Module.CompiledAs.call (arith : FloatArith) {llvmModule : LlvmModule}
    (compiled : owner.CompiledAs llvmModule) {name : String} (present : name ≠ "") :
    ExprRunner.machineCall arith ⟨llvmModule⟩ (llvmModule.getFunction name) =
      ExprRunner.callMeaning arith owner name := by
  rcases compiled with ⟨final, offset, completes, rfl⟩
  rw [ExprRunner.machineCall_renamed]
  exact ExprRunner.machineCall_of_completes arith completes present

/-- A name that an accepted tree has means an evaluation. -/
theorem Module.CompiledAs.callMeaning (arith : FloatArith) {llvmModule : LlvmModule}
    (compiled : owner.CompiledAs llvmModule) {name : String}
    (named : (owner.firstNamed name).isSome) :
    ∃ returned, ExprRunner.callMeaning arith owner name = .ok returned := by
  rcases compiled with ⟨final, offset, completes, -⟩
  have accepted := Module.completes_iff.mp ⟨final, completes⟩
  obtain ⟨child, first⟩ := Option.isSome_iff_exists.mp named
  exact ⟨_, by rw [ExprRunner.callMeaning, accepted, first]⟩

end Requests

/-! ## All requests -/

/-- The JIT holds the code of the accepted trees. -/
def Session.Implements (session : Session) (accepted : List Module) : Prop :=
  List.Forall₂ (fun llvmModule owner => owner.CompiledAs llvmModule)
    session.jit_ accepted

/-- What stands in one of two corresponding lists has its counterpart in the other. -/
theorem exists_of_forall₂ {First Second : Type} {Related : First → Second → Prop}
    {firsts : List First} {seconds : List Second}
    (related : List.Forall₂ Related firsts seconds) {first : First}
    (member : first ∈ firsts) : ∃ second ∈ seconds, Related first second := by
  induction related with
  | nil => cases member
  | cons here rest ih =>
      rcases List.mem_cons.mp member with rfl | later
      · exact ⟨_, List.mem_cons_self, here⟩
      · obtain ⟨second, inside, there⟩ := ih later
        exact ⟨second, List.mem_cons_of_mem _ inside, there⟩

section Conforms

variable (arith : FloatArith) {findSymbol : SymbolSearch}
variable {session : Session} {accepted : List Module}

theorem Session.Implements.addModule (implements : session.Implements accepted)
    (findSymbol : SymbolSearch) (owner : Module) :
    Conforms Session.Implements (AnswerOfTrees arith) (.addModule owner) accepted
      (Session.serve arith findSymbol (.addModule owner) session) := by
  rw [Session.serve]
  cases forecast : owner.forecast with
  | none =>
      obtain ⟨next, llvmModule, added, jit, compiled⟩ :=
        session.addModule_of_accepted forecast
      rw [added]
      refine .answer (.added forecast) ?_
      rw [Session.Implements, jit]
      exact List.rel_append implements (.cons compiled .nil)
  | some fault =>
      obtain ⟨next, throws, jit⟩ := session.addModule_of_refused forecast
      rw [throws]
      cases fault with
      | thrown exception =>
          refine .answer (.rejected forecast) ?_
          rw [Session.Implements, jit]
          exact implements
      | undefined behaviour => exact .breakdown (.crashed forecast)

theorem Session.Implements.call (finds : findSymbol.FindsNames)
    (implements : session.Implements accepted) {name : String}
    (present : name ≠ "") :
    Conforms Session.Implements (AnswerOfTrees arith) (.call name) accepted
      (Session.serve arith findSymbol (.call name) session) := by
  rw [Session.serve]
  cases search : findSymbol session.jit_ name with
  | none =>
      refine .answer (.unknown fun owner member => ?_) implements
      obtain ⟨llvmModule, held, (compiled : owner.CompiledAs llvmModule)⟩ :=
        exists_of_forall₂ implements.flip member
      have lacks := finds.missing _ _ search llvmModule held
      have named := compiled.getFunction present
      rw [lacks] at named
      exact Option.isNone_iff_eq_none.mp (Option.isSome_eq_false_iff.mp named.symm)
  | some llvmModule =>
      obtain ⟨held, known⟩ := finds.found _ _ _ search
      obtain ⟨owner, member, (compiled : owner.CompiledAs llvmModule)⟩ :=
        exists_of_forall₂ implements held
      rw [compiled.getFunction present] at known
      obtain ⟨returned, means⟩ := compiled.callMeaning arith known
      simp only [compiled.call arith present, means]
      cases returned with
      | none => exact .breakdown (.undefinedCall member means)
      | some datum => exact .answer (.returned member means) implements

end Conforms

/--
Whatever is asked of a context, in whatever order, and however LLVM searches the
modules for a name that several of them have, it answers what the accepted trees may
answer, until the behaviour is undefined for a tree or a call.
-/
theorem session_answers_of_trees (arith : FloatArith) {findSymbol : SymbolSearch}
    (finds : findSymbol.FindsNames) {requests : List Request}
    (allowed : ∀ request ∈ requests, request.Allowed) :
    MayAnswer (AnswerOfTrees arith) [] requests
      (answers (Session.serve arith findSymbol) {} requests) := by
  have start : Session.Implements {} [] := .nil
  refine mayAnswer_answers ?_ start
  intro request member session accepted implements
  cases request with
  | addModule owner => exact implements.addModule arith findSymbol owner
  | call name => exact implements.call arith finds (allowed _ member).1

/-- `int f() { return 3; }`, in another module than the one added before. -/
def anotherF : Module :=
  let fb : FunctionBuilder :=
    { name_ := "f", returnType_ := .int32,
      blockBuilder_ := BlockBuilder.addExpression {} (.return (.literalInt32 3)) }
  (ModuleBuilder.addFunction { name_ := "another" }
    (some (fb.build .insertion .insertion))).build

/-- The module added last is searched first. -/
def lastAddedFirst : SymbolSearch :=
  fun modules name =>
    modules.reverse.find? fun llvmModule => (llvmModule.getFunction name).isSome

theorem lastAddedFirst_findsNames : lastAddedFirst.FindsNames where
  found modules name llvmModule search := by
    refine ⟨List.mem_reverse.mp (List.mem_of_find?_eq_some search), ?_⟩
    simpa using List.find?_some search
  missing modules name search llvmModule member := by
    simpa using List.find?_eq_none.mp search llvmModule (List.mem_reverse.mpr member)

theorem anotherF_plain : anotherF.PlainNames := by
  have plain : ∀ name ∈ ["f"], PlainName name := by simp [PlainName]
  exact List.forall_mem_map.mp plain

theorem session_answers_of_trees_anotherF :
    MayAnswer (AnswerOfTrees .binary32) []
      [.addModule sameNameTwice, .addModule anotherF, .call "f", .call "g"]
      [.added, .added, .returned (.int 3), .unknown] := by
  have first : sameNameTwice.Runnable :=
    ⟨fun _ => by decide +kernel, fun _ => ExprRunner.sameNameTwice_plain⟩
  have second : anotherF.Runnable :=
    ⟨fun _ => by decide +kernel, fun _ => anotherF_plain⟩
  have allowed : ∀ request ∈
      ([.addModule sameNameTwice, .addModule anotherF, .call "f", .call "g"] :
        List Request), request.Allowed := by
    simp only [List.forall_mem_cons, List.not_mem_nil, false_implies, implies_true,
      and_true]
    have f : PlainName "f" := by simp [PlainName]
    have g : PlainName "g" := by simp [PlainName]
    exact ⟨first, second, f, g⟩
  have returned :
      answers (Session.serve .binary32 lastAddedFirst) {}
          [.addModule sameNameTwice, .addModule anotherF, .call "f", .call "g"] =
        [.added, .added, .returned (.int 3), .unknown] := by
    decide +kernel
  rw [← returned]
  exact session_answers_of_trees .binary32 lastAddedFirst_findsNames allowed

end Llast
