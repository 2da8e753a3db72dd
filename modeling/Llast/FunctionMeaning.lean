import Llast.EntryBlock
import Llast.StraightEvaluation

/-!
# What a function computes

Whatever the body of a function looks like, executing its block returns what
evaluating its tree straight through returns: the worth of the topmost value at the
first Return that the evaluation gets to, if it has the function's type, and nothing if
it gets to none.
-/

namespace Llast

open Llast.EventRun
open Llast.CodeGenVisitor

/-! ## Returning -/

section Returned

variable (arith : FloatArith)

/--
What the evaluation of callbacks returns: at the first Return it gets to, the worth
of the topmost value, if it has the function's type.
-/
def Evaluation.returned (evaluation : Evaluation) : List Site → Option Datum
  | [] => none
  | site :: rest =>
      if evaluation.running then
        match site.callback with
        | .visitedReturn _ =>
            if site.KindsFit (evaluation.worths.map Worth.kind) then
              evaluation.worthAt 0
            else
              none
        | _ => (evaluation.step arith site).returned rest
      else
        none

/-- The evaluation in which a function of a module has been entered. -/
def Module.enteredEvaluation (owner : Module) (child : Nat) (func : Function) :
    Evaluation :=
  Evaluation.after arith
    (owner.sitesBefore child ++ owner.enteringSites child func)

/-- What evaluating a function of a module straight through returns. -/
def Module.evaluate (owner : Module) (child : Nat) (func : Function) :
    Option Datum :=
  (owner.enteredEvaluation arith child func).returned arith
    (func.remainingSites [⟨.module owner, child⟩])

/-- An evaluation that has ended returns nothing more. -/
theorem Evaluation.returned_of_ended {evaluation : Evaluation}
    (ended : evaluation.running = false) (sites : List Site) :
    evaluation.returned arith sites = none := by
  cases sites with
  | nil => rfl
  | cons site rest => rw [returned, ended, if_neg Bool.false_ne_true]

theorem Evaluation.returned_of_return {evaluation : Evaluation}
    (running : evaluation.running = true) {path : Path} (valueExpr : Expr)
    (rest : List Site) :
    evaluation.returned arith (⟨path, .visitedReturn valueExpr⟩ :: rest) =
      if Site.KindsFit ⟨path, .visitedReturn valueExpr⟩
          (evaluation.worths.map Worth.kind) then
        evaluation.worthAt 0
      else
        none := by
  rw [returned, if_pos running]

theorem Evaluation.returned_of_other {evaluation : Evaluation}
    (running : evaluation.running = true) {site : Site}
    (other : ¬ site.callback.IsReturn) (rest : List Site) :
    evaluation.returned arith (site :: rest) =
      (evaluation.step arith site).returned arith rest := by
  rw [returned, if_pos running]
  rcases site with ⟨path, callback⟩
  cases callback <;> first | rfl | exact absurd trivial other

/-- Execution goes on after an instruction that does not return. -/
theorem Machine.execute_cons {instruction : Instruction}
    (goesOn : ¬ instruction.operation.IsRet) (returnType : LlvmType)
    (machine : Machine) (rest : List Instruction) :
    machine.execute arith returnType (instruction :: rest) =
      (machine.step arith instruction).bind fun next =>
        next.execute arith returnType rest := by
  rw [execute]
  cases operation : instruction.operation with
  | ret value =>
      rw [operation] at goesOn
      exact absurd trivial goesOn
  | _ => rfl

/-- Code that gets stuck without a `ret` returns nothing. -/
theorem Machine.execute_of_stuck {machine : Machine} {first : List Instruction}
    (returnType : LlvmType) (stuck : machine.proceed arith first = none)
    (noRet : ∀ instruction ∈ first, ¬ instruction.operation.IsRet)
    (second : List Instruction) :
    machine.execute arith returnType (first ++ second) = none := by
  induction first generalizing machine with
  | nil => cases stuck
  | cons instruction rest ih =>
      rw [List.cons_append, execute_cons arith (noRet instruction List.mem_cons_self)]
      rw [proceed] at stuck
      cases steps : machine.step arith instruction with
      | none => rfl
      | some next =>
          rw [steps] at stuck
          exact ih stuck fun later member =>
            noRet later (List.mem_cons_of_mem _ member)

end Returned

/-! ## Executing what a stretch of callbacks has emitted -/

section Execute

variable (arith : FloatArith) {owner : Module}

/-- The code a stretch of callbacks inside a function emits into its block. -/
theorem CodeGenVisitor.Emits.blockCode {before after : CodeGenVisitor}
    {operations : List Operation} (emits : Emits before after operations) :
    after.module_.blockCode before.block_ =
      before.module_.blockCode before.block_ ++
        placed before.context_.nextAddress before.block_ operations := by
  rw [LlvmModule.blockCode, emits.instructions, List.filter_append,
    filter_parent_placed]
  rfl

/-- A Return returns the topmost value, if this has the function's type. -/
theorem Simulates.execute_ret {visitor : CodeGenVisitor} {evaluation : Evaluation}
    (simulates : Simulates arith visitor evaluation) {machine : Machine}
    (ran : visitor.machine arith = some machine) {value : Value}
    {rest : List Value} (stack : visitor.valueStack_ = value :: rest)
    {path : Path} {valueExpr : Expr} {returnType : LlvmType}
    (used : Site.usedAt ⟨path, .visitedReturn valueExpr⟩ = [returnType]) :
    (if value.type = returnType then machine.read arith value else none) =
      if Site.KindsFit ⟨path, .visitedReturn valueExpr⟩
          (evaluation.worths.map Worth.kind) then
        evaluation.worthAt 0
      else
        none := by
  have values := simulates.values
  rw [stack, ran] at values
  rcases List.forall₂_cons_left_iff.mp values with
    ⟨worth, others, isWorth, -, worths⟩
  have top : evaluation.worthAt 0 = worth.datum := by
    rw [Evaluation.worthAt, worths]
    rfl
  simp [Site.KindsFit, used, worths, isWorth.kind, Value.kind, top,
    isWorth.read arith, eq_comm]

/-- Where the code of a callback stops, it returns what the evaluation does. -/
theorem Simulates.execute_of_stops {site : Site} {before next : CodeGenVisitor}
    {evaluation : Evaluation} {machine : Machine} {returnType : LlvmType}
    (simulates : Simulates arith before evaluation)
    (performs : Performs before site.callback next)
    (used : site.callback.IsReturn → site.usedAt = [returnType])
    (ran : before.machine arith = some machine)
    (running : evaluation.running = true)
    (ends : ¬ site.callback.IsReturn →
      (evaluation.step arith site).running = false)
    (stops : machine.proceed arith
      (placed before.context_.nextAddress before.block_
        (before.operations site.callback)) = none)
    (later : List Instruction) (rest : List Site) :
    machine.execute arith returnType
        (placed before.context_.nextAddress before.block_
          (before.operations site.callback) ++ later) =
      evaluation.returned arith (site :: rest) := by
  by_cases isReturn : site.callback.IsReturn
  · rcases site with ⟨path, callback⟩
    cases performs with
    | visitedReturn valueExpr stack =>
        simp only [CodeGenVisitor.operations, stack]
        rw [Evaluation.returned_of_return arith running,
          ← simulates.execute_ret arith ran stack (used isReturn)]
        rfl
    | silent visitor notOverridden =>
        cases callback <;>
          first | exact notOverridden.elim | exact isReturn.elim
    | _ => exact isReturn.elim
  · rw [Evaluation.returned_of_other arith running isReturn,
      Evaluation.returned_of_ended arith (ends isReturn)]
    apply Machine.execute_of_stuck arith returnType stops
    intro instruction member
    have emitted := List.mem_map_of_mem (f := Instruction.operation) member
    rw [map_operation_placed] at emitted
    exact not_isRet_of_mem_operations isReturn emitted

/--
From wherever a walk has got to inside a function, executing what it emits until it
leaves the function returns what the evaluation returns.
-/
theorem Module.execute_of_run {past sites future : List Site}
    {before after : CodeGenVisitor} {machine : Machine} {returnType : LlvmType}
    (split : owner.sites = past ++ sites ++ future)
    (reaches : run codeGen.performAt past {} = .ok () before)
    (during : run codeGen.performAt sites before = .ok () after)
    (stays : ∀ site ∈ sites, ¬ site.callback.Moves)
    (used : ∀ site ∈ sites, site.callback.IsReturn → site.usedAt = [returnType])
    (ran : before.machine arith = some machine) :
    ∃ code,
      after.module_.blockCode before.block_ =
          before.module_.blockCode before.block_ ++ code ∧
        machine.execute arith returnType code =
          (Evaluation.after arith past).returned arith sites := by
  induction sites generalizing past before machine with
  | nil =>
      cases during
      exact ⟨[], (List.append_nil _).symm, rfl⟩
  | cons site rest ih =>
      rcases (run_cons_eq_ok_iff _).mp during with ⟨next, reacts, remaining⟩
      have performs : Performs before site.callback next :=
        perform_eq_ok_iff.mp reacts
      have emits := performs.emits (stays site List.mem_cons_self)
      have further : owner.sites = (past ++ [site]) ++ rest ++ future := by
        rw [split]
        simp only [List.append_assoc, List.cons_append, List.nil_append]
      have reachesNext :
          run codeGen.performAt (past ++ [site]) {} = .ok () next := by
        rw [run_append_of_ok _ reaches, run_singleton]
        exact reacts
      have staysRest : ∀ later ∈ rest, ¬ later.callback.Moves :=
        fun later member => stays later (List.mem_cons_of_mem _ member)
      have simulates :=
        Module.simulates_of_run arith (split.trans (List.append_assoc ..)) reaches
      have simulatesNext := Module.simulates_of_run arith
        (further.trans (List.append_assoc ..)) reachesNext
      have running : (Evaluation.after arith past).running = true := by
        rw [simulates.running, ran]
        rfl
      have nextMachine := emits.machine arith
      rw [ran, Option.bind_some] at nextMachine
      have added := emits.blockCode
      obtain ⟨operations, later⟩ := emits_of_run staysRest remaining
      have addedLater := later.blockCode
      rw [emits.block, added, List.append_assoc] at addedLater
      cases proceeds : machine.proceed arith
          (placed before.context_.nextAddress before.block_
            (before.operations site.callback)) with
      | some goesOn =>
          have other : ¬ site.callback.IsReturn := by
            intro isReturn
            obtain ⟨value, emitted⟩ := performs.operations_of_isReturn isReturn
            rw [emitted, proceed_one] at proceeds
            cases proceeds
          rw [proceeds] at nextMachine
          obtain ⟨code, codeEq, executes⟩ :=
            ih further reachesNext remaining staysRest
              (fun later member => used later (List.mem_cons_of_mem _ member))
              nextMachine
          rw [emits.block, added, List.append_assoc] at codeEq
          refine ⟨_, codeEq, ?_⟩
          rw [Machine.execute_append arith _ proceeds, executes,
            Evaluation.returned_of_other arith running other,
            Evaluation.after_append_singleton]
      | none =>
          refine ⟨_, addedLater, ?_⟩
          refine simulates.execute_of_stops arith performs
            (used site List.mem_cons_self) ran running ?_ proceeds _ _
          intro other
          rw [← Evaluation.after_append_singleton, simulatesNext.running,
            nextMachine, proceeds]
          rfl

/-- The callbacks of a module from where a function of it was entered. -/
theorem Module.sites_entered {child : Nat} {func : Function}
    (place : owner.functions[child]? = some (some func)) :
    owner.sites =
      (owner.sitesBefore child ++ owner.enteringSites child func) ++
        func.remainingSites [⟨.module owner, child⟩] ++ owner.sitesAfter child := by
  rw [Module.sites_split place]
  simp [Function.sites, bracket, Module.enteringSites, Function.remainingSites]

/-- A Return of a function uses its value at the return type of the function. -/
theorem Function.usedAt_of_isReturn {func : Function} {path : Path} {site : Site}
    (member : site ∈ func.remainingSites path)
    (isReturn : site.callback.IsReturn) :
    site.usedAt = [llvmType func.returnType] := by
  rcases List.mem_append.mp member with inBody | closing
  · have encloses : enclosingFunction site.path = some func :=
      func.body.enclosingFunction_of_mem_sites inBody
    rcases site with ⟨path, callback⟩
    cases callback with
    | visitedReturn valueExpr =>
        rw [Site.usedAt, encloses]
        rfl
    | _ => exact isReturn.elim
  · simp only [List.mem_cons, List.not_mem_nil, or_false] at closing
    rcases closing with rfl | rfl <;> exact isReturn.elim

/--
In a module whose walk completes, executing the block of any function returns what
evaluating the function straight through returns.
-/
theorem Module.execute_blockCode {final : CodeGenVisitor}
    (completes : walkTree codeGen owner {} = .ok () final) {child : Nat}
    {func : Function} (place : owner.functions[child]? = some (some func)) :
    Machine.execute arith (llvmType func.returnType) {}
        (final.module_.blockCode child) =
      owner.evaluate arith child func := by
  rcases Module.walk_around completes place with
    ⟨start, finish, before, during, after⟩
  rcases List.getElem?_eq_some_iff.mp place with ⟨inside, -⟩
  rcases Module.before_of_run inside.le before with ⟨number, earlier⟩
  rcases run_function_eq_ok_iff.mp during with
    ⟨returnType, entered, index, mapped, inserts, remaining⟩
  rcases LlvmModule.getOrInsertFunction_entry inserts with
    ⟨blocks, instructions, -, -⟩
  have enters : run codeGen.performAt
      (owner.sitesBefore child ++ owner.enteringSites child func) {} =
        .ok () (start.opened func entered index) := by
    rw [run_append_of_ok _ before]
    refine (run_cons_eq_ok_iff _).mpr ⟨_, rfl, ?_⟩
    rw [run_singleton]
    exact perform_eq_ok_iff.mpr (.visitingFunction mapped inserts)
  have split := Module.sites_entered place
  have block : (start.opened func entered index).block_ = child := by
    rw [← number, ← blocks]
    rfl
  have empty : (start.opened func entered index).module_.blockCode child =
      [] := by
    apply filter_parent_eq_nil
    intro instruction member
    have inStart : instruction ∈ start.module_.instructions := by
      rw [← instructions]
      exact member
    exact (earlier instruction inStart).ne
  have ran : (start.opened func entered index).machine arith = some {} := by
    rw [CodeGenVisitor.machine, block, empty]
    rfl
  obtain ⟨code, codeEq, executes⟩ := Module.execute_of_run arith split enters
    remaining (fun site => func.stays_of_mem_remainingSites)
    (fun site => Function.usedAt_of_isReturn) ran
  have filled : child < finish.module_.blocks.length := by
    rw [(code_of_run during).1, number]
    exact Nat.lt_succ_self child
  rw [block, empty, List.nil_append] at codeEq
  rw [Module.blockCode_of_after filled after, codeEq, executes]
  rfl

end Execute

end Llast
