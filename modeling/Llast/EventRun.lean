import Mathlib.Data.List.Basic
import Mathlib.Data.List.Infix

/-!
# Runs of a machine that reacts to events

A machine reacts to each event of a list in turn and stops at the first event
it fails on, keeping the state it had reached.  This module gives the rules by
which such a run is reasoned about: how runs compose, which events are reached
and in which state, how a pure bookkeeping of the events tracks the state of
the machine, how one machine simulates another, and how the outcome of a run
follows from a prediction made event by event.

Nothing here depends on what the events or the states are.
-/

namespace Llast.EventRun

variable {Event State Other Error Summary : Type}

/-- React to every event in turn. -/
def run (react : Event → EStateM Error State Unit) :
    List Event → EStateM Error State Unit
  | [] => pure ()
  | event :: rest => do
      react event
      run react rest

/-- What follows a computation that completes starts where it ended. -/
theorem bind_eq_of_ok {First Second : Type} {first : EStateM Error State First}
    {second : First → EStateM Error State Second} {start next : State}
    {result : First} (completes : first start = .ok result next) :
    (first >>= second) start = second result next := by
  change EStateM.bind first second start = _
  rw [EStateM.bind, completes]

theorem bind_eq_of_error {First Second : Type} {first : EStateM Error State First}
    {second : First → EStateM Error State Second} {start final : State}
    {error : Error} (fails : first start = .error error final) :
    (first >>= second) start = .error error final := by
  change EStateM.bind first second start = _
  rw [EStateM.bind, fails]

section Composition

variable (react : Event → EStateM Error State Unit)

theorem run_cons (event : Event) (rest : List Event) (start : State) :
    run react (event :: rest) start =
      match react event start with
      | .ok _ next => run react rest next
      | .error fault final => .error fault final := by
  change EStateM.bind (react event) (fun _ => run react rest) start = _
  rw [EStateM.bind]
  cases react event start <;> rfl

theorem run_append (first second : List Event) (start : State) :
    run react (first ++ second) start =
      match run react first start with
      | .ok _ middle => run react second middle
      | .error fault final => .error fault final := by
  induction first generalizing start with
  | nil => rfl
  | cons event rest ih =>
      rw [List.cons_append, run_cons, run_cons]
      cases react event start with
      | ok _ next => exact ih next
      | error fault final => rfl

theorem run_cons_of_ok {event : Event} {start next : State}
    (reacts : react event start = .ok () next) (rest : List Event) :
    run react (event :: rest) start = run react rest next := by
  rw [run_cons, reacts]

theorem run_cons_of_error {event : Event} {start final : State} {fault : Error}
    (fails : react event start = .error fault final) (rest : List Event) :
    run react (event :: rest) start = .error fault final := by
  rw [run_cons, fails]

theorem run_append_of_ok {first : List Event} {start middle : State}
    (reaches : run react first start = .ok () middle) (second : List Event) :
    run react (first ++ second) start = run react second middle := by
  rw [run_append, reaches]

@[simp]
theorem run_singleton (event : Event) (start : State) :
    run react [event] start = react event start := by
  rw [run_cons]
  cases react event start <;> rfl

/-- Events that are reacted to in the same way are run in the same way. -/
theorem run_map {reactOther : Other → EStateM Error State Unit}
    {onEvent : Event → Other} {events : List Event}
    (same : ∀ event ∈ events, reactOther (onEvent event) = react event) :
    run reactOther (events.map onEvent) = run react events := by
  induction events with
  | nil => rfl
  | cons event rest ih =>
      rw [List.map_cons, run, run, same event List.mem_cons_self,
        ih fun later member => same later (List.mem_cons_of_mem _ member)]

/-- A completed run passes through a state between any two parts. -/
theorem run_append_eq_ok_iff {first second : List Event}
    {start final : State} :
    run react (first ++ second) start = .ok () final ↔
      ∃ middle,
        run react first start = .ok () middle ∧
          run react second middle = .ok () final := by
  rw [run_append]
  cases run react first start with
  | ok _ middle => simp
  | error fault final => simp

theorem run_cons_eq_ok_iff {event : Event} {rest : List Event}
    {start final : State} :
    run react (event :: rest) start = .ok () final ↔
      ∃ next,
        react event start = .ok () next ∧
          run react rest next = .ok () final := by
  rw [run_cons]
  cases react event start with
  | ok _ next => simp
  | error fault final => simp

/-- A failed run completed some events and failed on the next one. -/
theorem run_eq_error_iff {events : List Event} {start final : State}
    {fault : Error} :
    run react events start = .error fault final ↔
      ∃ past event future state,
        events = past ++ event :: future ∧
          run react past start = .ok () state ∧
            react event state = .error fault final := by
  constructor
  · intro fails
    induction events generalizing start with
    | nil => cases fails
    | cons event rest ih =>
        rw [run_cons] at fails
        cases reaction : react event start with
        | error otherFault otherFinal =>
            rw [reaction] at fails
            exact ⟨[], event, rest, start, rfl, rfl, reaction.trans fails⟩
        | ok _ next =>
            rw [reaction] at fails
            rcases ih fails with
              ⟨past, failing, future, state, split, reaches, failure⟩
            refine ⟨event :: past, failing, future, state, ?_, ?_, failure⟩
            · rw [split, List.cons_append]
            · rw [run_cons_of_ok react reaction, reaches]
  · rintro ⟨past, event, future, state, rfl, reaches, failure⟩
    rw [run_append_of_ok react reaches, run_cons_of_error react failure]

/-- A completed run completes each of its events. -/
theorem completes_of_mem {events : List Event} {event : Event}
    {start final : State} (completes : run react events start = .ok () final)
    (member : event ∈ events) :
    ∃ state next, react event state = .ok () next := by
  rcases List.append_of_mem member with ⟨past, future, split⟩
  rw [split] at completes
  rcases (run_append_eq_ok_iff react).mp completes with ⟨state, -, rest⟩
  rcases (run_cons_eq_ok_iff react).mp rest with ⟨next, reacts, -⟩
  exact ⟨state, next, reacts⟩

end Composition

/-! ## Reached events -/

/--
The run of `events` from `start` gets to `event` in `state`, after it has
completed the events of `past`.
-/
structure Reached (react : Event → EStateM Error State Unit)
    (events : List Event) (start : State)
    (past : List Event) (event : Event) (state : State) : Prop where
  occurs : ∃ future, events = past ++ event :: future
  reaches : run react past start = .ok () state

/--
What holds at the start and is kept by every event the run gets to holds after
every part of the run.
-/
theorem reached_induction {react : Event → EStateM Error State Unit}
    {events : List Event} {start : State}
    {motive : List Event → State → Prop}
    (initial : motive [] start)
    (step : ∀ past event state next,
      Reached react events start past event state →
        react event state = .ok () next → motive past state →
          motive (past ++ [event]) next)
    {past future : List Event} {state : State}
    (split : events = past ++ future)
    (reaches : run react past start = .ok () state) :
    motive past state := by
  induction past using List.reverseRecOn generalizing future state with
  | nil =>
      cases reaches
      exact initial
  | append_singleton past event ih =>
      rcases (run_append_eq_ok_iff react).mp reaches with
        ⟨before, reachesBefore, reacts⟩
      rw [run_singleton] at reacts
      have earlier : events = past ++ event :: future := by simp [split]
      exact step past event before state ⟨⟨future, earlier⟩, reachesBefore⟩
        reacts (ih earlier reachesBefore)

/-! ## Plans -/

/--
A plan takes a summary through a list of events such that every event finds the
summary it expects.
-/
inductive Plan (summarize : Summary → Event → Summary)
    (Expects : Event → Summary → Prop) :
    Summary → List Event → Summary → Prop where
  | nil (summary) : Plan summarize Expects summary [] summary
  | cons {event : Event} {rest : List Event} {summary final : Summary}
      (expected : Expects event summary)
      (later : Plan summarize Expects (summarize summary event) rest final) :
      Plan summarize Expects summary (event :: rest) final

section Plan

variable {summarize : Summary → Event → Summary}
variable {Expects : Event → Summary → Prop}

theorem Plan.append {first second : List Event}
    {summary middle final : Summary}
    (before : Plan summarize Expects summary first middle)
    (after : Plan summarize Expects middle second final) :
    Plan summarize Expects summary (first ++ second) final := by
  induction before with
  | nil => exact after
  | cons expected _ ih => exact .cons expected (ih after)

theorem Plan.singleton {event : Event} {summary : Summary}
    (expected : Expects event summary) :
    Plan summarize Expects summary [event] (summarize summary event) :=
  .cons expected (.nil _)

/-- A plan ends in the folded summary. -/
theorem Plan.final_eq {events : List Event} {summary final : Summary}
    (plan : Plan summarize Expects summary events final) :
    final = events.foldl summarize summary := by
  induction plan with
  | nil => rfl
  | cons _ _ ih => exact ih

/-- Every event of a plan finds what it expects. -/
theorem Plan.expected {past future : List Event} {event : Event}
    {summary final : Summary}
    (plan : Plan summarize Expects summary (past ++ event :: future) final) :
    Expects event (past.foldl summarize summary) := by
  induction past generalizing summary with
  | nil =>
      cases plan with
      | cons expected later => exact expected
  | cons earlier rest ih =>
      cases plan with
      | cons expected later => exact ih later

end Plan

/-! ## Simulation -/

/--
If every reaction of the first machine is matched by the second one, so is
every completed run.
-/
theorem run_simulates {react : Event → EStateM Error State Unit}
    {mimic : Event → EStateM Error Other Unit}
    {Related : State → Other → Prop} {events : List Event}
    (step : ∀ event ∈ events, ∀ state other next,
      Related state other → react event state = .ok () next →
        ∃ otherNext, mimic event other = .ok () otherNext ∧
          Related next otherNext)
    {start final : State} {otherStart : Other}
    (initial : Related start otherStart)
    (completes : run react events start = .ok () final) :
    ∃ otherFinal, run mimic events otherStart = .ok () otherFinal ∧
      Related final otherFinal := by
  induction events generalizing start otherStart with
  | nil =>
      cases completes
      exact ⟨otherStart, rfl, initial⟩
  | cons event rest ih =>
      rcases (run_cons_eq_ok_iff react).mp completes with
        ⟨next, reacts, remaining⟩
      rcases step event List.mem_cons_self start otherStart next initial reacts with
        ⟨otherNext, mimics, related⟩
      obtain ⟨otherFinal, otherCompletes, relatedFinal⟩ :=
        ih (fun later member => step later (List.mem_cons_of_mem _ member))
          related remaining
      exact ⟨otherFinal,
        (run_cons_eq_ok_iff mimic).mpr ⟨otherNext, mimics, otherCompletes⟩,
        relatedFinal⟩

/-! ## Predicting a run -/

/-- A reaction ends the way an optional fault says. -/
def Ends (outcome : EStateM.Result Error State Unit) (fault : Option Error) :
    Prop :=
  match fault with
  | none => ∃ next, outcome = .ok () next
  | some fault => ∃ final, outcome = .error fault final

/-- The fault a reaction ends in. -/
def faultOf : EStateM.Result Error State Unit → Option Error
  | .ok _ _ => none
  | .error fault _ => some fault

theorem ends_iff {outcome : EStateM.Result Error State Unit}
    {fault : Option Error} : Ends outcome fault ↔ faultOf outcome = fault := by
  cases outcome <;> cases fault <;> simp [Ends, faultOf]

/-- A reaction completes in a state that passes a test. -/
def completedWith (test : State → Bool) :
    EStateM.Result Error State Unit → Bool
  | .ok _ final => test final
  | .error _ _ => false

theorem exists_of_completedWith {outcome : EStateM.Result Error State Unit}
    {test : State → Bool} (completed : completedWith test outcome = true) :
    ∃ final, outcome = .ok () final ∧ test final = true := by
  cases outcome with
  | ok _ final => exact ⟨final, rfl, completed⟩
  | error fault final => cases completed

/-- A run that completes its first events gets to the next one. -/
theorem reached_of_faultOf {react : Event → EStateM Error State Unit}
    {events : List Event} {start : State} {count : Nat} {event : Event}
    (place : events[count]? = some event)
    (completes : faultOf (run react (events.take count) start) = none) :
    ∃ state, Reached react events start (events.take count) event state := by
  rcases List.getElem?_eq_some_iff.mp place with ⟨inside, entry⟩
  rcases ends_iff.mpr completes with ⟨state, reaches⟩
  refine ⟨state, ⟨events.drop (count + 1), ?_⟩, reaches⟩
  rw [← entry, ← List.drop_eq_getElem_cons inside, List.take_append_drop]

/--
A prediction says, from the events before it, how each event will go.  It is
sound for a run if every event the run gets to goes that way.
-/
def Predicts (react : Event → EStateM Error State Unit)
    (events : List Event) (start : State)
    (predict : List Event → Event → Option Error) : Prop :=
  ∀ past event state, Reached react events start past event state →
    Ends (react event state) (predict past event)

/-- An event of a longer list is the last one or an event of the shorter list. -/
theorem append_singleton_eq_iff {past before after : List Event}
    {last event : Event} :
    past ++ [last] = before ++ event :: after ↔
      past = before ∧ last = event ∧ after = [] ∨
        ∃ rest, after = rest ++ [last] ∧ past = before ++ event :: rest := by
  rcases after.eq_nil_or_concat with rfl | ⟨rest, final, rfl⟩
  · constructor
    · intro same
      have parts := List.append_inj' same rfl
      exact .inl ⟨parts.1, List.singleton_inj.mp parts.2, rfl⟩
    · rintro (⟨rfl, rfl, -⟩ | ⟨rest, absurdity, -⟩)
      · rfl
      · simp at absurdity
  · rw [List.concat_eq_append, ← List.cons_append, ← List.append_assoc]
    constructor
    · intro same
      have parts := List.append_inj' same rfl
      have equal := List.singleton_inj.mp parts.2
      exact .inr ⟨rest, by rw [equal], parts.1⟩
    · rintro (⟨-, -, absurdity⟩ | ⟨other, same, rfl⟩)
      · simp at absurdity
      · have parts := List.append_inj' same rfl
        rw [parts.1, List.singleton_inj.mp parts.2]

/-- Two events of a list are the same one, or one of them comes first. -/
theorem two_splits {events past future other later : List Event}
    {event otherEvent : Event} (split : events = past ++ event :: future)
    (otherSplit : events = other ++ otherEvent :: later) :
    past = other ∧ event = otherEvent ∨
      (∃ between, other = past ++ event :: between) ∨
        ∃ between, past = other ++ otherEvent :: between := by
  rw [split, List.append_eq_append_iff] at otherSplit
  rcases otherSplit with ⟨between, otherEq, rest⟩ | ⟨between, pastEq, rest⟩
  · cases between with
    | nil =>
        rw [List.append_nil] at otherEq
        exact .inl ⟨otherEq.symm, (List.cons.inj rest).1⟩
    | cons first between =>
        have same := (List.cons.inj rest).1
        exact .inr (.inl ⟨between, by rw [otherEq, same]⟩)
  · cases between with
    | nil =>
        rw [List.append_nil] at pastEq
        exact .inl ⟨pastEq, (List.cons.inj rest).1.symm⟩
    | cons first between =>
        have same := (List.cons.inj rest).1
        exact .inr (.inr ⟨between, by rw [pastEq, same]⟩)

/-- Every event of the list fits the events before it. -/
def Throughout (Fits : List Event → Event → Prop) (events : List Event) :
    Prop :=
  ∀ past event future, events = past ++ event :: future → Fits past event

theorem throughout_nil {Fits : List Event → Event → Prop} :
    Throughout Fits [] := by
  intro past event future split
  simp at split

theorem Throughout.init {Fits : List Event → Event → Prop}
    {past future : List Event} (fits : Throughout Fits (past ++ future)) :
    Throughout Fits past := by
  intro before event after split
  exact fits before event (after ++ future) (by simp [split])

theorem Throughout.append_singleton {Fits : List Event → Event → Prop}
    {past : List Event} {event : Event} (before : Throughout Fits past)
    (last : Fits past event) : Throughout Fits (past ++ [event]) := by
  intro earlier middle future split
  rcases append_singleton_eq_iff.mp split with
    ⟨rfl, rfl, -⟩ | ⟨rest, -, inside⟩
  · exact last
  · exact before _ _ rest inside

theorem throughout_append_singleton {Fits : List Event → Event → Prop}
    {past : List Event} {event : Event} :
    Throughout Fits (past ++ [event]) ↔
      Throughout Fits past ∧ Fits past event :=
  ⟨fun fits => ⟨fits.init, fits past event [] rfl⟩,
    fun fits => fits.1.append_singleton fits.2⟩

theorem throughout_iff_forall_take {Fits : List Event → Event → Prop}
    {events : List Event} :
    Throughout Fits events ↔
      ∀ index, (inside : index < events.length) →
        Fits (events.take index) events[index] := by
  constructor
  · intro fits index inside
    apply fits _ _ (events.drop (index + 1))
    rw [← List.drop_eq_getElem_cons inside, List.take_append_drop]
  · rintro fits past event future rfl
    simpa using fits past.length (by simp)

instance {Fits : List Event → Event → Prop}
    [∀ past event, Decidable (Fits past event)] (events : List Event) :
    Decidable (Throughout Fits events) :=
  decidable_of_iff _ throughout_iff_forall_take.symm

/-- No event of the list is predicted to fail. -/
abbrev Faultless (predict : List Event → Event → Option Error)
    (events : List Event) : Prop :=
  Throughout (fun past event => predict past event = none) events

/-- Where not all goes well, something goes wrong first. -/
theorem exists_first_fault {predict : List Event → Event → Option Error}
    {events : List Event} (faulty : ¬ Faultless predict events) :
    ∃ past event future fault,
      events = past ++ event :: future ∧
        Faultless predict past ∧ predict past event = some fault := by
  induction events using List.reverseRecOn with
  | nil =>
      refine absurd (fun before event after same => ?_) faulty
      simp at same
  | append_singleton past event ih =>
      by_cases before : Faultless predict past
      · cases predicted : predict past event with
        | none => exact absurd (before.append_singleton predicted) faulty
        | some fault => exact ⟨past, event, [], fault, rfl, before, predicted⟩
      · rcases ih before with
          ⟨earlier, first, later, fault, split, faultless, predicted⟩
        refine ⟨earlier, first, later ++ [event], fault, ?_, faultless,
          predicted⟩
        rw [split, List.append_assoc, List.cons_append]

/-- The first fault that is predicted for events that come after others. -/
def firstFault (predict : List Event → Event → Option Error) :
    List Event → List Event → Option Error
  | _, [] => none
  | past, event :: rest =>
      match predict past event with
      | some fault => some fault
      | none => firstFault predict (past ++ [event]) rest

/-- Where corresponding faults are predicted, corresponding faults are the first. -/
theorem firstFault_related {OtherError : Type}
    {Related : Error → OtherError → Prop} {onEvent : Event → Other}
    {predict : List Event → Event → Option Error}
    {predictOther : List Other → Other → Option OtherError}
    (past future : List Event)
    (agree : ∀ before event after,
      past ++ future = before ++ event :: after →
        Option.Rel Related (predict before event)
          (predictOther (before.map onEvent) (onEvent event))) :
    Option.Rel Related (firstFault predict past future)
      (firstFault predictOther (past.map onEvent) (future.map onEvent)) := by
  induction future generalizing past with
  | nil => exact .none
  | cons event rest ih =>
      have here := agree past event rest rfl
      have later := ih (past ++ [event]) fun before next after split =>
        agree before next after (by rw [← split, List.append_cons])
      rw [List.map_append, List.map_singleton] at later
      rw [List.map_cons, firstFault, firstFault]
      generalize predict past event = fault at here ⊢
      generalize predictOther (past.map onEvent) (onEvent event) = other at here ⊢
      cases here with
      | none => exact later
      | some related => exact .some related

section Predicts

variable {react : Event → EStateM Error State Unit}
variable {events : List Event} {start : State}
variable {predict : List Event → Event → Option Error}
variable (predicts : Predicts react events start predict)

include predicts

/-- A part of the run completes exactly if no fault is predicted in it. -/
theorem Predicts.prefix_completes_iff {past future : List Event}
    (split : events = past ++ future) :
    (∃ state, run react past start = .ok () state) ↔
      Faultless predict past := by
  induction past using List.reverseRecOn generalizing future with
  | nil =>
      refine ⟨fun _ before event after same => ?_, fun _ => ⟨start, rfl⟩⟩
      simp at same
  | append_singleton past event ih =>
      have earlier : events = past ++ event :: future := by simp [split]
      constructor
      · rintro ⟨final, completes⟩
        rcases (run_append_eq_ok_iff react).mp completes with
          ⟨state, reaches, reacts⟩
        rw [run_singleton] at reacts
        have answer :=
          predicts past event state ⟨⟨future, earlier⟩, reaches⟩
        refine ((ih earlier).mp ⟨state, reaches⟩).append_singleton ?_
        cases predicted : predict past event with
        | none => rfl
        | some fault =>
            rw [predicted] at answer
            rcases answer with ⟨stop, fails⟩
            rw [fails] at reacts
            cases reacts
      · intro faultless
        rcases (ih earlier).mpr faultless.init with ⟨state, reaches⟩
        have answer :=
          predicts past event state ⟨⟨future, earlier⟩, reaches⟩
        rw [faultless past event [] rfl] at answer
        rcases answer with ⟨next, reacts⟩
        refine ⟨next, (run_append_eq_ok_iff react).mpr ⟨state, reaches, ?_⟩⟩
        rw [run_singleton, reacts]

/-- The run gets to an event exactly if no fault is predicted before it. -/
theorem Predicts.reached_iff {past : List Event} {event : Event} :
    (∃ state, Reached react events start past event state) ↔
      (∃ future, events = past ++ event :: future) ∧
        Faultless predict past := by
  constructor
  · rintro ⟨state, ⟨future, split⟩, reaches⟩
    exact ⟨⟨future, split⟩,
      (predicts.prefix_completes_iff split).mp ⟨state, reaches⟩⟩
  · rintro ⟨⟨future, split⟩, faultless⟩
    rcases (predicts.prefix_completes_iff split).mpr faultless with
      ⟨state, reaches⟩
    exact ⟨state, ⟨future, split⟩, reaches⟩

/-- The run fails exactly with the first fault that is predicted. -/
theorem Predicts.fails_iff {fault : Error} :
    (∃ final, run react events start = .error fault final) ↔
      ∃ past event future,
        events = past ++ event :: future ∧
          Faultless predict past ∧ predict past event = some fault := by
  constructor
  · rintro ⟨final, fails⟩
    rcases (run_eq_error_iff react).mp fails with
      ⟨past, event, future, state, split, reaches, failure⟩
    have answer := predicts past event state ⟨⟨future, split⟩, reaches⟩
    refine ⟨past, event, future, split,
      (predicts.prefix_completes_iff split).mp ⟨state, reaches⟩, ?_⟩
    cases predicted : predict past event with
    | none =>
        rw [predicted] at answer
        rcases answer with ⟨next, reacts⟩
        rw [failure] at reacts
        cases reacts
    | some other =>
        rw [predicted] at answer
        rcases answer with ⟨stop, otherFailure⟩
        rw [failure] at otherFailure
        cases otherFailure
        rfl
  · rintro ⟨past, event, future, split, faultless, predicted⟩
    rcases (predicts.prefix_completes_iff split).mpr faultless with
      ⟨state, reaches⟩
    have answer := predicts past event state ⟨⟨future, split⟩, reaches⟩
    rw [predicted] at answer
    rcases answer with ⟨final, failure⟩
    exact ⟨final, (run_eq_error_iff react).mpr
      ⟨past, event, future, state, split, reaches, failure⟩⟩

/-- A later part of the run ends in the first fault that is predicted for it. -/
theorem Predicts.faultOf_run_from {past future : List Event} {state : State}
    (split : events = past ++ future)
    (reaches : run react past start = .ok () state) :
    faultOf (run react future state) = firstFault predict past future := by
  induction future generalizing past state with
  | nil => rfl
  | cons event rest ih =>
      have answer := predicts past event state ⟨⟨rest, split⟩, reaches⟩
      rw [firstFault]
      cases predicted : predict past event with
      | some fault =>
          rw [predicted] at answer
          rcases answer with ⟨final, fails⟩
          rw [run_cons_of_error react fails]
          rfl
      | none =>
          rw [predicted] at answer
          rcases answer with ⟨next, reacts⟩
          rw [run_cons_of_ok react reacts]
          refine ih (by rw [split, List.append_assoc, List.singleton_append]) ?_
          rw [run_append_of_ok react reaches, run_singleton, reacts]

/-- The run ends in the first fault that is predicted, or completes without any. -/
theorem Predicts.faultOf_run :
    faultOf (run react events start) = firstFault predict [] events :=
  predicts.faultOf_run_from (List.nil_append events).symm rfl

end Predicts

end Llast.EventRun
