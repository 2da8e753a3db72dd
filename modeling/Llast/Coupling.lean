import Llast.EventRun

/-!
# Coupled computations

Two computations over states of different types are coupled if, started in
corresponding states, they both complete or both fail, and end in corresponding states
with corresponding results or errors.  Coupled computations compose, so that coupled
reactions to events make coupled runs.  A service answers requests until it breaks down;
it does what may be expected of it if every answer may be expected in the corresponding
state.
-/

namespace Llast.Coupling

open Llast.EventRun

variable {Event OtherEvent State Other Error OtherError : Type}
variable {Result OtherResult Next OtherNext : Type}

/-- How corresponding outcomes look like. -/
inductive Outcomes (States : State → Other → Prop)
    (Errors : Error → OtherError → Prop) (Results : Result → OtherResult → Prop) :
    EStateM.Result Error State Result →
      EStateM.Result OtherError Other OtherResult → Prop where
  | ok {result : Result} {otherResult : OtherResult} {state : State} {other : Other}
      (results : Results result otherResult) (states : States state other) :
      Outcomes States Errors Results (.ok result state) (.ok otherResult other)
  | error {error : Error} {otherError : OtherError} {state : State} {other : Other}
      (errors : Errors error otherError) (states : States state other) :
      Outcomes States Errors Results (.error error state) (.error otherError other)

/-- Started in corresponding states, the computations end in corresponding outcomes. -/
def Coupled (States : State → Other → Prop) (Errors : Error → OtherError → Prop)
    (Results : Result → OtherResult → Prop) (first : EStateM Error State Result)
    (second : EStateM OtherError Other OtherResult) : Prop :=
  ∀ state other, States state other →
    Outcomes States Errors Results (first state) (second other)

section Compose

variable {States : State → Other → Prop} {Errors : Error → OtherError → Prop}
variable {Results : Result → OtherResult → Prop}
variable {NextResults : Next → OtherNext → Prop}

theorem coupled_pure {result : Result} {otherResult : OtherResult}
    (results : Results result otherResult) :
    Coupled States Errors Results (pure result) (pure otherResult) :=
  fun _ _ states => .ok results states

theorem coupled_throw {error : Error} {otherError : OtherError}
    (errors : Errors error otherError) :
    Coupled States Errors Results (throw error) (throw otherError) :=
  fun _ _ states => .error errors states

/-- What would be done after an error does not matter. -/
theorem coupled_throw_bind {error : Error} {otherError : OtherError}
    {then_ : Result → EStateM Error State Next}
    {otherThen : OtherResult → EStateM OtherError Other OtherNext}
    (errors : Errors error otherError) :
    Coupled States Errors NextResults (throw error >>= then_)
      (throw otherError >>= otherThen) :=
  fun _ _ states => .error errors states

theorem Coupled.bind {first : EStateM Error State Result}
    {second : EStateM OtherError Other OtherResult}
    {then_ : Result → EStateM Error State Next}
    {otherThen : OtherResult → EStateM OtherError Other OtherNext}
    (head : Coupled States Errors Results first second)
    (tail : ∀ result otherResult, Results result otherResult →
      Coupled States Errors NextResults (then_ result) (otherThen otherResult)) :
    Coupled States Errors NextResults (first >>= then_) (second >>= otherThen) := by
  intro state other states
  have ended := head state other states
  change Outcomes States Errors NextResults (EStateM.bind first then_ state)
    (EStateM.bind second otherThen other)
  rw [EStateM.bind, EStateM.bind]
  generalize first state = outcome at ended ⊢
  generalize second other = otherOutcome at ended ⊢
  cases ended with
  | ok results states => exact tail _ _ results _ _ states
  | error errors states => exact .error errors states

/-- What is done next may look at the corresponding states. -/
theorem coupled_get {then_ : State → EStateM Error State Next}
    {otherThen : Other → EStateM OtherError Other OtherNext}
    (tail : ∀ state other, States state other →
      Outcomes States Errors NextResults (then_ state state)
        (otherThen other other)) :
    Coupled States Errors NextResults (get >>= then_) (get >>= otherThen) :=
  fun state other states => tail state other states

theorem coupled_modify {onState : State → State} {onOther : Other → Other}
    (states : ∀ state other, States state other →
      States (onState state) (onOther other)) :
    Coupled States Errors Eq (modify onState) (modify onOther) :=
  fun state other corresponding => .ok rfl (states state other corresponding)

/-- Coupled reactions to corresponding events make coupled runs. -/
theorem coupled_run {react : Event → EStateM Error State Unit}
    {reactOther : OtherEvent → EStateM OtherError Other Unit}
    {events : List Event} {onEvent : Event → OtherEvent}
    (each : ∀ event ∈ events,
      Coupled States Errors Eq (react event) (reactOther (onEvent event))) :
    Coupled States Errors Eq (run react events)
      (run reactOther (events.map onEvent)) := by
  induction events with
  | nil => exact coupled_pure rfl
  | cons event rest ih =>
      rw [List.map_cons, run, run]
      refine (each event List.mem_cons_self).bind fun _ _ _ => ?_
      exact ih fun later member => each later (List.mem_cons_of_mem _ member)

end Compose

/-! ## Services -/

section Services

variable {Request Answer : Type}

/-- What a service answers to requests, one after the other, until it breaks down. -/
def answers (serve : Request → State → Option (Answer × State)) :
    State → List Request → List Answer
  | _, [] => []
  | state, request :: rest =>
      match serve request state with
      | some (answer, next) => answer :: answers serve next rest
      | none => []

/--
What may be answered to some requests, if it is known which answers, and which
breakdowns, may be expected of one request in a state.
-/
inductive MayAnswer (may : Request → Other → Option (Answer × Other) → Prop) :
    Other → List Request → List Answer → Prop where
  | done (other : Other) : MayAnswer may other [] []
  | answer {request : Request} {rest : List Request} {other next : Other}
      {answer : Answer} {later : List Answer}
      (expected : may request other (some (answer, next)))
      (goesOn : MayAnswer may next rest later) :
      MayAnswer may other (request :: rest) (answer :: later)
  | breakdown {request : Request} {rest : List Request} {other : Other}
      (expected : may request other none) :
      MayAnswer may other (request :: rest) []

/-- What a service does with a request may be expected in the corresponding state. -/
inductive Conforms (Corresponds : State → Other → Prop)
    (may : Request → Other → Option (Answer × Other) → Prop) (request : Request)
    (other : Other) : Option (Answer × State) → Prop where
  | answer {answer : Answer} {state : State} {next : Other}
      (expected : may request other (some (answer, next)))
      (corresponds : Corresponds state next) :
      Conforms Corresponds may request other (some (answer, state))
  | breakdown (expected : may request other none) :
      Conforms Corresponds may request other none

/-- A service that conforms to expectations request by request does so in every run. -/
theorem mayAnswer_answers {Corresponds : State → Other → Prop}
    {serve : Request → State → Option (Answer × State)}
    {may : Request → Other → Option (Answer × Other) → Prop}
    {requests : List Request}
    (step : ∀ request ∈ requests, ∀ state other, Corresponds state other →
      Conforms Corresponds may request other (serve request state))
    {state : State} {other : Other} (corresponds : Corresponds state other) :
    MayAnswer may other requests (answers serve state requests) := by
  induction requests generalizing state other with
  | nil => exact .done other
  | cons request rest ih =>
      rw [List.forall_mem_cons] at step
      have conforms := step.1 state other corresponds
      rw [answers]
      generalize serve request state = served at conforms
      cases conforms with
      | answer expected next => exact .answer expected (ih step.2 next)
      | breakdown expected => exact .breakdown expected

end Services

end Llast.Coupling
