import Mathlib.Data.List.Basic
import Mathlib.Order.WellFounded

/-!
# Labelled executions

A `System` is a relation between a state, the event one atomic step shows, and
the state after it. Interleaving is not built in: a system whose states hold a
pool of threads steps one thread at a time, and its executions are exactly the
interleavings.

`StepsWhere` carries a side condition that every step of the run satisfies, so
that assumptions about a schedule or an allocator are stated about runs and not
about single steps.
-/

namespace LockFree

universe u v w

/-- A transition relation labelled by the event each step shows. -/
structure System (State : Type u) (Event : Type v) where
  Step : State → Event → State → Prop

namespace System

variable {State : Type u} {Event : Type v}

/-- The system of an executable step function. A choice resolves what the
program leaves open: which thread runs, what the environment answers. -/
def ofStep? {Choice : Type w} (step? : State → Choice → Option (Event × State)) :
    System State Event where
  Step before event after := ∃ choice, step? before choice = some (event, after)

/-- Zero or more steps, every one of which satisfies `admits` in the state it
is taken in. The list holds the events in order. -/
inductive StepsWhere (system : System State Event) (admits : State → Event → Prop) :
    State → List Event → State → Prop where
  | refl {state} : StepsWhere system admits state [] state
  | step {start events current event next}
      (prior : StepsWhere system admits start events current)
      (transition : system.Step current event next)
      (admitted : admits current event) :
      StepsWhere system admits start (events ++ [event]) next

/-- Zero or more steps without a side condition. -/
abbrev Steps (system : System State Event) : State → List Event → State → Prop :=
  system.StepsWhere fun _ _ => True

variable {system : System State Event} {admits : State → Event → Prop}
  {start middle finish : State} {events prefixEvents suffixEvents : List Event}

/-- One more step at the end of an unconditional run. -/
theorem Steps.snoc {event : Event} {next : State} (prior : system.Steps start events middle)
    (transition : system.Step middle event next) :
    system.Steps start (events ++ [event]) next :=
  StepsWhere.step prior transition trivial

/-- Runs that meet compose. -/
theorem StepsWhere.trans (first : system.StepsWhere admits start prefixEvents middle)
    (suffix : system.StepsWhere admits middle suffixEvents finish) :
    system.StepsWhere admits start (prefixEvents ++ suffixEvents) finish := by
  induction suffix with
  | refl => simpa using first
  | step prior transition admitted inductionHypothesis =>
      simpa [List.append_assoc] using
        StepsWhere.step inductionHypothesis transition admitted

/-- A weaker side condition admits the run as well. -/
theorem StepsWhere.mono {weaker : State → Event → Prop}
    (run : system.StepsWhere admits start events finish)
    (weaken : ∀ state event, admits state event → weaker state event) :
    system.StepsWhere weaker start events finish := by
  induction run with
  | refl => exact .refl
  | step prior transition admitted inductionHypothesis =>
      exact .step inductionHypothesis transition (weaken _ _ admitted)

/-- Forget the side condition. -/
theorem StepsWhere.steps (run : system.StepsWhere admits start events finish) :
    system.Steps start events finish :=
  run.mono fun _ _ _ => trivial

/-- A run all of whose events satisfy a condition is a run under that condition. -/
theorem Steps.where_ {condition : Event → Prop} (run : system.Steps start events finish)
    (all : ∀ event ∈ events, condition event) :
    system.StepsWhere (fun _ event => condition event) start events finish := by
  induction run with
  | refl => exact .refl
  | @step events current event next prior transition _ inductionHypothesis =>
      refine .step (inductionHypothesis fun earlier member => ?_) transition ?_
      · exact all earlier (List.mem_append_left _ member)
      · exact all event (List.mem_append_right _ (List.mem_singleton_self event))

/-- An invariant preserved by every admitted step holds where the run ends. -/
theorem StepsWhere.invariant {Inv : State → Prop}
    (run : system.StepsWhere admits start events finish)
    (initial : Inv start)
    (preserved : ∀ {before event after}, Inv before → admits before event →
      system.Step before event after → Inv after) :
    Inv finish := by
  induction run with
  | refl => exact initial
  | step prior transition admitted inductionHypothesis =>
      exact preserved inductionHypothesis admitted transition

/-- An invariant that relates the events so far to the state. -/
theorem StepsWhere.traceInvariant {Inv : List Event → State → Prop}
    (run : system.StepsWhere admits start events finish)
    (initial : Inv [] start)
    (preserved : ∀ {trace before event after}, Inv trace before → admits before event →
      system.Step before event after → Inv (trace ++ [event]) after) :
    Inv events finish := by
  induction run with
  | refl => exact initial
  | step prior transition admitted inductionHypothesis =>
      exact preserved inductionHypothesis admitted transition

/-- A system that can follow every step follows every run, and shows the same. -/
theorem Steps.simulate {State' : Type w} {other : System State' Event}
    {related : State → State' → Prop} {start' : State'} (run : system.Steps start events finish)
    (initial : related start start')
    (follows : ∀ {before event after before'}, related before before' →
      system.Step before event after →
      ∃ after', other.Step before' event after' ∧ related after after') :
    ∃ finish', other.Steps start' events finish' ∧ related finish finish' := by
  induction run with
  | refl => exact ⟨start', .refl, initial⟩
  | step _ transition _ inductionHypothesis =>
      obtain ⟨between, prior, relatedBetween⟩ := inductionHypothesis
      obtain ⟨after, step, relatedAfter⟩ := follows relatedBetween transition
      exact ⟨after, prior.snoc step, relatedAfter⟩

/-- A run over a concatenation passes through a state in between. -/
theorem StepsWhere.split (run : system.StepsWhere admits start events finish)
    (parts : events = prefixEvents ++ suffixEvents) :
    ∃ middle, system.StepsWhere admits start prefixEvents middle ∧
      system.StepsWhere admits middle suffixEvents finish := by
  induction run generalizing suffixEvents with
  | refl =>
      obtain ⟨rfl, rfl⟩ := List.append_eq_nil_iff.mp parts.symm
      exact ⟨_, .refl, .refl⟩
  | step prior transition admitted inductionHypothesis =>
      rcases List.eq_nil_or_concat suffixEvents with rfl | ⟨rest, last, rfl⟩
      · rw [List.append_nil] at parts
        subst parts
        exact ⟨_, .step prior transition admitted, .refl⟩
      · rw [List.concat_eq_append, ← List.append_assoc] at parts
        obtain ⟨restParts, lastParts⟩ := List.append_inj' parts rfl
        cases lastParts
        obtain ⟨between, before, after⟩ := inductionHypothesis restParts
        refine ⟨between, before, ?_⟩
        rw [List.concat_eq_append]
        exact .step after transition admitted

/-- The step an event of the trace records, with the run up to it. -/
theorem StepsWhere.stepAt {event : Event} (run : system.StepsWhere admits start events finish)
    (parts : events = prefixEvents ++ event :: suffixEvents) :
    ∃ before after, system.StepsWhere admits start prefixEvents before ∧
      system.Step before event after ∧ admits before event ∧
      system.StepsWhere admits after suffixEvents finish := by
  obtain ⟨before, prior, rest⟩ := run.split parts
  obtain ⟨after, single, suffix⟩ := rest.split
    (show event :: suffixEvents = [event] ++ suffixEvents from rfl)
  obtain ⟨between, empty, transition, admitted⟩ :
      ∃ between, system.StepsWhere admits before [] between ∧
        system.Step between event after ∧ admits between event := by
    generalize singleEvents : [event] = trace at single
    cases single with
    | refl => cases singleEvents
    | @step earlier _ last _ first transition admitted =>
        have parts : [] ++ [event] = earlier ++ [last] := singleEvents
        obtain ⟨rfl, same⟩ := List.append_inj' parts rfl
        cases same
        exact ⟨_, first, transition, admitted⟩
  generalize noEvents : ([] : List Event) = trace at empty
  cases empty with
  | refl => exact ⟨_, _, prior, transition, admitted, suffix⟩
  | step => simp at noEvents

/-! ### Executable runs -/

/-- Run an executable step function along a list of choices. -/
def run? {Choice : Type w} (step? : State → Choice → Option (Event × State)) :
    State → List Choice → Option (List Event × State)
  | state, [] => some ([], state)
  | state, choice :: rest =>
      (step? state choice).bind fun taken =>
        (run? step? taken.2 rest).map fun done => (taken.1 :: done.1, done.2)

/-- A successful executable run is a run of the relation. -/
theorem steps_of_run? {Choice : Type w} {step? : State → Choice → Option (Event × State)}
    {choices : List Choice} (ran : run? step? start choices = some (events, finish)) :
    (ofStep? step?).Steps start events finish := by
  induction choices generalizing start events with
  | nil =>
      cases ran
      exact .refl
  | cons choice rest inductionHypothesis =>
      simp only [run?, Option.bind_eq_some_iff, Option.map_eq_some_iff] at ran
      obtain ⟨⟨event, next⟩, taken, ⟨restEvents, last⟩, ranRest, same⟩ := ran
      cases same
      have first : (ofStep? step?).Steps start [event] next :=
        Steps.snoc .refl ⟨choice, taken⟩
      exact first.trans (inductionHypothesis ranRest)

/-- A decidable property seen of an executable run is the property of a run of
the relation. -/
theorem exists_steps {Choice : Type w} {step? : State → Choice → Option (Event × State)}
    (choices : List Choice) {property : List Event → State → Prop}
    [∀ events finish, Decidable (property events finish)]
    (seen : (run? step? start choices).elim false (fun done => property done.1 done.2) = true) :
    ∃ events finish, (ofStep? step?).Steps start events finish ∧ property events finish := by
  cases ran : run? step? start choices with
  | none =>
      rw [ran] at seen
      cases seen
  | some done =>
      rw [ran] at seen
      exact ⟨done.1, done.2, steps_of_run? ran, of_decide_eq_true seen⟩

/-- The steps of an executable step function that meet a side condition. -/
def guard? {Choice : Type w} (step? : State → Choice → Option (Event × State))
    (admits : State → Event → Prop) [∀ state event, Decidable (admits state event)]
    (state : State) (choice : Choice) : Option (Event × State) :=
  (step? state choice).filter fun taken => admits state taken.1

/-- A run of guarded steps is a run under the side condition. -/
theorem stepsWhere_of_guard? {Choice : Type w}
    {step? : State → Choice → Option (Event × State)}
    [∀ state event, Decidable (admits state event)]
    (run : (ofStep? (guard? step? admits)).Steps start events finish) :
    (ofStep? step?).StepsWhere admits start events finish := by
  induction run with
  | refl => exact .refl
  | step prior transition _ inductionHypothesis =>
      obtain ⟨choice, taken⟩ := transition
      obtain ⟨taken, admitted⟩ := Option.filter_eq_some_iff.mp taken
      exact .step inductionHypothesis ⟨choice, taken⟩ (of_decide_eq_true admitted)

/-! ### Infinite executions -/

/-- An infinite run from a state. -/
structure Infinite (system : System State Event) (start : State) where
  stateAt : Nat → State
  eventAt : Nat → Event
  stateZero : stateAt 0 = start
  step : ∀ index, system.Step (stateAt index) (eventAt index) (stateAt (index + 1))

/-- Every state of an infinite run is reached by the events before it. -/
theorem Infinite.steps (run : system.Infinite start) (index : Nat) :
    system.Steps start ((List.range index).map run.eventAt) (run.stateAt index) := by
  induction index with
  | zero => simpa [run.stateZero] using StepsWhere.refl
  | succ index inductionHypothesis =>
      rw [List.range_succ, List.map_append]
      exact inductionHypothesis.snoc (run.step index)

/-- When every step but the exempt ones lowers a well-founded rank, an infinite
run takes exempt steps for ever. -/
theorem Infinite.exempt_recurs {Rank : Type w} {lower : Rank → Rank → Prop}
    (wellFounded : WellFounded lower) (rank : State → Rank) (exempt : Event → Prop)
    (Inv : State → Prop) (run : system.Infinite start)
    (holds : ∀ index, Inv (run.stateAt index))
    (descends : ∀ {before event after}, Inv before → system.Step before event after →
      ¬ exempt event → lower (rank after) (rank before)) (from_ : Nat) :
    ∃ index, from_ ≤ index ∧ exempt (run.eventAt index) := by
  by_contra never
  push Not at never
  have unreachable : ∀ value, ∀ index, from_ ≤ index → rank (run.stateAt index) ≠ value := by
    intro value
    induction value using wellFounded.induction with
    | _ value inductionHypothesis =>
      intro index late same
      have descent := descends (holds index) (run.step index) (never index late)
      rw [same] at descent
      exact inductionHypothesis _ descent (index + 1) (Nat.le_succ_of_le late) rfl
  exact unreachable _ from_ (Nat.le_refl _) rfl

end System

end LockFree
