import LockFree.Relacy.Clocks
import LockFree.Relacy.Ring

/-!
# Data races

A variable remembers for each thread when it was last loaded and stored. From
these timestamps and the clock of the thread, `var.hpp` decides whether an access
is a race. In every run this is the case exactly if the trace has two conflicting
accesses neither of which happens before the other.
-/

namespace LockFree.Relacy

open Causality

variable {Tid Value : Type} [DecidableEq Tid]

/-- The event accesses a variable, or is the failed attempt to. -/
def Event.Accesses : Event Tid Value → Address → Bool → Prop
  | .access _ v write _, v', write' => v = v' ∧ write = write'
  | .raced _ v write, v', write' => v = v' ∧ write = write'
  | _, _, _ => False

/-- The event reports a race. -/
def Event.isRaced : Event Tid Value → Bool
  | .raced .. => true
  | _ => false

/-- Two accesses to one variable, one of which is a store, and no path of happens
before between them. -/
structure Race (events : List (Event Tid Value)) (i j : Nat) : Prop where
  before : i < j
  conflict : ∃ (v : Address) (write writeSecond : Bool) (first second : Event Tid Value),
    events[i]? = some first ∧ events[j]? = some second ∧ first.Accesses v write ∧
      second.Accesses v writeSecond ∧ (write = true ∨ writeSecond = true)
  unordered : ¬ HappensBefore events i j

/-! ### The timestamps of a variable -/

/-- `load_acq_rel_timestamp_` or `store_acq_rel_timestamp_`. -/
def Var.timestamp (data : Var Tid Value) (write : Bool) : Clock Tid :=
  if write then data.storeTimestamp else data.loadTimestamp

/-- Each timestamp of a variable is that of the last such access of the thread. -/
structure Dated (events : List (Event Tid Value)) (s : State Tid Value)
    (stamps : Nat → Nat → Prop) : Prop where
  last : ∀ {i : Nat} {u : Tid} {v : Address} {write : Bool} {value : Value},
    events[i]? = some (.access u v write value) → ∃ j ≥ i, ∃ latest,
      events[j]? = some (.access u v write latest) ∧ stamps j ((s.vars v).timestamp write u)
  dated : ∀ {u : Tid} {v : Address} {write : Bool}, (s.vars v).timestamp write u ≠ 0 →
    ∃ j value, events[j]? = some (.access u v write value) ∧
      stamps j ((s.vars v).timestamp write u)
  initialized : ∀ {i : Nat} {u : Tid} {v : Address} {write : Bool} {value : Value},
    events[i]? = some (.access u v write value) → (s.vars v).initialized = true

section Step

variable [Fintype Tid] {s s' : State Tid Value} {event : Event Tid Value} {random : Bool}
  {events : List (Event Tid Value)} {stamps : Nat → Nat → Prop}

/-- Only accesses change variables. -/
theorem Effect.sameVars (effect : Effect (whole random) s event s')
    (other : ∀ u v write value, event ≠ .access u v write value) : s'.vars = s.vars := by
  cases effect with
  | varLoad | varStore => exact absurd rfl (other _ _ _ _)
  | _ => rfl

/-- An access dates its variable. -/
theorem Effect.dates {u : Tid} {v : Address} {write : Bool} {value : Value}
    (effect : Effect (whole random) s (.access u v write value) s') :
    (s'.vars v).initialized = true ∧
      (s'.vars v).timestamp write u = (s.threads u).acqRelOrder u + 1 ∧
      (∀ w b c, (w, b, c) ≠ (u, v, write) → (s'.vars b).timestamp c w = (s.vars b).timestamp c w) ∧
      ∀ b, b ≠ v → (s'.vars b).initialized = (s.vars b).initialized := by
  cases effect with
  | varLoad initialized ordered =>
      refine ⟨by simp [initialized], by simp [Var.timestamp], fun w b c other => ?_,
        fun b different => by simp [different]⟩
      by_cases same : b = v
      · subst same
        cases c with
        | false =>
            have different : w ≠ u := fun thread => other (by rw [thread])
            simp [Var.timestamp, different]
        | true => simp [Var.timestamp]
      · simp [same]
  | varStore ordered =>
      refine ⟨by simp, by simp [Var.timestamp], fun w b c other => ?_,
        fun b different => by simp [different]⟩
      by_cases same : b = v
      · subst same
        cases c with
        | false => simp [Var.timestamp]
        | true =>
            have different : w ≠ u := fun thread => other (by rw [thread])
            simp [Var.timestamp, different]
      · simp [same]

/-- An access goes through when the clock of its thread covers the conflicting ones. -/
theorem Effect.covers {t : Tid} {v : Address} {write other : Bool} {value : Value}
    (effect : Effect (whole random) s (.access t v write value) s')
    (initialized : (s.vars v).initialized = true) (conflict : other = true ∨ write = true)
    (u : Tid) :
    (s.vars v).timestamp other u ≤ (s.threads t).acqRelOrder u := by
  have covered : ∀ {order timestamps : Clock Tid}, uncovered order timestamps = false →
      ∀ u, timestamps u ≤ order u := by
    intro order timestamps none u
    simp only [uncovered, decide_eq_false_iff_not, not_exists, Nat.not_lt] at none
    exact none u
  cases effect with
  | varLoad _ ordered =>
      have isStore : other = true := conflict.resolve_right (by simp)
      simpa [Var.timestamp, isStore] using covered ordered u
  | varStore ordered =>
      cases other with
      | true => simpa [Var.timestamp] using covered (ordered initialized).1 u
      | false => simpa [Var.timestamp] using covered (ordered initialized).2 u

/-- A race is reported when it does not cover one of them. -/
theorem Effect.races {t : Tid} {v : Address} {write : Bool}
    (effect : Effect (whole random) s (.raced t v write) s') :
    ∃ other u, (other = true ∨ write = true) ∧
      (s.threads t).acqRelOrder u < (s.vars v).timestamp other u := by
  cases effect with
  | racedLoad initialized unordered =>
      obtain ⟨u, late⟩ := of_decide_eq_true unordered
      exact ⟨true, u, .inl rfl, by simpa [Var.timestamp] using late⟩
  | racedStore initialized unordered =>
      rcases unordered with unordered | unordered
      · obtain ⟨u, late⟩ := of_decide_eq_true unordered
        exact ⟨true, u, .inl rfl, by simpa [Var.timestamp] using late⟩
      · obtain ⟨u, late⟩ := of_decide_eq_true unordered
        exact ⟨false, u, .inr rfl, by simpa [Var.timestamp] using late⟩

/-- The variables go on being dated by the trace. -/
theorem Dated.step (dated : Dated events s stamps) (effect : Effect (whole random) s event s') :
    Dated (events ++ [event]) s' (stampsAfter stamps events.length
      (s.clock (.own event.thread) event.thread)
      (s.clock (.own event.thread) event.thread + event.ticks)) := by
  -- the timestamps of older events are what they were
  have older : ∀ {j : Nat} {earlier : Event Tid Value} {count : Nat}, events[j]? = some earlier →
      stamps j count → stampsAfter stamps events.length (s.clock (.own event.thread) event.thread)
        (s.clock (.own event.thread) event.thread + event.ticks) j count := by
    intro j earlier count found stamp
    have inside := (List.getElem?_eq_some_iff.mp found).1
    rwa [stampsAfter, Function.update_of_ne (Nat.ne_of_lt inside)]
  by_cases access : ∃ u v write value, event = .access u v write value
  · obtain ⟨t, a, store, shown, rfl⟩ := access
    obtain ⟨initialized, now, others, sameInitialized⟩ := effect.dates
    have stamped : stampsAfter stamps events.length (s.clock (.own t) t) (s.clock (.own t) t + 1)
        events.length ((s'.vars a).timestamp store t) := by
      rw [now, stampsAfter, Function.update_self]
      exact ⟨Nat.lt_succ_self _, Nat.le_refl _⟩
    have newest : (events ++ [Event.access t a store shown])[events.length]? =
        some (.access t a store shown) := getElem?_snoc.mpr (.inr ⟨rfl, rfl⟩)
    refine ⟨fun {i u v write value} found => ?_, fun {u v write} positive => ?_,
      fun {i u v write value} found => ?_⟩
    · by_cases same : (u, v, write) = (t, a, store)
      · cases same
        have inside := (List.getElem?_eq_some_iff.mp found).1
        rw [List.length_append, List.length_singleton] at inside
        exact ⟨events.length, Nat.le_of_lt_succ inside, shown, newest, stamped⟩
      · rcases getElem?_snoc.mp found with old | ⟨_, new⟩
        · obtain ⟨j, after, latest, foundLatest, stamp⟩ := dated.last old
          rw [others u v write same]
          exact ⟨j, after, latest, getElem?_snoc.mpr (.inl foundLatest), older foundLatest stamp⟩
        · cases new
          exact absurd rfl same
    · by_cases same : (u, v, write) = (t, a, store)
      · cases same
        exact ⟨events.length, shown, newest, stamped⟩
      · rw [others u v write same] at positive ⊢
        obtain ⟨j, value, found, stamp⟩ := dated.dated positive
        exact ⟨j, value, getElem?_snoc.mpr (.inl found), older found stamp⟩
    · by_cases same : v = a
      · exact same ▸ initialized
      · rw [sameInitialized v same]
        rcases getElem?_snoc.mp found with old | ⟨_, new⟩
        · exact dated.initialized old
        · cases new
          exact absurd rfl same
  · have sameVars := effect.sameVars (by simpa using access)
    have old : ∀ {i : Nat} {u : Tid} {v : Address} {write : Bool} {value : Value},
        (events ++ [event])[i]? = some (.access u v write value) →
          events[i]? = some (.access u v write value) := by
      intro i u v write value found
      rcases getElem?_snoc.mp found with old | ⟨_, new⟩
      · exact old
      · exact absurd ⟨u, v, write, value, new⟩ access
    refine ⟨fun found => ?_, fun positive => ?_, fun found => ?_⟩
    · rw [sameVars]
      obtain ⟨j, after, latest, foundLatest, stamp⟩ := dated.last (old found)
      exact ⟨j, after, latest, getElem?_snoc.mpr (.inl foundLatest), older foundLatest stamp⟩
    · rw [sameVars] at positive ⊢
      obtain ⟨j, value, found, stamp⟩ := dated.dated positive
      exact ⟨j, value, getElem?_snoc.mpr (.inl found), older found stamp⟩
    · rw [sameVars]
      exact dated.initialized (old found)

end Step

/-! ### Races of a run -/

section Run

variable [Fintype Tid] [DecidableEq Value] [Inhabited Value] {random : Bool}
  {events : List (Event Tid Value)} {s s' : State Tid Value} {stamps : Nat → Nat → Prop}

/-- The variables are dated by the trace of a run. -/
theorem Stamped.dated (stamped : Stamped random events s stamps) : Dated events s stamps := by
  induction stamped with
  | start =>
      refine ⟨fun found => by simp at found, fun {u v write} positive => ?_,
        fun found => by simp at found⟩
      cases write <;> exact absurd rfl positive
  | step _ transition inductionHypothesis =>
      exact inductionHypothesis.step (effect_of_step transition).2

/-- A clock covers the timestamp of a variable exactly if its thread knows of the
last such access, and then it knows of all of them. -/
theorem Stamped.past_of_covers (stamped : Stamped random events s stamps) {t u : Tid} {v : Address}
    {write : Bool} {value : Value} {i : Nat} (found : events[i]? = some (.access u v write value))
    (covers : (s.vars v).timestamp write u ≤ (s.threads t).acqRelOrder u) :
    Past flow events (.own t) i := by
  obtain ⟨j, after, latest, foundLatest, stamp⟩ := stamped.dated.last found
  have known : Past flow events (.own t) j :=
    (stamped.tracks.known foundLatest stamp (.own t)).mp covers
  have whole : events.take events.length = events := List.take_length
  rw [← whole] at known ⊢
  apply known.take_trans foundLatest
  have own : Past flow (events.take (i + 1)) (.own u) i := past_take_own found
  exact own.own_later (Nat.succ_le_succ after)

omit [Fintype Tid] [DecidableEq Value] [Inhabited Value] in
/-- Nothing is handed on with an access. -/
theorem takes_of_accesses {event : Event Tid Value} {v : Address} {write : Bool}
    (accesses : event.Accesses v write) {reg source : Reg Tid} (takes : Takes event reg source) :
    source = reg := by
  cases event with
  | access | raced => simpa [Takes, Replaced, Joins] using takes
  | _ => exact accesses.elim

omit [Inhabited Value] in
/-- A failure ends the run. -/
theorem last_of_raced (run : (machine (whole random)).Steps s' events s) {i : Nat}
    {event : Event Tid Value} (found : events[i]? = some event) (raced : event.isRaced = true) :
    events.length = i + 1 := by
  obtain ⟨bound, same⟩ := List.getElem?_eq_some_iff.mp found
  have parts : events = events.take i ++ event :: events.drop (i + 1) := by
    rw [← same, ← List.drop_eq_getElem_cons bound, List.take_append_drop]
  obtain ⟨before, after, _, step, _, rest⟩ := run.stepAt parts
  have failed : after.failed = true := by
    cases (effect_of_step step).2 with
    | racedLoad | racedStore => rfl
    | _ => simp [Event.isRaced] at raced
  -- a failed state takes no step
  have ended : events.drop (i + 1) = [] := by
    cases later : events.drop (i + 1) with
    | nil => rfl
    | cons next others =>
        obtain ⟨middle, _, first, onward, _, _⟩ :=
          rest.stepAt (later.trans (List.nil_append _).symm)
        have still : middle = after := by
          generalize empty : ([] : List (Event Tid Value)) = none at first
          cases first with
          | refl => rfl
          | step => simp at empty
        have running := (effect_of_step onward).1
        rw [still, failed] at running
        cases running
  have length := List.drop_eq_nil_iff.mp ended
  omega

/-- A race is reported at an event exactly if the event races with an earlier one. -/
theorem raced_iff_race (run : (machine (whole random)).Steps initial events s) (j : Nat) :
    (∃ event, events[j]? = some event ∧ event.isRaced = true) ↔ ∃ i, Race events i j := by
  obtain ⟨_, stampedAll⟩ := exists_stamped run
  have ordered := stampedAll.recorded.ordered
  constructor
  · rintro ⟨event, found, raced⟩
    obtain ⟨_, _, stamps, stamped, effect⟩ := exists_stamped_at run found
    obtain ⟨t, v, write, rfl⟩ : ∃ t v write, event = .raced t v write := by
      cases event <;> simp_all [Event.isRaced]
    obtain ⟨other, u, conflict, late⟩ := effect.races
    obtain ⟨i, value, foundBefore, stamp⟩ :=
      stamped.dated.dated (Nat.ne_of_gt (Nat.zero_lt_of_lt late))
    have inside := (List.getElem?_eq_some_iff.mp foundBefore).1
    rw [List.length_take] at inside
    have before : i < j := by omega
    have foundFirst := (List.getElem?_take_of_lt before).symm.trans foundBefore
    refine ⟨i, before, ⟨v, other, write, _, _, foundFirst, found, ⟨rfl, rfl⟩, ⟨rfl, rfl⟩, conflict⟩,
      fun happensBefore => ?_⟩
    have accesses : (Event.raced t v write : Event Tid Value).Accesses v write := ⟨rfl, rfl⟩
    have past := (ordered.past_before_iff found before
      fun _ takes => takes_of_accesses accesses takes).mpr happensBefore
    have covers := (stamped.tracks.known foundBefore stamp (.own t)).mpr past
    exact Nat.not_lt.mpr covers late
  · rintro ⟨i, before, ⟨v, write, writeSecond, first, second, found, foundSecond, accesses,
      accessesSecond, conflict⟩, unordered⟩
    cases first with
    | raced u w store =>
        -- nothing follows a report
        have length := last_of_raced run found rfl
        have inside := (List.getElem?_eq_some_iff.mp foundSecond).1
        omega
    | access u w store value =>
        obtain ⟨rfl, rfl⟩ := accesses
        cases second with
        | raced => exact ⟨_, foundSecond, rfl⟩
        | access t w' load value' =>
            have same := accessesSecond
            obtain ⟨rfl, rfl⟩ := same
            exfalso
            apply unordered
            obtain ⟨_, _, stamps, stamped, effect⟩ := exists_stamped_at run foundSecond
            have foundBefore := (List.getElem?_take_of_lt before).trans found
            have covers := effect.covers (stamped.dated.initialized foundBefore) conflict u
            exact (ordered.past_before_iff foundSecond before
              fun _ takes => takes_of_accesses accessesSecond takes).mp
              (stamped.past_of_covers foundBefore covers)
        | _ => exact accessesSecond.elim
    | _ => exact accesses.elim

end Run

/-- The simulator of the source reports a race at an access exactly if an earlier
conflicting access does not happen before it. -/
theorem reports_iff_race [Fintype Tid] [DecidableEq Value] [Inhabited Value] {random : Bool}
    {events : List (Event Tid Value)} {s : State Tid Value}
    (run : (machine (source random)).Steps initial events s) (j : Nat) :
    (∃ event, events[j]? = some event ∧ event.isRaced = true) ↔ ∃ i, Race events i j := by
  obtain ⟨_, run', _⟩ := whole_of_source run
  exact raced_iff_race run' j

/-- Two threads store to a variable without any order. -/
theorem reports_iff_race_stores : ∃ (events : List (Event Bool Nat)) (s : State Bool Nat),
    (machine (source false)).Steps initial events s ∧ ∃ i, Race events i 1 := by
  have ran : ∃ (events : List (Event Bool Nat)) (s : State Bool Nat),
      (machine (source false)).Steps initial events s ∧
        events = [.access false 0 true 7, .raced true 0 true] :=
    System.exists_steps [⟨false, .varStore 0 7, fun _ => false, false⟩,
      ⟨true, .varStore 0 8, fun _ => false, false⟩] (by decide +kernel)
  obtain ⟨events, s, run, shown⟩ := ran
  exact ⟨events, s, run, (reports_iff_race run 1).mp ⟨.raced true 0 true, by simp [shown], rfl⟩⟩

end LockFree.Relacy
