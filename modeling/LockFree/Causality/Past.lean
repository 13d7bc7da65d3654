import Mathlib.Data.List.Induction
import Mathlib.Logic.Function.Basic

/-!
# Causal pasts and the clocks that track them

Registers hold what is known of the events of a trace: each thread has one of its
own, and others carry knowledge from thread to thread. A `Flow` says which
registers take over which in an event. `Past` is the set of events a register
knows of; it is defined by the trace alone.

A family of vector clocks tracks the pasts when a register's clock covers a
timestamp of an event exactly if the register knows of it. `Tracks.step` reduces this
to one fact about a step: the clock of a register afterwards is the maximum of
the clocks it takes over.
-/

namespace LockFree.Causality

universe u v w

/-- Which thread performs an event, which register is the thread's own, and which
registers each register takes over in an event. The event is known to its thread
before anything is taken over. -/
structure Flow (Event : Type u) (Tid : Type v) (Reg : Type w) where
  thread : Event → Tid
  own : Tid → Reg
  takes : Event → Reg → Reg → Prop
  /-- A thread forgets nothing. -/
  keeps : ∀ event thread, takes event (own thread) (own thread)
  /-- What learns of an event learns all that its thread learns with it. -/
  closed : ∀ {event reg source}, takes event reg (own (thread event)) →
    takes event (own (thread event)) source → takes event reg source

variable {Event : Type u} {Tid : Type v} {Reg : Type w}

/-- The events, by their positions, that a register knows of after a trace. -/
inductive Past (flow : Flow Event Tid Reg) : List Event → Reg → Nat → Prop where
  | learn {events event reg} (takes : flow.takes event reg (flow.own (flow.thread event))) :
      Past flow (events ++ [event]) reg events.length
  | take {events event reg source index} (takes : flow.takes event reg source)
      (known : Past flow events source index) : Past flow (events ++ [event]) reg index

variable {flow : Flow Event Tid Reg} {events : List Event} {event : Event} {reg source : Reg}
  {index : Nat}

/-- Nothing is known at the start. -/
theorem not_past_nil : ¬ Past flow [] reg index := by
  intro past
  generalize empty : ([] : List Event) = events at past
  cases past <;> simp at empty

/-- What a register knows after one more event. -/
theorem past_snoc : Past flow (events ++ [event]) reg index ↔
    (flow.takes event reg (flow.own (flow.thread event)) ∧ index = events.length) ∨
      ∃ source, flow.takes event reg source ∧ Past flow events source index := by
  constructor
  · intro past
    generalize same : events ++ [event] = longer at past
    cases past with
    | learn takes =>
        obtain ⟨rfl, last⟩ := List.append_inj' same rfl
        cases last
        exact .inl ⟨takes, rfl⟩
    | take takes known =>
        obtain ⟨rfl, last⟩ := List.append_inj' same rfl
        cases last
        exact .inr ⟨_, takes, known⟩
  · rintro (⟨takes, rfl⟩ | ⟨source, takes, known⟩)
    · exact .learn takes
    · exact .take takes known

/-- Only events of the trace are known. -/
theorem Past.lt (past : Past flow events reg index) : index < events.length := by
  induction past with
  | learn => simp
  | take takes known inductionHypothesis =>
      rw [List.length_append]
      exact Nat.lt_add_right _ inductionHypothesis

/-- A thread goes on knowing what it knows. -/
theorem Past.own_mono {thread : Tid} (past : Past flow events (flow.own thread) index)
    (later : List Event) : Past flow (events ++ later) (flow.own thread) index := by
  induction later using List.reverseRecOn with
  | nil => simpa using past
  | append_singleton later event inductionHypothesis =>
      rw [← List.append_assoc]
      exact .take (flow.keeps event thread) inductionHypothesis

/-- A register goes on knowing what it knows while no event replaces it. -/
theorem Past.mono {later : List Event} (past : Past flow events reg index)
    (stays : ∀ event ∈ later, flow.takes event reg reg) :
    Past flow (events ++ later) reg index := by
  induction later using List.reverseRecOn with
  | nil => simpa using past
  | append_singleton later event inductionHypothesis =>
      rw [← List.append_assoc]
      refine .take (stays event (by simp)) (inductionHypothesis fun earlier member => ?_)
      exact stays earlier (List.mem_append_left _ member)

/-- A thread knows of its own events. -/
theorem past_own {before after : List Event} :
    Past flow (before ++ event :: after) (flow.own (flow.thread event)) before.length := by
  have learned : Past flow (before ++ [event]) (flow.own (flow.thread event)) before.length :=
    .learn (flow.keeps event _)
  simpa using learned.own_mono after

/-- What knows of an event knows what its thread knew right after it. -/
theorem Past.trans {before after : List Event} {earlier : Nat}
    (past : Past flow (before ++ event :: after) reg before.length)
    (known : Past flow (before ++ [event]) (flow.own (flow.thread event)) earlier) :
    Past flow (before ++ event :: after) reg earlier := by
  induction after using List.reverseRecOn generalizing reg with
  | nil =>
      rcases past_snoc.mp past with ⟨takes, _⟩ | ⟨source, _, tooEarly⟩
      · rcases past_snoc.mp known with ⟨_, rfl⟩ | ⟨source, passes, old⟩
        · exact .learn takes
        · exact .take (flow.closed takes passes) old
      · exact absurd tooEarly.lt (Nat.lt_irrefl _)
  | append_singleton after last inductionHypothesis =>
      rw [← List.cons_append, ← List.append_assoc] at past ⊢
      rcases past_snoc.mp past with ⟨_, same⟩ | ⟨source, takes, old⟩
      · simp at same
      · exact .take takes (inductionHypothesis old)

/-- A position of a trace with one more event. -/
theorem getElem?_snoc {found : Event} : (events ++ [event])[index]? = some found ↔
    events[index]? = some found ∨ index = events.length ∧ event = found := by
  rcases Nat.lt_trichotomy index events.length with old | rfl | beyond
  · rw [List.getElem?_append_left old]
    simp [Nat.ne_of_lt old]
  · simp
  · have outside : (events ++ [event]).length ≤ index := by simpa using Nat.succ_le_of_lt beyond
    simp [List.getElem?_eq_none outside, List.getElem?_eq_none (Nat.le_of_lt beyond),
      Nat.ne_of_gt beyond]

/-! ### Prefixes of a trace -/

/-- A prefix with one more event. -/
theorem take_succ_of_getElem? (found : events[index]? = some event) :
    events.take (index + 1) = events.take index ++ [event] := by
  simp [List.take_add_one, found]

/-- The length of a prefix that an event follows. -/
theorem length_take_of_getElem? (found : events[index]? = some event) :
    (events.take index).length = index :=
  List.length_take_of_le (Nat.le_of_lt (List.getElem?_eq_some_iff.mp found).1)

/-- The events of a prefix that a longer prefix adds. -/
theorem take_append_take {first second : Nat} (before : first ≤ second) :
    events.take second = events.take first ++ (events.take second).drop first := by
  conv_lhs => rw [← List.take_append_drop first (events.take second)]
  rw [List.take_take, Nat.min_eq_left before]

/-- What a register knows after the event at a position. -/
theorem past_take_succ {position : Nat} (found : events[position]? = some event) :
    Past flow (events.take (position + 1)) reg index ↔
      (flow.takes event reg (flow.own (flow.thread event)) ∧ index = position) ∨
        ∃ source, flow.takes event reg source ∧ Past flow (events.take position) source index := by
  rw [take_succ_of_getElem? found, past_snoc, length_take_of_getElem? found]

/-- A thread goes on knowing what it knows. -/
theorem Past.own_later {thread : Tid} {first second : Nat}
    (past : Past flow (events.take first) (flow.own thread) index) (before : first ≤ second) :
    Past flow (events.take second) (flow.own thread) index := by
  rw [take_append_take before]
  exact past.own_mono _

/-- A register goes on knowing what it knows while no event replaces it. -/
theorem Past.later {first second : Nat} (past : Past flow (events.take first) reg index)
    (before : first ≤ second)
    (stays : ∀ {position event}, first ≤ position → position < second →
      events[position]? = some event → flow.takes event reg reg) :
    Past flow (events.take second) reg index := by
  rw [take_append_take before]
  apply past.mono
  intro event member
  obtain ⟨offset, bound, found⟩ := List.mem_iff_getElem.mp member
  rw [List.getElem_drop, List.getElem_take] at found
  rw [List.length_drop, List.length_take] at bound
  apply stays (Nat.le_add_right first offset) (by omega)
  rw [List.getElem?_eq_getElem (by omega), found]

/-- A thread knows of its event right after it. -/
theorem past_take_own {position : Nat} (found : events[position]? = some event) :
    Past flow (events.take (position + 1)) (flow.own (flow.thread event)) position :=
  (past_take_succ found).mpr (.inl ⟨flow.keeps event _, rfl⟩)

/-- What knows of an event knows what its thread knew right after it. -/
theorem Past.take_trans {position : Nat} {earlier length : Nat}
    (past : Past flow (events.take length) reg position) (found : events[position]? = some event)
    (known : Past flow (events.take (position + 1)) (flow.own (flow.thread event)) earlier) :
    Past flow (events.take length) reg earlier := by
  have before : position + 1 ≤ length := by
    have bound := past.lt
    rw [List.length_take] at bound
    omega
  have parts : events.take length =
      events.take position ++ event :: (events.take length).drop (position + 1) := by
    have split : events.take length = _ ++ _ := take_append_take before
    rw [take_succ_of_getElem? found, List.append_assoc, List.singleton_append] at split
    exact split
  rw [parts] at past ⊢
  rw [take_succ_of_getElem? found] at known
  apply Past.trans _ known
  rwa [length_take_of_getElem? found]

/-! ### Clocks -/

/-- The clocks track the pasts. `stamps` are the timestamps an event takes from
the clock of its thread. -/
structure Tracks (flow : Flow Event Tid Reg) (stamps : Nat → Nat → Prop) (events : List Event)
    (clock : Reg → Tid → Nat) : Prop where
  known : ∀ {index event count}, events[index]? = some event → stamps index count → ∀ reg,
    count ≤ clock reg (flow.thread event) ↔ Past flow events reg index
  positive : ∀ {index count}, stamps index count → 0 < count
  bounded : ∀ reg thread, clock reg thread ≤ clock (flow.own thread) thread

/-- The timestamps after an event that takes those of an interval. -/
def stampsAfter (stamps : Nat → Nat → Prop) (position before after : Nat) : Nat → Nat → Prop :=
  Function.update stamps position fun count => before < count ∧ count ≤ after

/-- The clocks of an empty trace. -/
theorem tracks_nil {clock : Reg → Tid → Nat}
    (bounded : ∀ reg thread, clock reg thread ≤ clock (flow.own thread) thread) :
    Tracks flow (fun _ _ => False) [] clock where
  known found := by simp at found
  positive stamp := stamp.elim
  bounded := bounded

/-- A thread knows of each of its events in the trace. -/
theorem past_own_of_getElem? (found : events[index]? = some event) :
    Past flow events (flow.own (flow.thread event)) index := by
  obtain ⟨bound, same⟩ := List.getElem?_eq_some_iff.mp found
  have parts : events = events.take index ++ event :: events.drop (index + 1) := by
    rw [← same, ← List.drop_eq_getElem_cons bound, List.take_append_drop]
  have own : Past flow (events.take index ++ event :: events.drop (index + 1))
      (flow.own (flow.thread event)) (events.take index).length := past_own
  rw [← parts, List.length_take, Nat.min_eq_left (Nat.le_of_lt bound)] at own
  exact own

/-- The timestamps of an event of its own are covered by the clock of a thread. -/
theorem Tracks.own_le {stamps : Nat → Nat → Prop} {clock : Reg → Tid → Nat} {count : Nat}
    (tracks : Tracks flow stamps events clock) (found : events[index]? = some event)
    (stamp : stamps index count) :
    count ≤ clock (flow.own (flow.thread event)) (flow.thread event) :=
  (tracks.known found stamp _).mpr (past_own_of_getElem? found)

/-- One step. `ticked` are the clocks after the clock of the thread has advanced;
afterwards every register covers what the registers it takes over cover. -/
theorem Tracks.step {stamps : Nat → Nat → Prop} {clock ticked clock' : Reg → Tid → Nat}
    (tracks : Tracks flow stamps events clock)
    (grows : clock (flow.own (flow.thread event)) (flow.thread event) ≤
      ticked (flow.own (flow.thread event)) (flow.thread event))
    (rests : ∀ reg thread, (reg ≠ flow.own (flow.thread event) ∨ thread ≠ flow.thread event) →
      ticked reg thread = clock reg thread)
    (moves : ∀ reg thread count, 0 < count → count ≤ ticked (flow.own thread) thread →
      (count ≤ clock' reg thread ↔
        ∃ source, flow.takes event reg source ∧ count ≤ ticked source thread))
    (bounded : ∀ reg thread, clock' reg thread ≤ clock' (flow.own thread) thread) :
    Tracks flow (stampsAfter stamps events.length
      (clock (flow.own (flow.thread event)) (flow.thread event))
      (ticked (flow.own (flow.thread event)) (flow.thread event))) (events ++ [event]) clock' := by
  have covers : ∀ reg thread, clock reg thread ≤ ticked reg thread := by
    intro reg thread
    by_cases still : reg ≠ flow.own (flow.thread event) ∨ thread ≠ flow.thread event
    · exact Nat.le_of_eq (rests reg thread still).symm
    · simp only [not_or, not_not] at still
      obtain ⟨rfl, rfl⟩ := still
      exact grows
  have inside : ∀ {index earlier}, events[index]? = some earlier → index ≠ events.length :=
    fun found => Nat.ne_of_lt (List.getElem?_eq_some_iff.mp found).1
  refine ⟨fun {index earlier count} found stamp reg => ?_, fun {index count} stamp => ?_, bounded⟩
  · rcases getElem?_snoc.mp found with found | ⟨rfl, rfl⟩
    · -- an event of the trace: its time is covered as before, by what is taken over
      rw [stampsAfter, Function.update_of_ne (inside found)] at stamp
      have own := tracks.own_le found stamp
      have same : ∀ source, count ≤ ticked source (flow.thread earlier) ↔
          count ≤ clock source (flow.thread earlier) := by
        intro source
        by_cases still : source ≠ flow.own (flow.thread event) ∨
            flow.thread earlier ≠ flow.thread event
        · rw [rests source _ still]
        · simp only [not_or, not_not] at still
          obtain ⟨rfl, thread⟩ := still
          rw [← thread]
          exact ⟨fun _ => own, fun covered => Nat.le_trans covered (covers _ _)⟩
      rw [moves reg _ _ (tracks.positive stamp) (Nat.le_trans own (covers _ _)), past_snoc]
      constructor
      · rintro ⟨source, takes, covered⟩
        have covered := (same source).mp covered
        exact .inr ⟨source, takes, (tracks.known found stamp source).mp covered⟩
      · rintro (⟨_, rfl⟩ | ⟨source, takes, past⟩)
        · exact absurd rfl (inside found)
        · exact ⟨source, takes, (same source).mpr ((tracks.known found stamp source).mpr past)⟩
    · -- the new event: only its thread covers its time before anything is taken over
      rw [stampsAfter, Function.update_self] at stamp
      rw [moves reg _ _ (Nat.zero_lt_of_lt stamp.1) stamp.2, past_snoc]
      constructor
      · rintro ⟨source, takes, covered⟩
        by_cases isOwn : source = flow.own (flow.thread event)
        · exact .inl ⟨isOwn ▸ takes, rfl⟩
        · rw [rests source _ (.inl isOwn)] at covered
          have bound := tracks.bounded source (flow.thread event)
          omega
      · rintro (⟨takes, _⟩ | ⟨source, _, past⟩)
        · exact ⟨_, takes, stamp.2⟩
        · exact absurd past.lt (Nat.lt_irrefl _)
  · by_cases last : index = events.length
    · subst last
      rw [stampsAfter, Function.update_self] at stamp
      exact Nat.zero_lt_of_lt stamp.1
    · rw [stampsAfter, Function.update_of_ne last] at stamp
      exact tracks.positive stamp

/-- One step after which every register covers exactly what it takes over. -/
theorem Tracks.step_exact {stamps : Nat → Nat → Prop} {clock ticked clock' : Reg → Tid → Nat}
    (tracks : Tracks flow stamps events clock)
    (grows : clock (flow.own (flow.thread event)) (flow.thread event) ≤
      ticked (flow.own (flow.thread event)) (flow.thread event))
    (rests : ∀ reg thread, (reg ≠ flow.own (flow.thread event) ∨ thread ≠ flow.thread event) →
      ticked reg thread = clock reg thread)
    (moves : ∀ reg thread count, 0 < count →
      (count ≤ clock' reg thread ↔
        ∃ source, flow.takes event reg source ∧ count ≤ ticked source thread)) :
    Tracks flow (stampsAfter stamps events.length
      (clock (flow.own (flow.thread event)) (flow.thread event))
      (ticked (flow.own (flow.thread event)) (flow.thread event))) (events ++ [event]) clock' := by
  apply tracks.step grows rests fun reg thread count positive _ => moves reg thread count positive
  -- no register is ahead of a thread on its own time
  have ahead : ∀ source thread, ticked source thread ≤ ticked (flow.own thread) thread := by
    intro source thread
    have bound := tracks.bounded source thread
    by_cases own : flow.own thread = flow.own (flow.thread event) ∧ thread = flow.thread event
    · obtain ⟨_, rfl⟩ := own
      by_cases isOwn : source = flow.own (flow.thread event)
      · exact isOwn ▸ Nat.le_refl _
      · rw [rests source _ (.inl isOwn)]
        exact Nat.le_trans bound grows
    · have ownRests := rests (flow.own thread) thread (not_and_or.mp own)
      rw [ownRests]
      by_cases sourceOwn : source = flow.own (flow.thread event) ∧ thread = flow.thread event
      · exact absurd ⟨congrArg flow.own sourceOwn.2, sourceOwn.2⟩ own
      · rwa [rests source thread (not_and_or.mp sourceOwn)]
  intro reg thread
  rcases Nat.eq_zero_or_pos (clock' reg thread) with zero | positive
  · exact zero ▸ Nat.zero_le _
  · obtain ⟨source, _, covered⟩ := (moves reg thread _ positive).mp (Nat.le_refl _)
    apply (moves (flow.own thread) thread _ positive).mpr
    exact ⟨_, flow.keeps event thread, Nat.le_trans covered (ahead source thread)⟩

end LockFree.Causality
