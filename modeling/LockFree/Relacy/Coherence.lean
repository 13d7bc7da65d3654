import LockFree.Relacy.Clocks
import LockFree.Relacy.Ring

/-!
# What a load can see

A record remembers who has stored it and when each thread first saw it. In every
run, `get_load_index` lets a thread see an older record exactly if nothing it
knows of, no sequentially consistent store and no yield of its own stands against
it. Coherence and what sequentially consistent operations promise follow.
-/

namespace LockFree.Relacy

open Causality

variable {Tid Value : Type} [DecidableEq Tid]

/-- The event loads or stores the record of an index. -/
def Event.Touches (event : Event Tid Value) (x : Address) (k : Nat) : Prop :=
  event.Reads x k ∨ event.Writes x k

/-! ### The timestamps of a record -/

/-- The timestamps of the records are those of their stores and of the first event
of each thread that has seen them; `last_yield_` is that of the last yield. -/
structure Viewed (events : List (Event Tid Value)) (s : State Tid Value)
    (stamps : Nat → Nat → Prop) : Prop where
  stored : ∀ {i : Nat} {event : Event Tid Value} {x : Address} {k : Nat},
    events[i]? = some event → event.Writes x k →
      stamps i ((s.atomics x).history k).acqRelTimestamp
  first : ∀ {i : Nat} {event : Event Tid Value} {x : Address} {k : Nat},
    events[i]? = some event → event.Touches x k →
      ∃ seen, ((s.atomics x).history k).firstSeenOrder event.thread = some seen ∧
        ∃ j ≤ i, ∃ earlier : Event Tid Value, events[j]? = some earlier ∧
          earlier.thread = event.thread ∧ stamps j seen
  seen : ∀ {x : Address} {k : Nat} {u : Tid} {count : Nat},
    ((s.atomics x).history k).firstSeenOrder u = some count →
      ∃ j, ∃ event : Event Tid Value, events[j]? = some event ∧ event.thread = u ∧
        event.Touches x k ∧ stamps j count
  yielded : ∀ {i : Nat} {event : Event Tid Value} {count : Nat},
    events[i]? = some event → stamps i count →
      (count ≤ (s.threads event.thread).lastYield ↔
        ∃ y > i, events[y]? = some (.yielded event.thread))
  bounded : ∀ t, (s.threads t).lastYield ≤ (s.threads t).acqRelOrder t

/-- A thread that has seen a record has seen it first when it did. -/
theorem see_firstSeenOrder (record : Record Tid Value) (t u : Tid) (timestamp count : Nat) :
    (record.see t timestamp).firstSeenOrder u = some count ↔
      record.firstSeenOrder u = some count ∨
        record.firstSeenOrder t = none ∧ u = t ∧ timestamp = count := by
  unfold Record.see
  by_cases unseen : record.firstSeenOrder t = none
  · by_cases same : u = t
    · subst same
      simp [unseen]
    · simp [unseen, same]
  · simp [unseen]

section Step

variable [Fintype Tid] {s s' : State Tid Value} {event : Event Tid Value} {random : Bool}
  {events : List (Event Tid Value)} {stamps : Nat → Nat → Prop}

omit [DecidableEq Tid] [Fintype Tid] in
theorem threadSee_lastYield (th : ThreadInfo Tid) (order : MemoryOrder)
    (record : Record Tid Value) :
    (th.see order record).lastYield = th.lastYield := by
  unfold ThreadInfo.see
  split <;> rfl

/-- Only a yield changes `last_yield_`. -/
theorem Effect.sameYield (effect : Effect (whole random) s event s') {u : Tid}
    (other : event ≠ .yielded u) : (s'.threads u).lastYield = (s.threads u).lastYield := by
  by_cases stepped : u = event.thread
  · subst stepped
    cases effect with
    | yielded => exact absurd rfl other
    | load | store | rmw =>
        simp [atomicLoad, atomicStore, atomicRmw, State.noteFailure, Event.thread,
          threadSee_lastYield]
    | acquired | released | acqReled =>
        simp [syncAcquire, syncRelease, syncAcqRel, Event.thread]
    | acquireFence | releaseFence | acqRelFence | seqCstFence =>
        simp [ThreadInfo.fenceAcquire, ThreadInfo.fenceRelease, Event.thread]
    | varLoad | varStore => simp [Event.thread]
    | globalFence | racedLoad | racedStore | uninitialized => rfl
  · cases effect <;>
      simp_all [atomicLoad, atomicStore, atomicRmw, State.noteFailure, Event.thread, syncAcquire,
        syncRelease, syncAcqRel, Relacy.globalFence]

/-- A yield notes the time of its thread. -/
theorem Effect.yields {u : Tid} (effect : Effect (whole random) s (.yielded u) s') :
    (s'.threads u).lastYield = (s.threads u).acqRelOrder u ∧
      (s'.threads u).acqRelOrder u = (s.threads u).acqRelOrder u := by
  cases effect
  simp

/-- The time of no thread goes back. -/
theorem own_le_of_effect (effect : Effect (whole random) s event s') (recorded : Recorded events s)
    (tracks : Tracks flow stamps events s.clock) (u : Tid) :
    (s.threads u).acqRelOrder u ≤ (s'.threads u).acqRelOrder u := by
  rcases Nat.eq_zero_or_pos ((s.threads u).acqRelOrder u) with zero | positive
  · exact zero ▸ Nat.zero_le _
  by_cases apart : event.isGlobal = false
  · have moves : (s.threads u).acqRelOrder u ≤ s'.clock (.own u) u ↔ _ :=
      moves_of_effect effect apart tracks.bounded (fun x => recorded.owned) _
    refine moves.mpr ⟨.own u, takes_own event u, ?_⟩
    rw [State.ticked]
    split
    · exact Nat.le_add_right _ _
    · exact Nat.le_refl _
  · cases effect with
    | globalFence =>
        exact Finset.le_sup (f := fun t => (s.threads t).acqRelOrder t) (Finset.mem_univ u)
    | _ => simp [Event.isGlobal] at apart

omit [DecidableEq Tid] [Fintype Tid] in
/-- Loads and stores take time. -/
theorem ticks_of_touches {x : Address} {k : Nat} (touches : event.Touches x k) :
    0 < event.ticks := by
  cases event with
  | load | store | rmw => simp [Event.ticks]
  | _ => rcases touches with reads | writes <;> contradiction

/-- The records go on being dated by the trace. -/
theorem Viewed.step (viewed : Viewed events s stamps) (recorded : Recorded events s)
    (tracks : Tracks flow stamps events s.clock) (effect : Effect (whole random) s event s') :
    Viewed (events ++ [event]) s' (stampsAfter stamps events.length
      (s.clock (.own event.thread) event.thread)
      (s.clock (.own event.thread) event.thread + event.ticks)) := by
  have older : ∀ {j : Nat} {earlier : Event Tid Value} {count : Nat}, events[j]? = some earlier →
      stamps j count → stampsAfter stamps events.length (s.clock (.own event.thread) event.thread)
        (s.clock (.own event.thread) event.thread + event.ticks) j count := by
    intro j earlier count found stamp
    have inside := (List.getElem?_eq_some_iff.mp found).1
    rwa [stampsAfter, Function.update_of_ne (Nat.ne_of_lt inside)]
  have newer : ∀ {count : Nat}, (s.threads event.thread).acqRelOrder event.thread < count →
      count ≤ (s.threads event.thread).acqRelOrder event.thread + event.ticks →
      stampsAfter stamps events.length (s.clock (.own event.thread) event.thread)
        (s.clock (.own event.thread) event.thread + event.ticks) events.length count := by
    intro count above below
    rw [stampsAfter, Function.update_self]
    exact ⟨above, below⟩
  have newest : (events ++ [event])[events.length]? = some event :=
    getElem?_snoc.mpr (.inr ⟨rfl, rfl⟩)
  -- a record of the trace is not stored again
  have fresh : ∀ {i : Nat} {earlier : Event Tid Value} {x : Address} {k : Nat},
      events[i]? = some earlier → earlier.Touches x k → ¬ event.Writes x k := by
    intro i earlier x k found touches writes
    have isNext := (effect.stores writes).1
    rcases touches with reads | wrote
    · obtain ⟨_, _, store, foundStore, wrote⟩ := recorded.ordered.loads found reads
      have below := (recorded.writer foundStore wrote).2.1
      omega
    · have below := (recorded.writer found wrote).2.1
      omega
  refine ⟨fun {i earlier x k} found writes => ?_, fun {i earlier x k} found touches => ?_,
    fun {x k u count} isSeen => ?_, fun {i earlier count} found stamp => ?_, fun t => ?_⟩
  · rcases getElem?_snoc.mp found with old | ⟨rfl, rfl⟩
    · rw [(effect.sameRecord (fresh old (.inr writes))).2.2.2.1]
      exact older old (viewed.stored old writes)
    · obtain ⟨_, _, _, _, timestamp, isOf, isTime⟩ := effect.stores writes
      have time := isTime fun k t => tracks.bounded (.record x k) t
      rw [isOf.acqRelTimestamp, time]
      have ticks := ticks_of_touches (.inr writes)
      exact newer (by omega) (Nat.le_refl _)
  · rcases getElem?_snoc.mp found with old | ⟨rfl, rfl⟩
    · obtain ⟨seen, isSeen, j, before, first, foundFirst, thread, stamp⟩ := viewed.first old touches
      refine ⟨seen, ?_, j, before, first, getElem?_snoc.mpr (.inl foundFirst), thread,
        older foundFirst stamp⟩
      rcases effect.keeps (fresh old touches) with ⟨_, same⟩ | ⟨_, sees⟩
      · rw [same, isSeen]
      · rw [sees, see_firstSeenOrder]
        exact .inl isSeen
    · have ticks := ticks_of_touches touches
      by_cases writes : event.Writes x k
      · obtain ⟨_, _, _, _, timestamp, isOf, isTime⟩ := effect.stores writes
        have time := isTime fun k t => tracks.bounded (.record x k) t
        refine ⟨timestamp, by simp [isOf.firstSeenOrder], _, Nat.le_refl _, event, newest, rfl, ?_⟩
        rw [time]
        exact newer (by omega) (Nat.le_refl _)
      · rcases effect.keeps writes with ⟨notReads, _⟩ | ⟨_, sees⟩
        · exact absurd touches (not_or.mpr ⟨notReads, writes⟩)
        · cases seen : ((s.atomics x).history k).firstSeenOrder event.thread with
          | none =>
              refine ⟨(s.threads event.thread).acqRelOrder event.thread + 1, ?_, _, Nat.le_refl _,
                event, newest, rfl, newer (by omega) (by omega)⟩
              rw [sees, see_firstSeenOrder]
              exact .inr ⟨seen, rfl, rfl⟩
          | some count =>
              obtain ⟨j, first, foundFirst, thread, _, stamp⟩ := viewed.seen seen
              refine ⟨count, ?_, j, Nat.le_of_lt (List.getElem?_eq_some_iff.mp foundFirst).1, first,
                getElem?_snoc.mpr (.inl foundFirst), thread, older foundFirst stamp⟩
              rw [sees, see_firstSeenOrder]
              exact .inl seen
  · have fromOld : ((s.atomics x).history k).firstSeenOrder u = some count →
        ∃ j, ∃ earlier : Event Tid Value, (events ++ [event])[j]? = some earlier ∧
          earlier.thread = u ∧ earlier.Touches x k ∧ stampsAfter stamps events.length
            (s.clock (.own event.thread) event.thread)
            (s.clock (.own event.thread) event.thread + event.ticks) j count := by
      intro seen
      obtain ⟨j, first, foundFirst, thread, touches, stamp⟩ := viewed.seen seen
      exact ⟨j, first, getElem?_snoc.mpr (.inl foundFirst), thread, touches, older foundFirst stamp⟩
    by_cases writes : event.Writes x k
    · obtain ⟨_, _, _, _, timestamp, isOf, isTime⟩ := effect.stores writes
      have time := isTime fun k t => tracks.bounded (.record x k) t
      have ticks := ticks_of_touches (.inr writes)
      rw [isOf.firstSeenOrder, Function.update_apply] at isSeen
      split at isSeen
      · rename_i thread
        cases isSeen
        refine ⟨_, event, newest, thread.symm, .inr writes, ?_⟩
        rw [time]
        exact newer (by omega) (Nat.le_refl _)
      · cases isSeen
    · rcases effect.keeps writes with ⟨_, same⟩ | ⟨reads, sees⟩
      · rw [same] at isSeen
        exact fromOld isSeen
      · rw [sees, see_firstSeenOrder] at isSeen
        rcases isSeen with seen | ⟨_, rfl, rfl⟩
        · exact fromOld seen
        · have ticks := ticks_of_touches (.inl reads)
          exact ⟨_, event, newest, rfl, .inl reads, newer (by omega) (by omega)⟩
  · have bound := viewed.bounded earlier.thread
    rcases getElem?_snoc.mp found with old | ⟨rfl, rfl⟩
    · have inside := (List.getElem?_eq_some_iff.mp old).1
      rw [stampsAfter, Function.update_of_ne (Nat.ne_of_lt inside)] at stamp
      by_cases yields : event = .yielded earlier.thread
      · subst yields
        rw [effect.yields.1]
        exact iff_of_true (tracks.own_le old stamp) ⟨_, inside, newest⟩
      · rw [effect.sameYield yields, viewed.yielded old stamp]
        constructor
        · rintro ⟨y, after, foundYield⟩
          exact ⟨y, after, getElem?_snoc.mpr (.inl foundYield)⟩
        · rintro ⟨y, after, foundYield⟩
          rcases getElem?_snoc.mp foundYield with oldYield | ⟨_, isYield⟩
          · exact ⟨y, after, oldYield⟩
          · exact absurd isYield yields
    · rw [stampsAfter, Function.update_self] at stamp
      have notYield : event ≠ .yielded event.thread := by
        intro isYield
        rw [isYield] at stamp
        exact absurd stamp.1 (Nat.not_lt.mpr stamp.2)
      rw [effect.sameYield notYield]
      apply iff_of_false
      · exact Nat.not_le.mpr (Nat.lt_of_le_of_lt bound stamp.1)
      · rintro ⟨y, after, foundYield⟩
        have inside := (List.getElem?_eq_some_iff.mp foundYield).1
        rw [List.length_append, List.length_singleton] at inside
        omega
  · by_cases yields : event = .yielded t
    · subst yields
      rw [effect.yields.1, effect.yields.2]
    · rw [effect.sameYield yields]
      exact Nat.le_trans (viewed.bounded t) (own_le_of_effect effect recorded tracks t)

end Step

/-! ### What a thread knows of -/

/-- An event happens before all that a thread does from now on. -/
def Knows (events : List (Event Tid Value)) (t : Tid) (i : Nat) : Prop :=
  ∃ (j : Nat) (event : Event Tid Value), events[j]? = some event ∧
    (event.thread = t ∨ event.isGlobal = true) ∧ (i = j ∨ HappensBefore events i j)

/-- The clock of a thread stands for what the thread knows of. -/
theorem Ordered.past_own_iff {events : List (Event Tid Value)} (ordered : Ordered events) {t : Tid}
    {i : Nat} : Past flow events (.own t) i ↔ Knows events t i := by
  constructor
  · intro past
    rw [← List.take_length (l := events)] at past
    obtain ⟨j, _, event, found, whose, path⟩ := ordered.justified (Nat.le_refl _) past
    refine ⟨j, event, found, whose, ?_⟩
    exact (Relation.reflTransGen_iff_eq_or_transGen.mp path).imp Eq.symm id
  · rintro ⟨j, event, found, whose, reaches⟩
    have inside := (List.getElem?_eq_some_iff.mp found).1
    have known := (ordered.past_iff_happensBefore found).mpr reaches
    suffices own : Past flow (events.take (j + 1)) (.own t) i by
      have later := own.own_later (Nat.succ_le_of_lt inside)
      rwa [List.take_length] at later
    rcases whose with rfl | isGlobal
    · exact known
    · have tells := takes_of_isGlobal isGlobal t event.thread
      rw [past_take_succ found] at known ⊢
      rcases known with ⟨_, last⟩ | ⟨source, takes, past⟩
      · exact .inl ⟨tells, last⟩
      · exact .inr ⟨source, takes_closed tells takes, past⟩

/-! ### What a load can see -/

/-- A load of a thread may pass the record of an index: the thread knows of no
event that has stored or loaded it, it was not stored sequentially consistently if
the load is so, and the thread has not yielded since it has seen the one before. -/
structure Passes (events : List (Event Tid Value)) (t : Tid) (order : MemoryOrder) (x : Address)
    (index : Nat) : Prop where
  unknown : ∀ (i : Nat) (event : Event Tid Value), events[i]? = some event →
    event.Touches x index → ¬ Knows events t i
  notSeqCst : order = .seqCst → ∀ (i : Nat) (event : Event Tid Value), events[i]? = some event →
    event.Writes x index → event.seqCstStore = false
  notYielded : ∀ (i : Nat) (event : Event Tid Value), events[i]? = some event →
    event.Touches x (index - 1) → event.thread = t → ¬ ∃ y > i, events[y]? = some (.yielded t)

section Run

variable [Fintype Tid] [DecidableEq Value] [Inhabited Value] {random : Bool}
  {events : List (Event Tid Value)} {s : State Tid Value} {stamps : Nat → Nat → Prop}
  {t : Tid} {x : Address} {k : Nat} {order : MemoryOrder}

/-- The records of a run are dated by its trace. -/
theorem Stamped.viewed (stamped : Stamped random events s stamps) : Viewed events s stamps := by
  induction stamped with
  | start =>
      refine ⟨fun found => by simp at found, fun found => by simp at found,
        fun seen => by simp [initial] at seen, fun found => by simp at found, fun t => ?_⟩
      simp [initial]
  | step prior transition inductionHypothesis =>
      exact inductionHypothesis.step prior.recorded prior.tracks (effect_of_step transition).2

omit [DecidableEq Tid] [Fintype Tid] [DecidableEq Value] [Inhabited Value] in
/-- A record that is stored or loaded in the trace is in use. -/
theorem Recorded.busy_of_touches (recorded : Recorded events s) {i : Nat} {event : Event Tid Value}
    (found : events[i]? = some event) (touches : event.Touches x k) :
    ((s.atomics x).history k).busy = true := by
  rcases touches with reads | writes
  · obtain ⟨_, _, store, foundStore, wrote⟩ := recorded.ordered.loads found reads
    obtain ⟨positive, below, _⟩ := recorded.writer foundStore wrote
    exact (recorded.busy x k).mpr ⟨positive, below⟩
  · obtain ⟨positive, below, _⟩ := recorded.writer found writes
    exact (recorded.busy x k).mpr ⟨positive, below⟩

/-- The clock of a thread covers a record exactly if the thread knows of an event
that has stored or loaded it. -/
theorem Stamped.covered_iff (stamped : Stamped random events s stamps)
    (busy : ((s.atomics x).history k).busy = true) :
    ((s.atomics x).history k).covered (s.threads t).acqRelOrder = true ↔
      ∃ (i : Nat) (event : Event Tid Value), events[i]? = some event ∧ event.Touches x k ∧
        Past flow events (.own t) i := by
  have viewed := stamped.viewed
  simp only [Record.covered, Bool.or_eq_true, Option.any_eq_true, decide_eq_true_eq]
  constructor
  · rintro (⟨u, threadId, covers⟩ | ⟨u, count, isSeen, covers⟩)
    · obtain ⟨positive, below⟩ := (stamped.recorded.busy x k).mp busy
      obtain ⟨i, store, found, writes⟩ := stamped.recorded.stored positive below
      have thread := (stamped.recorded.writer found writes).2.2.1
      obtain rfl : u = store.thread := Option.some.inj (threadId.symm.trans thread)
      exact ⟨i, store, found, .inr writes,
        (stamped.tracks.known found (viewed.stored found writes) (.own t)).mp covers⟩
    · obtain ⟨i, event, found, rfl, touches, stamp⟩ := viewed.seen isSeen
      exact ⟨i, event, found, touches, (stamped.tracks.known found stamp (.own t)).mp covers⟩
  · rintro ⟨i, event, found, touches, past⟩
    obtain ⟨count, isSeen, j, before, first, foundFirst, thread, stamp⟩ :=
      viewed.first found touches
    refine .inr ⟨event.thread, count, isSeen, ?_⟩
    rw [← thread]
    apply (stamped.tracks.known foundFirst stamp (.own t)).mpr
    -- the thread has seen the record first at or before this event
    have own : Past flow (events.take (i + 1)) (.own event.thread) j :=
      thread ▸ (past_take_own foundFirst).own_later (Nat.succ_le_succ before)
    rw [← List.take_length (l := events)] at past ⊢
    exact past.take_trans found own

/-- What the search passes, told by the trace. -/
theorem Stamped.passable_iff (stamped : Stamped random events s stamps)
    (busy : ((s.atomics x).history k).busy = true) :
    Passable (whole random) (s.atomics x) (s.threads t) t order k ↔ Passes events t order x k := by
  have viewed := stamped.viewed
  have recorded := stamped.recorded
  have covered := stamped.covered_iff (t := t) busy
  have knows := fun i => recorded.ordered.past_own_iff (t := t) (i := i)
  have yielded : (((s.atomics x).history (k - 1)).busy = true ∧
      (((s.atomics x).history (k - 1)).firstSeenOrder t).any (· ≤ (s.threads t).lastYield) =
        true) ↔ ∃ (i : Nat) (event : Event Tid Value), events[i]? = some event ∧
          event.Touches x (k - 1) ∧ event.thread = t ∧ ∃ y > i, events[y]? = some (.yielded t) := by
    simp only [Option.any_eq_true, decide_eq_true_eq]
    constructor
    · rintro ⟨_, count, isSeen, noted⟩
      obtain ⟨i, event, found, rfl, touches, stamp⟩ := viewed.seen isSeen
      exact ⟨i, event, found, touches, rfl, (viewed.yielded found stamp).mp noted⟩
    · rintro ⟨i, event, found, touches, rfl, y, after, foundYield⟩
      obtain ⟨count, isSeen, j, before, first, foundFirst, thread, stamp⟩ :=
        viewed.first found touches
      refine ⟨recorded.busy_of_touches found touches, count, isSeen, ?_⟩
      rw [← thread] at foundYield ⊢
      exact (viewed.yielded foundFirst stamp).mpr ⟨y, Nat.lt_of_le_of_lt before after, foundYield⟩
  constructor
  · intro passable
    refine ⟨fun i event found touches known => ?_, fun isSeqCst i event found writes => ?_,
      fun i event found touches thread later => ?_⟩
    · have past := (knows i).mpr known
      have covers := covered.mpr ⟨i, event, found, touches, past⟩
      rw [show ((s.atomics x).history k).covered (s.threads t).acqRelOrder = false from
        passable.uncovered] at covers
      cases covers
    · have stored := (recorded.writer found writes).2.2.2.1
      have notBoth := passable.seqCst
      by_contra isStore
      apply notBoth
      refine ⟨isSeqCst, ?_⟩
      exact stored.trans (Bool.eq_true_of_not_eq_false isStore)
    · exact passable.previous (yielded.mpr ⟨i, event, found, touches, thread, later⟩)
  · intro passes
    refine ⟨busy, fun earlier => ?_, fun both => ?_, Bool.eq_false_of_not_eq_true fun covers => ?_⟩
    · obtain ⟨i, event, found, touches, thread, later⟩ := yielded.mp earlier
      exact passes.notYielded i event found touches thread later
    · obtain ⟨positive, below⟩ := (recorded.busy x k).mp busy
      obtain ⟨i, store, found, writes⟩ := recorded.stored positive below
      have stored := (recorded.writer found writes).2.2.2.1
      have isStore : ((s.atomics x).history k).seqCst = true := both.2
      rw [stored, passes.notSeqCst both.1 i store found writes] at isStore
      cases isStore
    · obtain ⟨i, event, found, touches, past⟩ := covered.mp covers
      exact passes.unknown i event found touches ((knows i).mp past)

omit [Inhabited Value] in
/-- A load step, for some answers of the scheduler. -/
theorem load_step_iff {setting : Setting} {asked : MemoryOrder} {v : Value}
    (running : s.failed = false) (known : asked.load? = some order) :
    (∃ stop spurious s', step? setting s ⟨t, .load x asked, stop, spurious⟩ =
        some (.load t x order k v, s')) ↔
      (∃ stop, getLoadIndex setting (s.atomics x) (s.threads t) t order false stop = some k) ∧
        ((s.atomics x).history (setting.slot k)).value = v := by
  simp only [step?, running, perform, known, Option.map_some, loadImpl, Bool.false_eq_true,
    if_false]
  constructor
  · rintro ⟨stop, _, s', result⟩
    cases found : getLoadIndex setting (s.atomics x) (s.threads t) t order false stop with
    | none =>
        rw [found] at result
        simp [fail] at result
    | some index =>
        rw [found] at result
        simp only [Option.some.injEq, Prod.mk.injEq, Event.load.injEq, true_and] at result
        obtain ⟨⟨rfl, rfl⟩, _⟩ := result
        exact ⟨⟨stop, found⟩, rfl⟩
  · rintro ⟨⟨stop, found⟩, rfl⟩
    exact ⟨stop, false, _, by rw [found]⟩

/-- What a load can return next, after any run of the source: the value of a store
in reach all newer ones of which the load may pass. -/
theorem load_returns_iff (run : (machine (source random)).Steps initial events s)
    {asked : MemoryOrder} {v : Value} (running : s.failed = false)
    (known : asked.load? = some order) :
    (∃ stop spurious s', step? (source random) s ⟨t, .load x asked, stop, spurious⟩ =
        some (.load t x order k v, s')) ↔
      (∃ (i : Nat) (store : Event Tid Value), events[i]? = some store ∧ store.Writes x k ∧
        store.value? = some v) ∧
      ∀ (l j : Nat) (newer : Event Tid Value), k < l → events[j]? = some newer →
        newer.Writes x l → l ≤ k + (source random).reach ∧ Passes events t order x l := by
  obtain ⟨s', run', window⟩ := whole_of_source run
  obtain ⟨stamps, stamped⟩ := exists_stamped run'
  have recorded := stamped.recorded
  have sameIndex : ∀ stop, getLoadIndex (source random) (s.atomics x) (s.threads t) t order false
      stop = getLoadIndex (whole random) (s'.atomics x) (s'.threads t) t order false stop := by
    intro stop
    rw [window.threads]
    exact getLoadIndex_window (window.atomics x)
  rw [load_step_iff running known]
  simp only [sameIndex, getLoadIndex_iff]
  have short : (whole random).reach < atomicHistorySize := by
    simp only [Setting.reach, atomicHistorySize]
    split <;> omega
  have reach : (source random).reach = (whole random).reach := rfl
  constructor
  · rintro ⟨⟨below, near, busy, passable⟩, rfl⟩
    obtain ⟨positive, _⟩ := (recorded.busy x k).mp busy
    obtain ⟨i, store, found, writes⟩ := recorded.stored positive below
    have here := (window.atomics x).history k below (by omega)
    refine ⟨⟨i, store, found, writes, ?_⟩, fun l j newer above foundNewer writesNewer => ?_⟩
    · rw [show (source random).slot k = ring k from rfl, here]
      exact (recorded.writer found writes).2.2.2.2
    · have inside := (recorded.writer foundNewer writesNewer).2.1
      have busyNewer := recorded.busy_of_touches foundNewer (.inr writesNewer)
      exact ⟨by omega, (stamped.passable_iff busyNewer).mp (passable l above inside)⟩
  · rintro ⟨⟨i, store, found, writes, value⟩, newest⟩
    obtain ⟨positive, below, _, _, isValue⟩ := recorded.writer found writes
    have near : (s'.atomics x).currentIndex ≤ k + (whole random).reach := by
      rcases Nat.lt_or_ge k (s'.atomics x).currentIndex with older | last
      · obtain ⟨j, newer, foundNewer, writesNewer⟩ :=
          recorded.stored (Nat.lt_of_lt_of_le positive below) (Nat.le_refl _)
        exact (newest _ j newer older foundNewer writesNewer).1
      · omega
    refine ⟨⟨below, near, recorded.busy_of_touches found (.inr writes), fun l above inside => ?_⟩,
      ?_⟩
    · obtain ⟨j, newer, foundNewer, writesNewer⟩ :=
        recorded.stored (Nat.lt_trans positive above) inside
      have passes := (newest l j newer above foundNewer writesNewer).2
      exact (stamped.passable_iff (recorded.busy_of_touches foundNewer (.inr writesNewer))).mpr
        passes
    · rw [show (source random).slot k = ring k from rfl,
        (window.atomics x).history k below (by omega)]
      exact Option.some.inj (isValue.symm.trans value)

/-- A thread stores twice, another one loads the first value. -/
theorem load_returns_iff_older : ∃ (events : List (Event Bool Nat)) (s : State Bool Nat),
    (machine (source false)).Steps initial events s ∧
      (∃ (i : Nat) (store : Event Bool Nat), events[i]? = some store ∧ store.Writes 0 1 ∧
        store.value? = some 7) ∧
      ∀ (l j : Nat) (newer : Event Bool Nat), 1 < l → events[j]? = some newer →
        newer.Writes 0 l → l ≤ 1 + (source false).reach ∧ Passes events true .relaxed 0 l := by
  have ran : ∃ (events : List (Event Bool Nat)) (s : State Bool Nat),
      (machine (source false)).Steps initial events s ∧ s.failed = false ∧
        (step? (source false) s ⟨true, .load 0 .relaxed, fun _ => false, false⟩).map (·.1) =
          some (.load true 0 .relaxed 1 7) :=
    System.exists_steps [⟨false, .store 0 7 .release, fun _ => false, false⟩,
      ⟨false, .store 0 8 .release, fun _ => false, false⟩] (by decide +kernel)
  obtain ⟨events, s, run, running, loaded⟩ := ran
  obtain ⟨⟨_, s'⟩, stepped, rfl⟩ := Option.map_eq_some_iff.mp loaded
  exact ⟨events, s, run, (load_returns_iff run running rfl).mp ⟨_, _, s', stepped⟩⟩

/-! ### Coherence -/

variable {i j l : Nat} {first second : Event Tid Value}

/-- A load passes nothing that its thread knows of, no sequentially consistent
store if it is one itself, and nothing newer than what its thread has seen before
a yield. A read-modify-write passes nothing at all. -/
theorem passes_of_reads (run : (machine (whole random)).Steps initial events s)
    (found : events[j]? = some second) (reads : second.Reads x l) (newer : l < k) (before : i < j)
    (foundFirst : events[i]? = some first) (writes : first.Writes x k) :
    ∃ order index value, second = .load second.thread x order index value ∧
      Passes (events.take j) second.thread order x k := by
  obtain ⟨state, after, stamps, stamped, effect⟩ := exists_stamped_at run found
  have foundBefore := (List.getElem?_take_of_lt before).trans foundFirst
  have below := (stamped.recorded.writer foundBefore writes).2.1
  cases effect with
  | load failed inside near busy passable =>
      obtain ⟨rfl, rfl⟩ := reads
      have busyNewer := stamped.recorded.busy_of_touches foundBefore (.inr writes)
      exact ⟨_, _, _, rfl, (stamped.passable_iff busyNewer).mp (passable k newer below)⟩
  | rmw =>
      obtain ⟨rfl, rfl⟩ := reads
      exact absurd below (Nat.not_le.mpr newer)
  | _ => exact reads.elim

omit [DecidableEq Tid] [Fintype Tid] [DecidableEq Value] [Inhabited Value] in
/-- A load is told apart by the record it loads. -/
theorem reads_unique {event : Event Tid Value} {x y : Address} {k l : Nat}
    (first : event.Reads x k) (second : event.Reads y l) : x = y ∧ k = l := by
  cases event with
  | load | rmw =>
      obtain ⟨rfl, rfl⟩ := first
      exact second
  | _ => exact first.elim

/-- Coherence, as long as no store is forgotten. -/
theorem coherent_of_whole (run : (machine (whole random)).Steps initial events s)
    (found : events[i]? = some first) (touches : first.Touches x k)
    (foundSecond : events[j]? = some second) (touchesSecond : second.Touches x l)
    (happensBefore : HappensBefore events i j) : k ≤ l ∧ (second.Writes x l → k < l) := by
  obtain ⟨_, stampedAll⟩ := exists_stamped run
  have ordered := stampedAll.recorded.ordered
  have before := ordered.lt_of_happensBefore happensBefore
  -- the store of the record of the first event
  obtain ⟨p, store, foundStore, writes, earlier⟩ : ∃ (p : Nat) (store : Event Tid Value),
      events[p]? = some store ∧ store.Writes x k ∧ p ≤ i := by
    rcases touches with reads | writes
    · obtain ⟨p, earlier, store, foundStore, writes⟩ := ordered.loads found reads
      exact ⟨p, store, foundStore, writes, Nat.le_of_lt earlier⟩
    · exact ⟨i, first, found, writes, Nat.le_refl _⟩
  have stores : second.Writes x l → k < l := fun writesSecond =>
    (ordered.stores foundStore writes foundSecond writesSecond).mp (by omega)
  refine ⟨?_, stores⟩
  rcases touchesSecond with reads | writesSecond
  · by_contra older
    have newer : l < k := Nat.not_le.mp older
    obtain ⟨order, index, value, isLoad, passes⟩ :=
      passes_of_reads run foundSecond reads newer (by omega) foundStore writes
    have foundBefore := (List.getElem?_take_of_lt before).trans found
    apply passes.unknown i first foundBefore touches
    -- the thread has not learned of the first event from the record it loads
    obtain ⟨_, _, stamps, stamped, _⟩ := exists_stamped_at run foundSecond
    apply stamped.recorded.ordered.past_own_iff.mp
    have after := (ordered.past_iff_happensBefore foundSecond).mpr (.inr happensBefore)
    rcases (past_take_succ foundSecond).mp after with ⟨_, same⟩ | ⟨source, takes, past⟩
    · omega
    · have whatEvent := takes_own_iff.mp takes
      cases source with
      | own t =>
          rcases whatEvent with rfl | isGlobal
          · exact past
          · rw [isLoad] at isGlobal
            simp [Event.isGlobal] at isGlobal
      | record y m =>
          obtain ⟨rfl, rfl⟩ := reads_unique whatEvent.1 reads
          obtain ⟨q, beforeToo, loaded, foundLoaded, writesLoaded⟩ :=
            ordered.loads foundSecond reads
          have inside := (List.getElem?_eq_some_iff.mp foundSecond).1
          have late := ordered.le_of_past_record (Nat.le_of_lt inside) past foundLoaded writesLoaded
          have order := ordered.stores foundLoaded writesLoaded foundStore writes
          omega
      | acquireFence | releaseFence | sync | seqCst =>
          rw [isLoad] at whatEvent
          simp [Event.acquireFence, Event.Locks, Event.seqCstFence] at whatEvent
  · exact Nat.le_of_lt (stores writesSecond)

/-- Coherence: of two events on an atomic that are ordered, the later one is on the
same or on a newer record, and on a newer one if it stores. -/
theorem coherent (run : (machine (source random)).Steps initial events s)
    (found : events[i]? = some first) (touches : first.Touches x k)
    (foundSecond : events[j]? = some second) (touchesSecond : second.Touches x l)
    (happensBefore : HappensBefore events i j) : k ≤ l ∧ (second.Writes x l → k < l) := by
  obtain ⟨_, run', _⟩ := whole_of_source run
  exact coherent_of_whole run' found touches foundSecond touchesSecond happensBefore

/-- A message: what is loaded after the flag is no older than the store before it. -/
theorem coherent_message : ∃ (events : List (Event Bool Nat)) (s : State Bool Nat) (k l : Nat),
    (machine (source false)).Steps initial events s ∧ HappensBefore events 1 4 ∧
      events[1]? = some (.store false 0 .relaxed k (some false) 8) ∧
      events[4]? = some (.load true 0 .relaxed l 8) ∧ k ≤ l := by
  have ran : ∃ (events : List (Event Bool Nat)) (s : State Bool Nat),
      (machine (source false)).Steps initial events s ∧
        events = [.store false 0 .relaxed 1 none 7, .store false 0 .relaxed 2 (some false) 8,
          .store false 1 .release 1 none 1, .load true 1 .acquire 1 1,
          .load true 0 .relaxed 2 8] :=
    System.exists_steps [⟨false, .store 0 7 .relaxed, fun _ => false, false⟩,
      ⟨false, .store 0 8 .relaxed, fun _ => false, false⟩,
      ⟨false, .store 1 1 .release, fun _ => false, false⟩,
      ⟨true, .load 1 .acquire, fun _ => true, false⟩,
      ⟨true, .load 0 .relaxed, fun _ => false, false⟩] (by decide +kernel)
  obtain ⟨events, s, run, shown⟩ := ran
  have data : events[1]? = some (.store false 0 .relaxed 2 (some false) 8) := by simp [shown]
  have flag : events[2]? = some (.store false 1 .release 1 none 1) := by simp [shown]
  have seen : events[3]? = some (.load true 1 .acquire 1 1) := by simp [shown]
  have loaded : events[4]? = some (.load true 0 .relaxed 2 8) := by simp [shown]
  have path : HappensBefore events 1 4 :=
    ((Relation.TransGen.single (.sequenced (by decide) data flag rfl)).tail
      (.synchronized (.store flag ⟨rfl, rfl⟩ rfl) (.load seen ⟨rfl, rfl⟩ rfl))).tail
      (.sequenced (by decide) seen loaded rfl)
  have sees := coherent run data (.inr ⟨rfl, rfl⟩) loaded (.inl ⟨rfl, rfl⟩) path
  exact ⟨events, s, 2, 2, run, path, data, loaded, sees.1⟩

/-- A sequentially consistent load sees nothing older than any sequentially
consistent store before it. -/
theorem seqCst_load_newest (run : (machine (source random)).Steps initial events s)
    (found : events[i]? = some first) (writes : first.Writes x k)
    (isSeqCst : first.seqCstStore = true) {value : Value}
    (foundSecond : events[j]? = some (.load t x .seqCst l value)) (before : i < j) : k ≤ l := by
  obtain ⟨s', run', _⟩ := whole_of_source run
  by_contra older
  obtain ⟨order, index, shown, isLoad, passes⟩ :=
    passes_of_reads run' foundSecond ⟨rfl, rfl⟩ (Nat.not_le.mp older) before found writes
  have foundBefore := (List.getElem?_take_of_lt before).trans found
  have isOrder : order = .seqCst := by
    cases isLoad
    rfl
  have none := passes.notSeqCst isOrder i first foundBefore writes
  rw [isSeqCst] at none
  cases none

/-- After a yield a thread does not go on seeing what it has seen: its loads see a
newer record, if there is any. -/
theorem yield_sees_newer (run : (machine (source random)).Steps initial events s)
    (found : events[i]? = some first) (touches : first.Touches x k) {y : Nat} (yields : i < y)
    (foundYield : events[y]? = some (.yielded first.thread)) (later : y < j)
    (foundSecond : events[j]? = some second) (thread : second.thread = first.thread)
    (reads : second.Reads x l) {p m : Nat} {store : Event Tid Value} (before : p < j)
    (foundStore : events[p]? = some store) (writes : store.Writes x m) (newer : k < m) : k < l := by
  obtain ⟨s', run', _⟩ := whole_of_source run
  obtain ⟨_, stampedAll⟩ := exists_stamped run'
  have ordered := stampedAll.recorded.ordered
  -- the thread has not forgotten what it has seen
  have notOlder : k ≤ l := by
    have path : HappensBefore events i j :=
      .single (.sequenced (by omega) found foundSecond thread.symm)
    exact (coherent_of_whole run' found touches foundSecond (.inl reads) path).1
  rcases Nat.lt_or_eq_of_le notOlder with done | same
  · exact done
  · subst same
    -- the record after it is there
    obtain ⟨state, _, stamps, stamped, _⟩ := exists_stamped_at run' foundSecond
    have storeBefore := (List.getElem?_take_of_lt before).trans foundStore
    have below := (stamped.recorded.writer storeBefore writes).2.1
    obtain ⟨q, next, foundNext, writesNext⟩ : ∃ (q : Nat) (next : Event Tid Value),
        (events.take j)[q]? = some next ∧ next.Writes x (k + 1) :=
      stamped.recorded.stored (Nat.succ_pos k) (Nat.le_trans newer below)
    have inside := (List.getElem?_eq_some_iff.mp foundNext).1
    rw [List.length_take] at inside
    have nextBefore : q < j := by omega
    have nextFound := (List.getElem?_take_of_lt nextBefore).symm.trans foundNext
    obtain ⟨order, index, shown, isLoad, passes⟩ :=
      passes_of_reads run' foundSecond reads (Nat.lt_succ_self k) nextBefore nextFound writesNext
    have foundBefore := (List.getElem?_take_of_lt (show i < j by omega)).trans found
    have yieldBefore := (List.getElem?_take_of_lt later).trans foundYield
    rw [← thread] at yieldBefore
    exact absurd ⟨y, yields, yieldBefore⟩
      (passes.notYielded i first foundBefore touches thread.symm)

/-- A thread sees the first of two stores, yields, and sees the second one. -/
theorem yield_sees_newer_second :
    ∃ (events : List (Event Bool Nat)) (s : State Bool Nat) (k l : Nat),
    (machine (source false)).Steps initial events s ∧
      events[2]? = some (.load true 0 .relaxed k 7) ∧ events[3]? = some (.yielded true) ∧
      events[4]? = some (.load true 0 .relaxed l 8) ∧ k < l := by
  have ran : ∃ (events : List (Event Bool Nat)) (s : State Bool Nat),
      (machine (source false)).Steps initial events s ∧
        events = [.store false 0 .relaxed 1 none 7, .store false 0 .relaxed 2 (some false) 8,
          .load true 0 .relaxed 1 7, .yielded true, .load true 0 .relaxed 2 8] :=
    System.exists_steps [⟨false, .store 0 7 .relaxed, fun _ => false, false⟩,
      ⟨false, .store 0 8 .relaxed, fun _ => false, false⟩,
      ⟨true, .load 0 .relaxed, fun _ => false, false⟩,
      ⟨true, .yield, fun _ => false, false⟩,
      ⟨true, .load 0 .relaxed, fun _ => false, false⟩] (by decide +kernel)
  obtain ⟨events, s, run, shown⟩ := ran
  have found : events[2]? = some (.load true 0 .relaxed 1 7) := by simp [shown]
  have foundYield : events[3]? = some (.yielded true) := by simp [shown]
  have foundSecond : events[4]? = some (.load true 0 .relaxed 2 8) := by simp [shown]
  have foundStore : events[1]? = some (.store false 0 .relaxed 2 (some false) 8) := by simp [shown]
  exact ⟨events, s, 1, 2, run, found, foundYield, foundSecond,
    yield_sees_newer run found (.inl ⟨rfl, rfl⟩) (by decide) foundYield (by decide) foundSecond rfl
      ⟨rfl, rfl⟩ (by decide) foundStore ⟨rfl, rfl⟩ (by decide)⟩

end Run

/-! ### Sequential consistency -/

/-- A thread stores a record, then comes a sequentially consistent fence of it, then
it loads a record. -/
structure StoreFenceLoad (events : List (Event Tid Value)) (x : Address) (stored : Nat)
    (y : Address) (loaded fence : Nat) : Prop where
  parts : ∃ (i j : Nat) (store isFence load : Event Tid Value), i < fence ∧ fence < j ∧
    events[i]? = some store ∧ events[fence]? = some isFence ∧ events[j]? = some load ∧
    store.Writes x stored ∧ isFence.seqCstFence = true ∧ load.Reads y loaded ∧
    store.thread = isFence.thread ∧ isFence.thread = load.thread

/-- The value of a store to an atomic. -/
def Event.storedAt (x : Address) : Event Tid Value → Option Value
  | .store _ y _ _ _ value | .rmw _ y _ _ value => if y = x then some value else none
  | _ => none

/-- The value last stored to an atomic in a trace. -/
def lastStored (events : List (Event Tid Value)) (x : Address) : Option Value :=
  (events.filterMap (Event.storedAt x)).getLast?

section Sequential

variable [Fintype Tid] [DecidableEq Value] [Inhabited Value] {random : Bool}
  {events : List (Event Tid Value)} {s : State Tid Value} {stamps : Nat → Nat → Prop}
  {x y : Address}

/-- Two threads that each store, fence and load what the other has stored: one of
the two sees the store of the other, or a newer one. -/
theorem fences_order_store_buffering (run : (machine (source random)).Steps initial events s)
    {stored stored' loaded loaded' fence fence' : Nat}
    (first : StoreFenceLoad events x stored y loaded fence)
    (second : StoreFenceLoad events y stored' x loaded' fence') :
    stored' ≤ loaded ∨ stored ≤ loaded' := by
  obtain ⟨_, run', _⟩ := whole_of_source run
  obtain ⟨i, j, store, isFence, load, before, after, found, foundFence, foundLoad, writes, fenced,
    reads, thread, threadLoad⟩ := first.parts
  obtain ⟨i', j', store', isFence', load', before', after', found', foundFence', foundLoad',
    writes', fenced', reads', thread', threadLoad'⟩ := second.parts
  rcases Nat.lt_trichotomy fence fence' with earlier | same | later
  · right
    have path : HappensBefore events i j' :=
      ((Relation.TransGen.single (.sequenced before found foundFence thread)).tail
        (.fenced earlier foundFence foundFence' fenced fenced')).tail
        (.sequenced after' foundFence' foundLoad' threadLoad')
    exact (coherent_of_whole run' found (.inr writes) foundLoad' (.inl reads') path).1
  · left
    -- one fence: both stores are before both loads, in one thread
    subst same
    cases foundFence.symm.trans foundFence'
    have path : HappensBefore events i' j :=
      .single (.sequenced (Nat.lt_trans before' after) found' foundLoad (thread'.trans threadLoad))
    exact (coherent_of_whole run' found' (.inr writes') foundLoad (.inl reads) path).1
  · left
    have path : HappensBefore events i' j :=
      ((Relation.TransGen.single (.sequenced before' found' foundFence' thread')).tail
        (.fenced later foundFence' foundFence fenced' fenced)).tail
        (.sequenced after foundFence foundLoad threadLoad)
    exact (coherent_of_whole run' found' (.inr writes') foundLoad (.inl reads) path).1

/-- Store buffering, one thread after the other. -/
theorem fences_order_store_buffering_turns :
    ∃ (events : List (Event Bool Nat)) (s : State Bool Nat),
      (machine (source false)).Steps initial events s ∧
        events[7]? = some (.load true 0 .relaxed 2 1) ∧ (2 ≤ 1 ∨ 2 ≤ 2) := by
  have ran : ∃ (events : List (Event Bool Nat)) (s : State Bool Nat),
      (machine (source false)).Steps initial events s ∧
        events = [.store false 0 .relaxed 1 none 0, .store false 1 .relaxed 1 none 0,
          .store false 0 .relaxed 2 (some false) 1, .fence false .seqCst,
          .load false 1 .relaxed 1 0, .store true 1 .relaxed 2 (some false) 1,
          .fence true .seqCst, .load true 0 .relaxed 2 1] :=
    System.exists_steps [⟨false, .store 0 0 .relaxed, fun _ => false, false⟩,
      ⟨false, .store 1 0 .relaxed, fun _ => false, false⟩,
      ⟨false, .store 0 1 .relaxed, fun _ => false, false⟩,
      ⟨false, .fence .seqCst, fun _ => false, false⟩,
      ⟨false, .load 1 .relaxed, fun _ => false, false⟩,
      ⟨true, .store 1 1 .relaxed, fun _ => false, false⟩,
      ⟨true, .fence .seqCst, fun _ => false, false⟩,
      ⟨true, .load 0 .relaxed, fun _ => false, false⟩] (by decide +kernel)
  obtain ⟨events, s, run, shown⟩ := ran
  have first : StoreFenceLoad events 0 2 1 1 3 :=
    ⟨2, 4, .store false 0 .relaxed 2 (some false) 1, .fence false .seqCst,
      .load false 1 .relaxed 1 0, by decide, by decide, by simp [shown], by simp [shown],
      by simp [shown], ⟨rfl, rfl⟩, rfl, ⟨rfl, rfl⟩, rfl, rfl⟩
  have second : StoreFenceLoad events 1 2 0 2 6 :=
    ⟨5, 7, .store true 1 .relaxed 2 (some false) 1, .fence true .seqCst,
      .load true 0 .relaxed 2 1, by decide, by decide, by simp [shown], by simp [shown],
      by simp [shown], ⟨rfl, rfl⟩, rfl, ⟨rfl, rfl⟩, rfl, rfl⟩
  exact ⟨events, s, run, by simp [shown], fences_order_store_buffering run first second⟩

omit [DecidableEq Tid] [Fintype Tid] [DecidableEq Value] [Inhabited Value] in
/-- The last store of a longer trace. -/
theorem lastStored_snoc (events : List (Event Tid Value)) (event : Event Tid Value) (x : Address) :
    lastStored (events ++ [event]) x = (event.storedAt x).or (lastStored events x) := by
  cases stored : event.storedAt x <;> simp [lastStored, List.filterMap_append, stored]

/-- An atomic holds the value that was last stored to it. -/
theorem Stamped.lastStored (stamped : Stamped random events s stamps) (x : Address) :
    lastStored events x =
      if (s.atomics x).initialized = true then some (s.atomics x).value else none := by
  induction stamped with
  | start => simp [Relacy.lastStored, initial]
  | @step events s stamps event s' prior transition inductionHypothesis =>
      have effect := (effect_of_step transition).2
      rw [lastStored_snoc, inductionHypothesis]
      by_cases stores : ∃ k, event.Writes x k
      · obtain ⟨k, writes⟩ := stores
        obtain ⟨_, _, initialized, value, _⟩ := effect.stores writes
        have shown : event.storedAt x = event.value? := by
          cases event with
          | store | rmw =>
              obtain ⟨rfl, _⟩ := writes
              simp [Event.storedAt, Event.value?]
          | _ => exact writes.elim
        rw [shown, value, initialized]
        rfl
      · have none : event.storedAt x = none := by
          cases event with
          | store t y order index previous value =>
              have other : y ≠ x := fun same => stores ⟨index, same, rfl⟩
              simp [Event.storedAt, other]
          | rmw t y order index value =>
              have other : y ≠ x := fun same => stores ⟨index + 1, same, rfl⟩
              simp [Event.storedAt, other]
          | _ => rfl
        obtain ⟨_, sameInitialized, sameValue⟩ := effect.sameIndex (x := x) (not_exists.mp stores)
        rw [none, sameInitialized, sameValue]
        rfl

/-- If all stores to an atomic are sequentially consistent, a sequentially
consistent load returns the value that was last stored: such runs are those of
threads that take turns on a plain memory. -/
theorem seqCst_returns_last (run : (machine (source random)).Steps initial events s)
    (only : ∀ event ∈ events, ∀ k, event.Writes x k → event.seqCstStore = true)
    {j k : Nat} {t : Tid} {value : Value}
    (found : events[j]? = some (.load t x .seqCst k value)) :
    lastStored (events.take j) x = some value := by
  obtain ⟨s', run', _⟩ := whole_of_source run
  obtain ⟨state, after, stamps, stamped, effect⟩ := exists_stamped_at run' found
  have recorded := stamped.recorded
  obtain ⟨positive, below⟩ := recorded.reads effect ⟨rfl, rfl⟩
  have initialized := (recorded.initialized x).mpr (Nat.lt_of_lt_of_le positive below)
  -- the last record is a store of the trace, so it is not passed
  obtain ⟨i, store, foundStore, writes⟩ :=
    recorded.stored (Nat.lt_of_lt_of_le positive below) (Nat.le_refl _)
  have inside := (List.getElem?_eq_some_iff.mp foundStore).1
  rw [List.length_take] at inside
  have before : i < j := by omega
  have foundWhole := (List.getElem?_take_of_lt before).symm.trans foundStore
  have isSeqCst := only store (List.mem_of_getElem? foundWhole) _ writes
  have newest := seqCst_load_newest run foundWhole writes isSeqCst found before
  have last : k = (state.atomics x).currentIndex := Nat.le_antisymm below newest
  rw [stamped.lastStored x, if_pos initialized, recorded.value (Nat.lt_of_lt_of_le positive below)]
  cases effect with
  | load => rw [last]; rfl

/-- Two stores and a load of the second. -/
theorem seqCst_returns_last_second : ∃ (events : List (Event Bool Nat)) (s : State Bool Nat),
    (machine (source false)).Steps initial events s ∧
      lastStored (events.take 2) 0 = some 8 := by
  have ran : ∃ (events : List (Event Bool Nat)) (s : State Bool Nat),
      (machine (source false)).Steps initial events s ∧
        events = [.store false 0 .seqCst 1 none 7, .store true 0 .seqCst 2 (some false) 8,
          .load false 0 .seqCst 2 8] :=
    System.exists_steps [⟨false, .store 0 7 .seqCst, fun _ => false, false⟩,
      ⟨true, .store 0 8 .seqCst, fun _ => false, false⟩,
      ⟨false, .load 0 .seqCst, fun _ => false, false⟩] (by decide +kernel)
  obtain ⟨events, s, run, shown⟩ := ran
  have only : ∀ event ∈ events, ∀ k, event.Writes 0 k → event.seqCstStore = true := by
    simp [shown, Event.Writes, Event.seqCstStore]
  have found : events[2]? = some (.load false 0 .seqCst 2 8) := by simp [shown]
  exact ⟨events, s, run, seqCst_returns_last run only found⟩

end Sequential

end LockFree.Relacy
