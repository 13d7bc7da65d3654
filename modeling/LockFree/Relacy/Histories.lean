import LockFree.Relacy.Effects
import LockFree.Relacy.HappensBefore

/-!
# What the histories keep of a run

Runs are taken here with a history that forgets nothing: every index has a record
of its own. Then the records of an atomic are its stores in order, each load sees
a record that was stored before, and the trace is `Ordered`.
-/

namespace LockFree.Relacy

variable {Tid Value : Type} [DecidableEq Tid]

/-! ### One record -/

section See

variable (record : Record Tid Value) (t : Tid) (timestamp : Nat)

@[simp] theorem see_acqRelOrder : (record.see t timestamp).acqRelOrder = record.acqRelOrder := by
  unfold Record.see
  split <;> rfl

@[simp] theorem see_busy : (record.see t timestamp).busy = record.busy := by
  unfold Record.see
  split <;> rfl

@[simp] theorem see_threadId : (record.see t timestamp).threadId = record.threadId := by
  unfold Record.see
  split <;> rfl

@[simp] theorem see_value : (record.see t timestamp).value = record.value := by
  unfold Record.see
  split <;> rfl

@[simp] theorem see_seqCst : (record.see t timestamp).seqCst = record.seqCst := by
  unfold Record.see
  split <;> rfl

@[simp] theorem see_acqRelTimestamp :
    (record.see t timestamp).acqRelTimestamp = record.acqRelTimestamp := by
  unfold Record.see
  split <;> rfl

@[simp] theorem see_owner : (record.see t timestamp).owner = record.owner := by
  unfold Record.see
  split <;> rfl

end See

/-- The value an event shows. -/
def Event.value? : Event Tid Value → Option Value
  | .load _ _ _ _ value | .store _ _ _ _ _ value | .rmw _ _ _ _ value | .access _ _ _ value =>
      some value
  | _ => none

/-- The event is a sequentially consistent store. -/
def Event.seqCstStore : Event Tid Value → Bool
  | .store _ _ order _ _ _ | .rmw _ _ order _ _ => decide (order = .seqCst)
  | _ => false

/-- By how much an event advances the clock of its thread. -/
def Event.ticks : Event Tid Value → Nat
  | .load .. | .store .. | .access .. | .acquired .. | .released .. | .acqReled .. => 1
  | .rmw .. => 2
  | .fence .. | .yielded .. | .globalFence .. | .raced .. | .uninitialized .. => 0

/-- What the record of a store holds at first. -/
structure Record.IsOf (record : Record Tid Value) (event : Event Tid Value) (timestamp : Nat) :
    Prop where
  value : event.value? = some record.value
  busy : record.busy = true
  seqCst : record.seqCst = event.seqCstStore
  threadId : record.threadId = some event.thread
  acqRelTimestamp : record.acqRelTimestamp = timestamp
  firstSeenOrder :
    record.firstSeenOrder = Function.update (fun _ => none) event.thread (some timestamp)

section Step

variable {s s' : State Tid Value} {event : Event Tid Value} {t : Tid} {x y : Address} {k : Nat}
  {order : MemoryOrder} {value : Value} {random rmw : Bool}

/-- The record that `atomic_store` makes. -/
theorem isOf_atomicStore (s : State Tid Value) {index : Nat}
    (isIndex : index = (s.atomics x).currentIndex + 1) (thread : event.thread = t)
    (isValue : event.value? = some value)
    (isSeqCst : event.seqCstStore = decide (order = .seqCst)) :
    (((atomicStore (whole random) s t x order rmw value).atomics x).history index).IsOf event
      ((s.threads t).acqRelOrder t + 1) := by
  subst isIndex thread
  constructor <;> simp [atomicStore, Atomic.setRecord, whole, isValue, isSeqCst]

/-- The clock of a thread after a load, at its own time. -/
theorem atomicLoad_time (s : State Tid Value) (bounded :
      ((s.atomics x).history k).acqRelOrder t ≤ (s.threads t).acqRelOrder t) :
    ((atomicLoad (whole random) s t x order k).threads t).acqRelOrder t =
      (s.threads t).acqRelOrder t + 1 := by
  simp only [atomicLoad, whole, id, ThreadInfo.see]
  split
  · simpa using Nat.le_succ_of_le bounded
  · simp

variable [Fintype Tid]

/-- A store adds a record. -/
theorem Effect.stores (effect : Effect (whole random) s event s') (writes : event.Writes x k) :
    k = (s.atomics x).currentIndex + 1 ∧ (s'.atomics x).currentIndex = k ∧
      (s'.atomics x).initialized = true ∧ event.value? = some (s'.atomics x).value ∧
      ∃ timestamp, ((s'.atomics x).history k).IsOf event timestamp ∧
        ((∀ k t, ((s.atomics x).history k).acqRelOrder t ≤ (s.threads t).acqRelOrder t) →
          timestamp = (s.threads event.thread).acqRelOrder event.thread + event.ticks) := by
  cases effect with
  | @store t y order value =>
      obtain ⟨rfl, rfl⟩ := writes
      exact ⟨rfl, by simp [atomicStore], by simp [atomicStore],
        by simp [atomicStore, Event.value?], _, isOf_atomicStore s rfl rfl rfl rfl, fun _ => rfl⟩
  | @rmw t y order value initialized =>
      obtain ⟨rfl, rfl⟩ := writes
      have sameIndex : ((atomicLoad (whole random) s t y order
          (s.atomics y).currentIndex).atomics y).currentIndex = (s.atomics y).currentIndex := by
        simp [atomicLoad, Atomic.setRecord]
      refine ⟨rfl, ?_, by simp [atomicRmw, atomicStore],
        by simp [atomicRmw, atomicStore, Event.value?],
        _, isOf_atomicStore _ (congrArg (· + 1) sameIndex.symm) rfl rfl rfl, fun bounded => ?_⟩
      · simp [atomicRmw, atomicStore, atomicLoad, Atomic.setRecord]
      · rw [atomicLoad_time s (bounded _ t)]
        rfl
  | _ => exact writes.elim

/-- A step leaves every record that it does not store, or notes that its thread has
seen it. -/
theorem Effect.keeps (effect : Effect (whole random) s event s') (old : ¬ event.Writes x k) :
    (¬ event.Reads x k ∧ (s'.atomics x).history k = (s.atomics x).history k) ∨
      event.Reads x k ∧ (s'.atomics x).history k = ((s.atomics x).history k).see event.thread
        ((s.threads event.thread).acqRelOrder event.thread + 1) := by
  cases effect with
  | @load t y order index failed =>
      by_cases same : y = x ∧ index = k
      · obtain ⟨rfl, rfl⟩ := same
        refine .inr ⟨⟨rfl, rfl⟩, ?_⟩
        simp [atomicLoad, Atomic.setRecord, State.noteFailure, whole, Event.thread]
      · refine .inl ⟨same, ?_⟩
        by_cases sameAtomic : x = y
        · subst sameAtomic
          have other : k ≠ index := fun sameIndex => same ⟨rfl, sameIndex.symm⟩
          simp [atomicLoad, Atomic.setRecord, State.noteFailure, whole, other]
        · simp [atomicLoad, State.noteFailure, sameAtomic]
  | @store t y order value =>
      refine .inl ⟨fun reads => reads, ?_⟩
      by_cases sameAtomic : x = y
      · subst sameAtomic
        have other : k ≠ (s.atomics x).currentIndex + 1 := fun same => old ⟨rfl, same.symm⟩
        simp [atomicStore, Atomic.setRecord, whole, other]
      · simp [atomicStore, sameAtomic]
  | @rmw t y order value initialized =>
      by_cases sameAtomic : x = y
      · subst sameAtomic
        have other : k ≠ (s.atomics x).currentIndex + 1 := fun same => old ⟨rfl, same.symm⟩
        by_cases same : k = (s.atomics x).currentIndex
        · subst same
          refine .inr ⟨⟨rfl, rfl⟩, ?_⟩
          simp [atomicRmw, atomicStore, atomicLoad, Atomic.setRecord, whole, Event.thread]
        · refine .inl ⟨fun reads => same reads.2.symm, ?_⟩
          simp [atomicRmw, atomicStore, atomicLoad, Atomic.setRecord, whole, other, same]
      · refine .inl ⟨fun reads => sameAtomic reads.1.symm, ?_⟩
        simp [atomicRmw, atomicStore, atomicLoad, sameAtomic]
  | uninitialized y failed =>
      refine .inl ⟨fun reads => reads, ?_⟩
      by_cases sameAtomic : x = y
      · subst sameAtomic
        simp [State.noteFailure]
      · simp [State.noteFailure, sameAtomic]
  | _ => exact .inl ⟨fun reads => reads, rfl⟩

/-- A step that stores nothing leaves the index and the value of an atomic. -/
theorem Effect.sameIndex (effect : Effect (whole random) s event s')
    (old : ∀ k, ¬ event.Writes x k) :
    (s'.atomics x).currentIndex = (s.atomics x).currentIndex ∧
      (s'.atomics x).initialized = (s.atomics x).initialized ∧
      (s'.atomics x).value = (s.atomics x).value := by
  cases effect with
  | @load t y order index failed =>
      by_cases sameAtomic : x = y
      · subst sameAtomic
        simp [atomicLoad, Atomic.setRecord, State.noteFailure]
      · simp [atomicLoad, State.noteFailure, sameAtomic]
  | @store t y order value =>
      by_cases sameAtomic : x = y
      · exact absurd ⟨sameAtomic.symm, rfl⟩ (old _)
      · simp [atomicStore, sameAtomic]
  | @rmw t y order value initialized =>
      by_cases sameAtomic : x = y
      · exact absurd ⟨sameAtomic.symm, rfl⟩ (old _)
      · simp [atomicRmw, atomicStore, atomicLoad, sameAtomic]
  | uninitialized y failed =>
      by_cases sameAtomic : x = y
      · subst sameAtomic
        simp [State.noteFailure]
      · simp [State.noteFailure, sameAtomic]
  | _ => exact ⟨rfl, rfl, rfl⟩

/-- A load sees a record that is in use. -/
theorem Effect.loads (effect : Effect (whole random) s event s') (reads : event.Reads x k) :
    k ≤ (s.atomics x).currentIndex ∧
      (((s.atomics x).history k).busy = true ∨
        (s.atomics x).initialized = true ∧ k = (s.atomics x).currentIndex) := by
  cases effect with
  | load failed inside near busy passable =>
      obtain ⟨rfl, rfl⟩ := reads
      exact ⟨inside, .inl busy⟩
  | rmw initialized =>
      obtain ⟨rfl, rfl⟩ := reads
      exact ⟨Nat.le_refl _, .inr ⟨initialized, rfl⟩⟩
  | _ => exact reads.elim

/-- What a store shows of the record before it. -/
theorem Effect.previous {index : Nat} {previous : Option Tid}
    (effect : Effect (whole random) s (.store t x order index previous value) s') :
    previous = ((s.atomics x).history (s.atomics x).currentIndex).owner := by
  cases effect with
  | store => rfl

end Step

/-! ### All records of a run -/

omit [DecidableEq Tid] in
/-- An event stores at most one record. -/
theorem writes_unique {event : Event Tid Value} {x y : Address} {k l : Nat}
    (first : event.Writes x k) (second : event.Writes y l) : x = y ∧ k = l := by
  cases event with
  | store | rmw =>
      obtain ⟨rfl, rfl⟩ := first
      exact second
  | _ => exact first.elim

/-- The histories hold the stores of the trace. -/
structure Recorded (events : List (Event Tid Value)) (s : State Tid Value) : Prop where
  busy : ∀ x k, ((s.atomics x).history k).busy = true ↔ 0 < k ∧ k ≤ (s.atomics x).currentIndex
  initialized : ∀ x, (s.atomics x).initialized = true ↔ 0 < (s.atomics x).currentIndex
  writer : ∀ {i : Nat} {event : Event Tid Value} {x : Address} {k : Nat},
    events[i]? = some event → event.Writes x k → 0 < k ∧ k ≤ (s.atomics x).currentIndex ∧
      ((s.atomics x).history k).threadId = some event.thread ∧
      ((s.atomics x).history k).seqCst = event.seqCstStore ∧
      event.value? = some ((s.atomics x).history k).value
  stored : ∀ {x : Address} {k : Nat}, 0 < k → k ≤ (s.atomics x).currentIndex →
    ∃ (i : Nat) (event : Event Tid Value), events[i]? = some event ∧ event.Writes x k
  value : ∀ {x : Address}, 0 < (s.atomics x).currentIndex →
    (s.atomics x).value = ((s.atomics x).history (s.atomics x).currentIndex).value
  ordered : Ordered events

/-- Nothing has been stored at the start. -/
theorem recorded_initial [Inhabited Value] : Recorded [] (initial : State Tid Value) where
  busy x k := by simp [initial, Nat.pos_iff_ne_zero]
  initialized x := by simp [initial]
  writer found := by simp at found
  stored positive below := absurd positive (Nat.not_lt.mpr below)
  value positive := absurd positive (Nat.lt_irrefl _)
  ordered :=
    { stores := fun found => by simp at found
      loads := fun found => by simp at found
      previous := fun found => by simp at found }

section Recorded

open Causality

variable {events : List (Event Tid Value)} {s s' : State Tid Value} {event : Event Tid Value}
  {x : Address} {k : Nat} {random : Bool}

omit [DecidableEq Tid] in
/-- The last record has an owner as soon as the atomic is initialized. -/
theorem Recorded.owned (recorded : Recorded events s)
    (initialized : (s.atomics x).initialized = true) :
    ((s.atomics x).history (s.atomics x).currentIndex).owner.isSome = true := by
  have positive := (recorded.initialized x).mp initialized
  obtain ⟨i, event, found, writes⟩ := recorded.stored positive (Nat.le_refl _)
  have busy := (recorded.busy x _).mpr ⟨positive, Nat.le_refl _⟩
  rw [Record.owner, if_pos busy, (recorded.writer found writes).2.2.1]
  rfl

omit [DecidableEq Tid] in
/-- Whose record is the last. -/
theorem Recorded.owner_iff (recorded : Recorded events s) (u : Tid) :
    ((s.atomics x).history (s.atomics x).currentIndex).owner = some u ↔
      ∃ (i : Nat) (store : Event Tid Value), events[i]? = some store ∧
        store.Writes x (s.atomics x).currentIndex ∧ store.thread = u := by
  constructor
  · intro owner
    by_cases busy : ((s.atomics x).history (s.atomics x).currentIndex).busy = true
    · rw [Record.owner, if_pos busy] at owner
      obtain ⟨positive, below⟩ := (recorded.busy x _).mp busy
      obtain ⟨i, store, found, writes⟩ := recorded.stored positive below
      refine ⟨i, store, found, writes, Option.some.inj ?_⟩
      rw [← owner, (recorded.writer found writes).2.2.1]
    · rw [Record.owner, if_neg busy] at owner
      cases owner
  · rintro ⟨i, store, found, writes, rfl⟩
    obtain ⟨positive, below, threadId, _⟩ := recorded.writer found writes
    rw [Record.owner, if_pos ((recorded.busy x _).mpr ⟨positive, below⟩), threadId]

variable [Fintype Tid]

/-- A load of the trace sees a record of it. -/
theorem Recorded.reads (recorded : Recorded events s) (effect : Effect (whole random) s event s')
    (reads : event.Reads x k) : 0 < k ∧ k ≤ (s.atomics x).currentIndex := by
  obtain ⟨below, busy | ⟨initialized, rfl⟩⟩ := effect.loads reads
  · exact (recorded.busy x k).mp busy
  · exact ⟨(recorded.initialized x).mp initialized, below⟩

/-- The stores stay numbered in order. -/
theorem Recorded.ordered_step (recorded : Recorded events s)
    (effect : Effect (whole random) s event s') : Ordered (events ++ [event]) where
  stores {i j x k l first second} found writes foundSecond writesSecond := by
    have inside : ∀ {position : Nat} {earlier : Event Tid Value},
        events[position]? = some earlier → position < events.length :=
      fun found => (List.getElem?_eq_some_iff.mp found).1
    rcases getElem?_snoc.mp found with old | ⟨rfl, rfl⟩ <;>
      rcases getElem?_snoc.mp foundSecond with oldSecond | ⟨rfl, rfl⟩
    · exact recorded.ordered.stores old writes oldSecond writesSecond
    · have below := (recorded.writer old writes).2.1
      have isNext := (effect.stores writesSecond).1
      have before := inside old
      omega
    · have below := (recorded.writer oldSecond writesSecond).2.1
      have isNext := (effect.stores writes).1
      have before := inside oldSecond
      omega
    · have same := (writes_unique writes writesSecond).2
      omega
  loads {j x k reader} found reads := by
    rcases getElem?_snoc.mp found with old | ⟨rfl, rfl⟩
    · obtain ⟨i, before, store, foundStore, writes⟩ := recorded.ordered.loads old reads
      exact ⟨i, before, store, getElem?_snoc.mpr (.inl foundStore), writes⟩
    · obtain ⟨positive, below⟩ := recorded.reads effect reads
      obtain ⟨i, store, foundStore, writes⟩ := recorded.stored positive below
      exact ⟨i, (List.getElem?_eq_some_iff.mp foundStore).1, store,
        getElem?_snoc.mpr (.inl foundStore), writes⟩
  previous {j t x order index before value} found := by
    rcases getElem?_snoc.mp found with old | ⟨rfl, rfl⟩
    · obtain ⟨k, isIndex, whose⟩ := recorded.ordered.previous old
      refine ⟨k, isIndex, fun u => (whose u).trans ⟨?_, ?_⟩⟩
      · rintro ⟨i, store, foundStore, writes, thread⟩
        exact ⟨i, store, getElem?_snoc.mpr (.inl foundStore), writes, thread⟩
      · rintro ⟨i, store, foundStore, writes, thread⟩
        rcases getElem?_snoc.mp foundStore with oldStore | ⟨rfl, rfl⟩
        · exact ⟨i, store, oldStore, writes, thread⟩
        · -- the new store comes after the old one, whose index is larger
          have below := (recorded.writer old ⟨rfl, rfl⟩).2.1
          have isNext := (effect.stores writes).1
          omega
    · have isNext := (effect.stores ⟨rfl, rfl⟩).1
      refine ⟨(s.atomics x).currentIndex, isNext, fun u => ?_⟩
      rw [effect.previous, recorded.owner_iff u]
      constructor
      · rintro ⟨i, store, foundStore, writes, thread⟩
        exact ⟨i, store, getElem?_snoc.mpr (.inl foundStore), writes, thread⟩
      · rintro ⟨i, store, foundStore, writes, thread⟩
        rcases getElem?_snoc.mp foundStore with oldStore | ⟨rfl, rfl⟩
        · exact ⟨i, store, oldStore, writes, thread⟩
        · have isNextToo := (effect.stores writes).1
          omega

/-- A record that is not stored anew stays, but for who has seen it. -/
theorem Effect.sameRecord (effect : Effect (whole random) s event s') (old : ¬ event.Writes x k) :
    ((s'.atomics x).history k).busy = ((s.atomics x).history k).busy ∧
      ((s'.atomics x).history k).threadId = ((s.atomics x).history k).threadId ∧
      ((s'.atomics x).history k).seqCst = ((s.atomics x).history k).seqCst ∧
      ((s'.atomics x).history k).acqRelTimestamp = ((s.atomics x).history k).acqRelTimestamp ∧
      ((s'.atomics x).history k).value = ((s.atomics x).history k).value := by
  rcases effect.keeps old with ⟨_, same⟩ | ⟨_, seen⟩
  · simp [same]
  · simp [seen]

/-- The histories go on holding the stores of the trace. -/
theorem Recorded.step (recorded : Recorded events s)
    (effect : Effect (whole random) s event s') : Recorded (events ++ [event]) s' := by
  -- whether the atomic gets a new record
  have index : ∀ x, (∀ k, ¬ event.Writes x k) ∨
      event.Writes x ((s.atomics x).currentIndex + 1) := by
    intro x
    by_cases stores : ∃ k, event.Writes x k
    · obtain ⟨k, writes⟩ := stores
      exact .inr ((effect.stores writes).1 ▸ writes)
    · exact .inl (not_exists.mp stores)
  refine ⟨fun x k => ?_, fun x => ?_, fun {i earlier x k} found writes => ?_,
    fun {x k} positive below => ?_, fun {x} positive => ?_, recorded.ordered_step effect⟩
  · rcases index x with stays | stores
    · rw [(effect.sameRecord (stays k)).1, (effect.sameIndex stays).1]
      exact recorded.busy x k
    · obtain ⟨_, newIndex, _, _, timestamp, isOf, _⟩ := effect.stores stores
      rw [newIndex]
      by_cases same : k = (s.atomics x).currentIndex + 1
      · subst same
        simp [isOf.busy]
      · have old : ¬ event.Writes x k := fun writes => same (effect.stores writes).1
        rw [(effect.sameRecord old).1, recorded.busy x k]
        omega
  · rcases index x with stays | stores
    · rw [(effect.sameIndex stays).1, (effect.sameIndex stays).2.1]
      exact recorded.initialized x
    · obtain ⟨_, newIndex, initialized, _⟩ := effect.stores stores
      simp [newIndex, initialized]
  · rcases getElem?_snoc.mp found with old | ⟨rfl, rfl⟩
    · obtain ⟨positive, below, threadId, seqCst, value⟩ := recorded.writer old writes
      rcases index x with stays | stores
      · obtain ⟨_, sameThread, sameSeqCst, _, sameValue⟩ := effect.sameRecord (stays k)
        rw [(effect.sameIndex stays).1, sameThread, sameSeqCst, sameValue]
        exact ⟨positive, below, threadId, seqCst, value⟩
      · have newIndex := (effect.stores stores).2.1
        have older : ¬ event.Writes x k := by
          intro again
          have isNext := (effect.stores again).1
          omega
        obtain ⟨_, sameThread, sameSeqCst, _, sameValue⟩ := effect.sameRecord older
        rw [newIndex, sameThread, sameSeqCst, sameValue]
        exact ⟨positive, Nat.le_succ_of_le below, threadId, seqCst, value⟩
    · obtain ⟨isNext, newIndex, _, _, timestamp, isOf, _⟩ := effect.stores writes
      refine ⟨?_, Nat.le_of_eq newIndex.symm, isOf.threadId, isOf.seqCst, isOf.value⟩
      omega
  · rcases index x with stays | stores
    · rw [(effect.sameIndex stays).1] at below
      obtain ⟨i, store, foundStore, writes⟩ := recorded.stored positive below
      exact ⟨i, store, getElem?_snoc.mpr (.inl foundStore), writes⟩
    · have newIndex := (effect.stores stores).2.1
      by_cases same : k = (s.atomics x).currentIndex + 1
      · exact ⟨_, event, getElem?_snoc.mpr (.inr ⟨rfl, rfl⟩), same ▸ stores⟩
      · obtain ⟨i, store, foundStore, writes⟩ := recorded.stored (x := x) positive (by omega)
        exact ⟨i, store, getElem?_snoc.mpr (.inl foundStore), writes⟩
  · rcases index x with stays | stores
    · obtain ⟨sameIndex, _, sameValue⟩ := effect.sameIndex (x := x) stays
      rw [sameIndex] at positive
      rw [sameIndex, sameValue, (effect.sameRecord (stays _)).2.2.2.2]
      exact recorded.value positive
    · obtain ⟨_, newIndex, _, value, timestamp, isOf, _⟩ := effect.stores stores
      rw [newIndex]
      exact Option.some.inj (value.symm.trans isOf.value)

end Recorded

end LockFree.Relacy
