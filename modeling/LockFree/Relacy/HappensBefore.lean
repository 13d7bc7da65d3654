import LockFree.Causality.Past
import LockFree.Relacy.Machine
import Mathlib.Logic.Relation

/-!
# Happens before, in a trace

Which events of a trace happen before which others is defined here by the trace
alone, without any clock: an event happens before the later ones of its thread;
what heads a release sequence happens before what acquires a value of the
sequence; unlocking happens before locking again, a sequentially consistent fence
before the next one.

This is the simulator's order. It orders more than the standard, where a release
sequence goes on only with read-modify-writes and with stores of the thread that
heads it, and where two fences are not ordered as such.

`flow` says what each operation hands on in the simulator. On a trace in which
the stores of an atomic are numbered in order, what a thread knows of is exactly
what happens before.
-/

namespace LockFree.Relacy

open Causality

variable {Tid Value : Type}

/-! ### Events -/

/-- The event stores the record of an index. -/
def Event.Writes : Event Tid Value → Address → Nat → Prop
  | .store _ x _ index _ _, y, k => x = y ∧ index = k
  | .rmw _ x _ index _, y, k => x = y ∧ index + 1 = k
  | _, _, _ => False

/-- The event loads the record of an index. -/
def Event.Reads : Event Tid Value → Address → Nat → Prop
  | .load _ x _ index _, y, k => x = y ∧ index = k
  | .rmw _ x _ index _, y, k => x = y ∧ index = k
  | _, _, _ => False

/-- The event is an atomic operation with release semantics. -/
def Event.releasing : Event Tid Value → Bool
  | .store _ _ order _ _ _ | .rmw _ _ order _ _ => order.releases
  | _ => false

/-- The event is an atomic operation with acquire semantics. -/
def Event.acquiring : Event Tid Value → Bool
  | .load _ _ order _ _ | .rmw _ _ order _ _ => order.acquires
  | _ => false

/-- The event is a fence with release semantics. -/
def Event.releaseFence : Event Tid Value → Bool
  | .fence _ order => order.releases
  | _ => false

/-- The event is a fence with acquire semantics. -/
def Event.acquireFence : Event Tid Value → Bool
  | .fence _ order => order.acquires
  | _ => false

/-- The event is a sequentially consistent fence. -/
def Event.seqCstFence : Event Tid Value → Bool
  | .fence _ .seqCst => true
  | _ => false

/-- The event is a read-modify-write. -/
def Event.isRmw : Event Tid Value → Bool
  | .rmw .. => true
  | _ => false

/-- The event releases a synchronization object. -/
def Event.Unlocks : Event Tid Value → Address → Prop
  | .released _ m, n | .acqReled _ m, n => m = n
  | _, _ => False

/-- The event acquires a synchronization object. -/
def Event.Locks : Event Tid Value → Address → Prop
  | .acquired _ m, n | .acqReled _ m, n => m = n
  | _, _ => False

/-- The event orders everything before it before everything after it. -/
def Event.isGlobal : Event Tid Value → Bool
  | .globalFence _ => true
  | _ => false

/-! ### Happens before -/

/-- The event at a position heads a release sequence that the record of an index
belongs to: it is a release store of the sequence, or a release fence before a
store of the sequence. A sequence goes on with read-modify-writes and with stores
of the thread that stored the record before. -/
inductive Heads (events : List (Event Tid Value)) (x : Address) : Nat → Nat → Prop where
  | store {position index : Nat} {event : Event Tid Value}
      (found : events[position]? = some event)
      (writes : event.Writes x index) (releasing : event.releasing = true) :
      Heads events x position index
  | fence {position later index : Nat} {fence event : Event Tid Value} (before : position < later)
      (fenced : events[position]? = some fence) (releases : fence.releaseFence = true)
      (found : events[later]? = some event) (writes : event.Writes x index)
      (thread : fence.thread = event.thread) : Heads events x position index
  | sequence {position last later index : Nat} {previous event : Event Tid Value}
      (heads : Heads events x position index)
      (stored : events[last]? = some previous) (wrote : previous.Writes x index)
      (found : events[later]? = some event) (writes : event.Writes x (index + 1))
      (continues : event.isRmw = true ∨ event.thread = previous.thread) :
      Heads events x position (index + 1)

/-- The event at a position acquires the record of an index: it loads the record
with acquire semantics, or it is an acquire fence after a load of the record. -/
inductive Acquires (events : List (Event Tid Value)) (x : Address) : Nat → Nat → Prop where
  | load {position index : Nat} {event : Event Tid Value}
      (found : events[position]? = some event) (reads : event.Reads x index)
      (acquiring : event.acquiring = true) :
      Acquires events x position index
  | fence {position earlier index : Nat} {event fence : Event Tid Value}
      (before : earlier < position)
      (found : events[earlier]? = some event) (reads : event.Reads x index)
      (fenced : events[position]? = some fence) (acquires : fence.acquireFence = true)
      (thread : fence.thread = event.thread) : Acquires events x position index

/-- One step of happens before, between positions. -/
inductive Edge (events : List (Event Tid Value)) : Nat → Nat → Prop where
  | sequenced {i j : Nat} {first second : Event Tid Value} (before : i < j)
      (found : events[i]? = some first)
      (foundSecond : events[j]? = some second) (thread : first.thread = second.thread) :
      Edge events i j
  | synchronized {i j : Nat} {x : Address} {index : Nat} (heads : Heads events x i index)
      (acquires : Acquires events x j index) : Edge events i j
  | locked {i j : Nat} {m : Address} {first second : Event Tid Value} (before : i < j)
      (found : events[i]? = some first)
      (foundSecond : events[j]? = some second) (unlocks : first.Unlocks m)
      (locks : second.Locks m) : Edge events i j
  | fenced {i j : Nat} {first second : Event Tid Value} (before : i < j)
      (found : events[i]? = some first)
      (foundSecond : events[j]? = some second) (isFence : first.seqCstFence = true)
      (isFenceSecond : second.seqCstFence = true) : Edge events i j
  | global {i j : Nat} {first second : Event Tid Value} (before : i < j)
      (found : events[i]? = some first)
      (foundSecond : events[j]? = some second)
      (isGlobal : first.isGlobal = true ∨ second.isGlobal = true) : Edge events i j

/-- The event at one position happens before that at another. -/
def HappensBefore (events : List (Event Tid Value)) : Nat → Nat → Prop :=
  Relation.TransGen (Edge events)

/-! ### Traces whose stores are numbered in order -/

/-- The stores of an atomic are numbered in their order, a load sees a record that
was stored before, and a store knows whose record it follows. -/
structure Ordered (events : List (Event Tid Value)) : Prop where
  stores : ∀ {i j : Nat} {x : Address} {k l : Nat} {first second : Event Tid Value},
    events[i]? = some first → first.Writes x k → events[j]? = some second → second.Writes x l →
    (i < j ↔ k < l)
  loads : ∀ {j : Nat} {x : Address} {k : Nat} {event : Event Tid Value},
    events[j]? = some event → event.Reads x k →
    ∃ i < j, ∃ store : Event Tid Value, events[i]? = some store ∧ store.Writes x k
  previous : ∀ {j : Nat} {t : Tid} {x : Address} {order : MemoryOrder} {index : Nat}
    {before : Option Tid} {value : Value},
    events[j]? = some (Event.store t x order index before value) → ∃ k, index = k + 1 ∧
      ∀ u, before = some u ↔
        ∃ (i : Nat) (store : Event Tid Value),
          events[i]? = some store ∧ store.Writes x k ∧ store.thread = u

variable {events : List (Event Tid Value)} {event : Event Tid Value} {t : Tid} {x : Address}
  {i j k n : Nat}

/-- A record is stored once. -/
theorem Ordered.stores_unique (ordered : Ordered events) {first second : Event Tid Value}
    (found : events[i]? = some first) (writes : first.Writes x k)
    (foundSecond : events[j]? = some second) (writesSecond : second.Writes x k) : i = j := by
  have forth := ordered.stores found writes foundSecond writesSecond
  have back := ordered.stores foundSecond writesSecond found writes
  omega

/-! ### What is handed on -/

/-- What carries knowledge: the `acq_rel_order_` and the fence orders of a thread,
the order of a record, of a synchronization object, of the sequentially
consistent fences. -/
inductive Reg (Tid : Type) where
  | own (thread : Tid)
  | acquireFence (thread : Tid)
  | releaseFence (thread : Tid)
  | record (x : Address) (index : Nat)
  | sync (m : Address)
  | seqCst
deriving DecidableEq

/-- The register whose content a store hands on. -/
def passed (t : Tid) (order : MemoryOrder) : Reg Tid :=
  if order.releases then .own t else .releaseFence t

/-- The register that receives the order of a loaded record. -/
def receiver (t : Tid) (order : MemoryOrder) : Reg Tid :=
  if order.acquires then .own t else .acquireFence t

/-- A register receives what another one holds. -/
def Joins [DecidableEq Tid] : Event Tid Value → Reg Tid → Reg Tid → Prop
  | .load t x order index _, reg, source => reg = receiver t order ∧ source = .record x index
  | .store t x order index previous _, reg, source => reg = .record x index ∧
      (source = passed t order ∨ preserves false t previous = true ∧ source = .record x (index - 1))
  | .rmw t x order index _, reg, source =>
      (reg = receiver t order ∨ reg = .record x (index + 1)) ∧ source = .record x index ∨
        reg = .record x (index + 1) ∧ source = passed t order
  | .fence t .acquire, reg, source => reg = .own t ∧ source = .acquireFence t
  | .fence t .release, reg, source => reg = .releaseFence t ∧ source = .own t
  | .fence t .acqRel, reg, source =>
      (reg = .own t ∨ reg = .releaseFence t) ∧ (source = .own t ∨ source = .acquireFence t)
  | .fence t .seqCst, reg, source => (reg = .own t ∨ reg = .releaseFence t ∨ reg = .seqCst) ∧
      (source = .own t ∨ source = .acquireFence t ∨ source = .seqCst)
  | .acquired t m, reg, source => reg = .own t ∧ source = .sync m
  | .released t m, reg, source => reg = .sync m ∧ source = .own t
  | .acqReled t m, reg, source =>
      (reg = .own t ∨ reg = .sync m) ∧ (source = .own t ∨ source = .sync m)
  | .globalFence _, reg, source => (∃ u, reg = .own u) ∧ ∃ u, source = .own u
  | _, _, _ => False

/-- A register loses what it held, unless it receives it again. -/
def Replaced : Event Tid Value → Reg Tid → Prop
  | .store _ x _ index _ _, reg => reg = .record x index
  | .rmw _ x _ index _, reg => reg = .record x (index + 1)
  | .fence t order, reg => order.releases = true ∧ reg = .releaseFence t
  | _, _ => False

/-- What a register holds after an event. -/
def Takes [DecidableEq Tid] (event : Event Tid Value) (reg source : Reg Tid) : Prop :=
  source = reg ∧ ¬ Replaced event reg ∨ Joins event reg source

/-- Only a store of the record replaces what it holds. -/
theorem writes_of_replaced (replaced : Replaced event (.record x k)) : event.Writes x k := by
  cases event <;> simp_all [Replaced, Event.Writes]

/-- Only a release fence of the thread replaces what its release fences hold. -/
theorem fence_of_replaced (replaced : Replaced event (.releaseFence t)) :
    event.releaseFence = true ∧ event.thread = t := by
  cases event <;> simp_all [Replaced, Event.releaseFence, Event.thread]

variable [DecidableEq Tid] {reg source : Reg Tid}

/-- A thread keeps what it holds. -/
theorem takes_own (event : Event Tid Value) (t : Tid) : Takes event (.own t) (.own t) := by
  apply Or.inl
  cases event <;> simp [Replaced]

/-- What receives from a thread receives all that the thread receives. -/
theorem takes_closed {event : Event Tid Value} {reg source : Reg Tid}
    (takes : Takes event reg (.own event.thread)) (own : Takes event (.own event.thread) source) :
    Takes event reg source := by
  rcases takes with ⟨rfl, _⟩ | joins
  · exact own
  · cases event with
    | load t x order index value => simp [Joins] at joins
    | store t x order index previous value =>
        simp only [Takes, Joins, Replaced, Event.thread] at own joins ⊢
        grind
    | rmw t x order index value =>
        simp only [Takes, Joins, Replaced, Event.thread, receiver] at own joins ⊢
        grind
    | fence t order =>
        cases order <;> simp only [Takes, Joins, Replaced, Event.thread] at own joins ⊢ <;> grind
    | acquired t m => simp [Joins, Event.thread] at joins
    | released t m =>
        simp only [Takes, Joins, Replaced, Event.thread] at own joins ⊢
        grind
    | acqReled t m =>
        simp only [Takes, Joins, Replaced, Event.thread] at own joins ⊢
        grind
    | globalFence t =>
        simp only [Takes, Joins, Replaced, Event.thread] at own joins ⊢
        grind
    | access | yielded | raced | uninitialized => exact joins.elim

/-- What the operations hand on. -/
def flow : Flow (Event Tid Value) Tid (Reg Tid) where
  thread := Event.thread
  own := .own
  takes := Takes
  keeps := takes_own
  closed := takes_closed

/-- What is not replaced stays. -/
theorem takes_self (stays : ¬ Replaced event reg) : Takes event reg reg :=
  .inl ⟨rfl, stays⟩

/-- A release fence takes over what its thread knows. -/
theorem takes_of_releaseFence (releases : event.releaseFence = true) :
    Takes event (.releaseFence event.thread) (.own event.thread) := by
  apply Or.inr
  cases event with
  | fence t order =>
      cases order <;> simp_all [Event.releaseFence, MemoryOrder.releases, Joins, Event.thread]
  | _ => simp [Event.releaseFence] at releases

/-- An acquire fence hands its thread what the loads before it found. -/
theorem takes_of_acquireFence (acquires : event.acquireFence = true) :
    Takes event (.own event.thread) (.acquireFence event.thread) := by
  apply Or.inr
  cases event with
  | fence t order =>
      cases order <;> simp_all [Event.acquireFence, MemoryOrder.acquires, Joins, Event.thread]
  | _ => simp [Event.acquireFence] at acquires

/-- A store hands on what its thread knows, or what it knew at its last release
fence. -/
theorem takes_of_writes (writes : event.Writes x k) :
    Takes event (.record x k)
      (if event.releasing then .own event.thread else .releaseFence event.thread) := by
  apply Or.inr
  cases event with
  | store | rmw =>
      obtain ⟨rfl, rfl⟩ := writes
      simp only [Joins, passed, Event.releasing, Event.thread]
      tauto
  | _ => exact writes.elim

/-- A load hands the order of the record to its thread, or to its next acquire
fence. -/
theorem takes_of_reads (reads : event.Reads x k) :
    Takes event (if event.acquiring then .own event.thread else .acquireFence event.thread)
      (.record x k) := by
  apply Or.inr
  cases event with
  | load | rmw =>
      obtain ⟨rfl, rfl⟩ := reads
      simp only [Joins, receiver, Event.acquiring, Event.thread]
      tauto
  | _ => exact reads.elim

/-- A store that goes on with a release sequence hands on what the record before
held. -/
theorem Ordered.takes_of_continues (ordered : Ordered events) {store : Event Tid Value}
    (stored : events[i]? = some store) (wrote : store.Writes x k)
    (found : events[j]? = some event) (writes : event.Writes x (k + 1))
    (continues : event.isRmw = true ∨ event.thread = store.thread) :
    Takes event (.record x (k + 1)) (.record x k) := by
  apply Or.inr
  cases event with
  | store t y order index before value =>
      obtain ⟨rfl, rfl⟩ := writes
      obtain ⟨l, same, whose⟩ := ordered.previous found
      cases same
      have isBefore := (whose store.thread).mpr ⟨i, store, stored, wrote, rfl⟩
      have sameThread : t = store.thread := by simpa [Event.isRmw, Event.thread] using continues
      simp [Joins, preserves, isBefore, sameThread]
  | rmw t y order index value =>
      obtain ⟨rfl, same⟩ := writes
      cases same
      simp [Joins]
  | _ => exact writes.elim

/-! ### What happens before is known -/

/-- What a thread has put behind a release fence stays behind it. -/
theorem releaseFence_later {m : Nat} (past : Past flow (events.take n) (.releaseFence t) i)
    (own : Past flow (events.take n) (.own t) i) (before : n ≤ m) (inside : m ≤ events.length) :
    Past flow (events.take m) (.releaseFence t) i := by
  induction m, before using Nat.le_induction with
  | base => exact past
  | succ m before inductionHypothesis =>
      have known := inductionHypothesis (Nat.le_of_succ_le inside)
      have found := List.getElem?_eq_getElem (Nat.lt_of_succ_le inside)
      apply (past_take_succ found).mpr
      by_cases replaced : Replaced events[m] (.releaseFence t)
      · -- a newer release fence of the thread: the thread has forgotten nothing
        obtain ⟨releases, rfl⟩ := fence_of_replaced replaced
        exact .inr ⟨_, takes_of_releaseFence releases, own.own_later before⟩
      · exact .inr ⟨_, takes_self replaced, known⟩

/-- A record knows of what heads its release sequence. -/
theorem Ordered.past_record (ordered : Ordered events) (heads : Heads events x i k) {last : Nat}
    {store : Event Tid Value} (found : events[last]? = some store) (writes : store.Writes x k)
    (before : last < n) : Past flow (events.take n) (.record x k) i := by
  -- it is enough that the record knows right after it is stored
  suffices stored : Past flow (events.take (last + 1)) (.record x k) i by
    apply stored.later before
    intro position event after _ foundEvent
    apply takes_self
    intro replaced
    have same := ordered.stores_unique found writes foundEvent (writes_of_replaced replaced)
    omega
  clear before
  induction heads generalizing last store with
  | @store index event foundEvent writesEvent releasing =>
      cases ordered.stores_unique found writes foundEvent writesEvent
      have takes := takes_of_writes writesEvent
      rw [releasing, if_pos rfl] at takes
      exact (past_take_succ foundEvent).mpr (.inl ⟨takes, rfl⟩)
  | @fence later index fence event earlier fenced releases foundEvent writesEvent thread =>
      cases ordered.stores_unique found writes foundEvent writesEvent
      have own : Past flow (events.take (i + 1)) (.own fence.thread) i :=
        past_take_own fenced
      have behind : Past flow (events.take (i + 1)) (.releaseFence fence.thread) i :=
        (past_take_succ fenced).mpr (.inl ⟨takes_of_releaseFence releases, rfl⟩)
      have inside := (List.getElem?_eq_some_iff.mp foundEvent).1
      have takes := takes_of_writes writesEvent
      rw [← thread] at takes
      apply (past_take_succ foundEvent).mpr
      split at takes
      · exact .inr ⟨_, takes, own.own_later earlier⟩
      · exact .inr ⟨_, takes, releaseFence_later behind own earlier (Nat.le_of_lt inside)⟩
  | @sequence previousPosition later index previous event heads stored wrote foundEvent
      writesEvent continues inductionHypothesis =>
      cases ordered.stores_unique found writes foundEvent writesEvent
      have earlier := (ordered.stores stored wrote foundEvent writesEvent).mpr (Nat.lt_succ_self _)
      have known : Past flow (events.take later) (.record x index) i := by
        apply (inductionHypothesis stored wrote).later earlier
        intro middle event after _ foundMiddle
        apply takes_self
        intro replaced
        have same := ordered.stores_unique stored wrote foundMiddle (writes_of_replaced replaced)
        omega
      apply (past_take_succ foundEvent).mpr
      exact .inr
        ⟨_, ordered.takes_of_continues stored wrote foundEvent writesEvent continues, known⟩

/-- What is left for acquire fences is never lost. -/
theorem takes_acquireFence (event : Event Tid Value) (t : Tid) :
    Takes event (.acquireFence t) (.acquireFence t) := by
  apply takes_self
  cases event <;> simp [Replaced]

/-- A synchronization object loses nothing. -/
theorem takes_sync (event : Event Tid Value) (m : Address) : Takes event (.sync m) (.sync m) := by
  apply takes_self
  cases event <;> simp [Replaced]

/-- The sequentially consistent fences lose nothing. -/
theorem takes_seqCst (event : Event Tid Value) : Takes event .seqCst .seqCst := by
  apply takes_self
  cases event <;> simp [Replaced]

/-- Unlocking leaves what its thread knows. -/
theorem takes_of_unlocks {m : Address} (unlocks : event.Unlocks m) :
    Takes event (.sync m) (.own event.thread) := by
  apply Or.inr
  cases event <;> simp_all [Event.Unlocks, Joins, Event.thread]

/-- Locking finds what was left. -/
theorem takes_of_locks {m : Address} (locks : event.Locks m) :
    Takes event (.own event.thread) (.sync m) := by
  apply Or.inr
  cases event <;> simp_all [Event.Locks, Joins, Event.thread]

/-- A sequentially consistent fence leaves what its thread knows and finds what
the ones before left. -/
theorem takes_of_seqCstFence (isFence : event.seqCstFence = true) :
    Takes event .seqCst (.own event.thread) ∧ Takes event (.own event.thread) .seqCst := by
  cases event with
  | fence t order => cases order <;> simp_all [Event.seqCstFence, Takes, Joins, Event.thread]
  | _ => simp [Event.seqCstFence] at isFence

/-- A global fence tells every thread what any thread knows. -/
theorem takes_of_isGlobal (isGlobal : event.isGlobal = true) (t u : Tid) :
    Takes event (.own t) (.own u) := by
  apply Or.inr
  cases event <;> simp_all [Event.isGlobal, Joins]

/-- What a thread acquires, it knows of. -/
theorem Ordered.past_of_acquires (ordered : Ordered events) (heads : Heads events x i k)
    (acquires : Acquires events x j k) (found : events[j]? = some event) :
    Past flow (events.take (j + 1)) (.own event.thread) i := by
  cases acquires with
  | load foundLoad reads acquiring =>
      cases found.symm.trans foundLoad
      obtain ⟨stored, before, store, foundStore, writes⟩ := ordered.loads found reads
      have takes := takes_of_reads reads
      rw [acquiring, if_pos rfl] at takes
      apply (past_take_succ found).mpr
      exact .inr ⟨_, takes, ordered.past_record heads foundStore writes before⟩
  | @fence earlier _ load _ before foundLoad reads fenced acquires thread =>
      cases found.symm.trans fenced
      obtain ⟨stored, beforeLoad, store, foundStore, writes⟩ := ordered.loads foundLoad reads
      have inRecord := ordered.past_record heads foundStore writes beforeLoad
      have takes := takes_of_reads reads
      rw [← thread] at takes
      split at takes
      · -- the load has acquired already
        have own : Past flow (events.take (earlier + 1)) (.own event.thread) i :=
          (past_take_succ foundLoad).mpr (.inr ⟨_, takes, inRecord⟩)
        exact own.own_later (Nat.succ_le_succ (Nat.le_of_lt before))
      · have left : Past flow (events.take (earlier + 1)) (.acquireFence event.thread) i :=
          (past_take_succ foundLoad).mpr (.inr ⟨_, takes, inRecord⟩)
        apply (past_take_succ found).mpr
        refine .inr ⟨_, takes_of_acquireFence acquires, left.later before ?_⟩
        exact fun _ _ _ => takes_acquireFence _ _

/-- What is one step before an event is known to its thread. -/
theorem Ordered.past_of_edge (ordered : Ordered events) (edge : Edge events i j)
    (found : events[j]? = some event) :
    Past flow (events.take (j + 1)) (.own event.thread) i := by
  cases edge with
  | sequenced before foundFirst foundSecond thread =>
      cases found.symm.trans foundSecond
      have own : Past flow (events.take (i + 1)) (.own event.thread) i :=
        thread ▸ past_take_own foundFirst
      exact own.own_later (Nat.succ_le_succ (Nat.le_of_lt before))
  | synchronized heads acquires => exact ordered.past_of_acquires heads acquires found
  | locked before foundFirst foundSecond unlocks locks =>
      cases found.symm.trans foundSecond
      have left : Past flow (events.take (i + 1)) (.sync _) i :=
        (past_take_succ foundFirst).mpr (.inl ⟨takes_of_unlocks unlocks, rfl⟩)
      have there := left.later before fun _ _ _ => takes_sync _ _
      exact (past_take_succ found).mpr (.inr ⟨_, takes_of_locks locks, there⟩)
  | fenced before foundFirst foundSecond isFence isFenceSecond =>
      cases found.symm.trans foundSecond
      have left : Past flow (events.take (i + 1)) .seqCst i :=
        (past_take_succ foundFirst).mpr (.inl ⟨(takes_of_seqCstFence isFence).1, rfl⟩)
      have there := left.later before fun _ _ _ => takes_seqCst _
      exact (past_take_succ found).mpr (.inr ⟨_, (takes_of_seqCstFence isFenceSecond).2, there⟩)
  | @global first _ before foundFirst foundSecond isGlobal =>
      cases found.symm.trans foundSecond
      have own : Past flow (events.take (i + 1)) (.own first.thread) i := past_take_own foundFirst
      rcases isGlobal with isGlobal | isGlobal
      · have learned : Past flow (events.take (i + 1)) (.own event.thread) i :=
          (past_take_succ foundFirst).mpr (.inl ⟨takes_of_isGlobal isGlobal _ _, rfl⟩)
        exact learned.own_later (Nat.succ_le_succ (Nat.le_of_lt before))
      · apply (past_take_succ found).mpr
        exact .inr ⟨_, takes_of_isGlobal isGlobal _ first.thread, own.own_later before⟩

omit [DecidableEq Tid] in
/-- An edge leads from an event of the trace. -/
theorem Edge.found (edge : Edge events i j) : ∃ event, events[i]? = some event := by
  have headFound : ∀ {x k}, Heads events x i k → ∃ event, events[i]? = some event := by
    intro x k heads
    induction heads with
    | store found | fence _ found => exact ⟨_, found⟩
    | sequence _ _ _ _ _ _ inductionHypothesis => exact inductionHypothesis
  cases edge with
  | sequenced _ found | locked _ found | fenced _ found | global _ found => exact ⟨_, found⟩
  | synchronized heads => exact headFound heads

/-- What happens before an event is known to its thread. -/
theorem Ordered.past_of_happensBefore (ordered : Ordered events)
    (happensBefore : HappensBefore events i j) (found : events[j]? = some event) :
    Past flow (events.take (j + 1)) (.own event.thread) i := by
  induction happensBefore generalizing event with
  | single edge => exact ordered.past_of_edge edge found
  | tail _ edge inductionHypothesis =>
      obtain ⟨between, foundBetween⟩ := edge.found
      exact (ordered.past_of_edge edge found).take_trans foundBetween
        (inductionHypothesis foundBetween)

/-! ### What is known happens before -/

/-- Why a register knows of an event: a path of happens before leads from it to an
event that left its mark in the register. -/
def Justified (events : List (Event Tid Value)) (n i : Nat) : Reg Tid → Prop
  | .own t => ∃ j < n, ∃ event, events[j]? = some event ∧
      (event.thread = t ∨ event.isGlobal = true) ∧ Relation.ReflTransGen (Edge events) i j
  | .acquireFence t => ∃ j < n, ∃ event x k head, events[j]? = some event ∧ event.Reads x k ∧
      event.thread = t ∧ Heads events x head k ∧ Relation.ReflTransGen (Edge events) i head
  | .releaseFence t => ∃ j < n, ∃ event, events[j]? = some event ∧
      event.releaseFence = true ∧ event.thread = t ∧ Relation.ReflTransGen (Edge events) i j
  | .record x k => ∃ j < n, ∃ event head, events[j]? = some event ∧ event.Writes x k ∧
      Heads events x head k ∧ Relation.ReflTransGen (Edge events) i head
  | .sync m => ∃ j < n, ∃ event, events[j]? = some event ∧ event.Unlocks m ∧
      Relation.ReflTransGen (Edge events) i j
  | .seqCst => ∃ j < n, ∃ event, events[j]? = some event ∧ event.seqCstFence = true ∧
      Relation.ReflTransGen (Edge events) i j

omit [DecidableEq Tid] in
/-- A longer trace justifies as much. -/
theorem Justified.mono (justified : Justified events n i reg) : Justified events (n + 1) i reg := by
  cases reg <;>
    · obtain ⟨j, before, rest⟩ := justified
      exact ⟨j, Nat.lt_succ_of_lt before, rest⟩

/-- What the thread of an event takes over from a register tells what the event is. -/
theorem takes_own_iff : Takes event (.own event.thread) source ↔
    match source with
    | .own t => t = event.thread ∨ event.isGlobal = true
    | .acquireFence t => event.acquireFence = true ∧ event.thread = t
    | .releaseFence _ => False
    | .record x k => event.Reads x k ∧ event.acquiring = true
    | .sync m => event.Locks m
    | .seqCst => event.seqCstFence = true := by
  cases event with
  | fence t order =>
      cases order <;> cases source <;>
        simp only [Takes, Replaced, Joins, Event.isGlobal, Event.acquireFence, Event.Reads,
          Event.Locks, Event.seqCstFence, Event.thread, MemoryOrder.acquires] <;>
        grind
  | _ =>
      cases source <;>
        simp only [Takes, Replaced, Joins, receiver, passed, Event.isGlobal, Event.acquireFence,
          Event.Reads, Event.acquiring, Event.Locks, Event.seqCstFence, Event.thread] <;>
        grind

/-- What a thread takes over in an event leads to the event. -/
theorem Justified.reaches (justified : Justified events n i source)
    (found : events[n]? = some event) (takes : Takes event (.own event.thread) source) :
    Relation.ReflTransGen (Edge events) i n := by
  have whatEvent := takes_own_iff.mp takes
  cases source with
  | own t =>
      obtain ⟨j, before, earlier, foundEarlier, whose, path⟩ := justified
      apply path.tail
      rcases whose with rfl | isGlobal
      · rcases whatEvent with thread | isGlobal
        · exact .sequenced before foundEarlier found thread
        · exact .global before foundEarlier found (.inr isGlobal)
      · exact .global before foundEarlier found (.inl isGlobal)
  | acquireFence t =>
      obtain ⟨j, before, load, x, k, head, foundLoad, reads, thread, heads, path⟩ := justified
      apply path.tail
      apply Edge.synchronized heads
      exact .fence before foundLoad reads found whatEvent.1 (whatEvent.2.trans thread.symm)
  | releaseFence t => exact whatEvent.elim
  | record x k =>
      obtain ⟨j, before, store, head, foundStore, writes, heads, path⟩ := justified
      exact path.tail (.synchronized heads (.load found whatEvent.1 whatEvent.2))
  | sync m =>
      obtain ⟨j, before, store, foundStore, unlocks, path⟩ := justified
      exact path.tail (.locked before foundStore found unlocks whatEvent)
  | seqCst =>
      obtain ⟨j, before, fence, foundFence, isFence, path⟩ := justified
      exact path.tail (.fenced before foundFence found isFence whatEvent)

/-- What leads to an event is known to all that learn of the event. -/
theorem justified_of_reaches (path : Relation.ReflTransGen (Edge events) i n)
    (found : events[n]? = some event) (takes : Takes event reg (.own event.thread)) :
    Justified events (n + 1) i reg := by
  have now := Nat.lt_succ_self n
  have ofOwn : ∀ t, (event.thread = t ∨ event.isGlobal = true) →
      Justified events (n + 1) i (.own t) :=
    fun t whose => ⟨n, now, event, found, whose, path⟩
  have ofRelease : event.releaseFence = true →
      Justified events (n + 1) i (.releaseFence event.thread) :=
    fun releases => ⟨n, now, event, found, releases, rfl, path⟩
  rcases takes with ⟨rfl, _⟩ | joins
  · exact ofOwn _ (.inl rfl)
  · cases event with
    | store t x order index previous value =>
        obtain ⟨rfl, passes⟩ := joins
        have releases : order.releases = true := by
          simp only [passed, Event.thread] at passes
          grind
        exact ⟨n, now, _, n, found, ⟨rfl, rfl⟩, .store found ⟨rfl, rfl⟩ releases, path⟩
    | rmw t x order index value =>
        obtain ⟨rfl, releases⟩ : reg = .record x (index + 1) ∧ order.releases = true := by
          simp only [Joins, passed, Event.thread] at joins
          grind
        exact ⟨n, now, _, n, found, ⟨rfl, rfl⟩, .store found ⟨rfl, rfl⟩ releases, path⟩
    | fence t order =>
        cases order with
        | release =>
            obtain ⟨rfl, _⟩ := joins
            exact ofRelease rfl
        | acqRel =>
            rcases joins.1 with rfl | rfl
            · exact ofOwn _ (.inl rfl)
            · exact ofRelease rfl
        | seqCst =>
            rcases joins.1 with rfl | rfl | rfl
            · exact ofOwn _ (.inl rfl)
            · exact ofRelease rfl
            · exact ⟨n, now, _, found, rfl, path⟩
        | acquire => simp [Joins] at joins
        | relaxed | consume => exact joins.elim
    | released t m =>
        obtain ⟨rfl, _⟩ := joins
        exact ⟨n, now, _, found, rfl, path⟩
    | acqReled t m =>
        rcases joins.1 with rfl | rfl
        · exact ofOwn _ (.inl rfl)
        · exact ⟨n, now, _, found, rfl, path⟩
    | globalFence t =>
        obtain ⟨⟨u, rfl⟩, _⟩ := joins
        exact ofOwn u (.inr rfl)
    | load => simp [Joins] at joins
    | acquired => simp [Joins] at joins
    | access | yielded | raced | uninitialized => exact joins.elim

/-- What a register takes over is justified. -/
theorem Ordered.justified_step (ordered : Ordered events) (justified : Justified events n i source)
    (found : events[n]? = some event) (takes : Takes event reg source) :
    Justified events (n + 1) i reg := by
  have now := Nat.lt_succ_self n
  by_cases byThread : Takes event reg (.own event.thread) ∧ Takes event (.own event.thread) source
  · exact justified_of_reaches (justified.reaches found byThread.2) found byThread.1
  rcases takes with ⟨rfl, _⟩ | joins
  · exact justified.mono
  cases event with
  | load t x order index value =>
      obtain ⟨rfl, rfl⟩ := joins
      by_cases acquires : order.acquires = true
      · refine absurd ⟨?_, takes_own_iff.mpr ⟨⟨rfl, rfl⟩, acquires⟩⟩ byThread
        rw [receiver, if_pos acquires]
        exact takes_own _ _
      · obtain ⟨j, before, store, head, foundStore, writes, heads, path⟩ := justified
        rw [receiver, if_neg acquires]
        exact ⟨n, now, _, x, index, head, found, ⟨rfl, rfl⟩, rfl, heads, path⟩
  | store t x order index previous value =>
      obtain ⟨rfl, rfl | ⟨preserved, rfl⟩⟩ := joins
      · by_cases releases : order.releases = true
        · have whose : passed t order = .own t := by rw [passed, if_pos releases]
          rw [whose] at byThread
          exact absurd ⟨.inr ⟨rfl, .inl whose.symm⟩, takes_own _ _⟩ byThread
        · rw [passed, if_neg releases] at justified
          obtain ⟨j, before, fence, foundFence, isRelease, thread, path⟩ := justified
          exact ⟨n, now, _, j, found, ⟨rfl, rfl⟩,
            .fence before foundFence isRelease found ⟨rfl, rfl⟩ thread, path⟩
      · obtain ⟨j, before, store, head, foundStore, writes, heads, path⟩ := justified
        obtain ⟨k, rfl, whose⟩ := ordered.previous found
        obtain ⟨u, rfl, same⟩ : ∃ u, previous = some u ∧ u = t := by
          simpa [preserves, Option.any_eq_true] using preserved
        subst same
        obtain ⟨last, other, foundOther, wrote, thread⟩ := (whose u).mp rfl
        exact ⟨n, now, _, head, found, ⟨rfl, rfl⟩,
          .sequence heads foundOther wrote found ⟨rfl, rfl⟩ (.inr thread.symm), path⟩
  | rmw t x order index value =>
      rcases joins with ⟨isReceiver, rfl⟩ | ⟨rfl, rfl⟩
      · obtain ⟨j, before, store, head, foundStore, writes, heads, path⟩ := justified
        rcases isReceiver with rfl | rfl
        · by_cases acquires : order.acquires = true
          · refine absurd ⟨?_, takes_own_iff.mpr ⟨⟨rfl, rfl⟩, acquires⟩⟩ byThread
            rw [receiver, if_pos acquires]
            exact takes_own _ _
          · rw [receiver, if_neg acquires]
            exact ⟨n, now, _, x, index, head, found, ⟨rfl, rfl⟩, rfl, heads, path⟩
        · exact ⟨n, now, _, head, found, ⟨rfl, rfl⟩,
            .sequence heads foundStore writes found ⟨rfl, rfl⟩ (.inl rfl), path⟩
      · by_cases releases : order.releases = true
        · have whose : passed t order = .own t := by rw [passed, if_pos releases]
          rw [whose] at byThread
          exact absurd ⟨.inr (.inr ⟨rfl, whose.symm⟩), takes_own _ _⟩ byThread
        · rw [passed, if_neg releases] at justified
          obtain ⟨j, before, fence, foundFence, isRelease, thread, path⟩ := justified
          exact ⟨n, now, _, j, found, ⟨rfl, rfl⟩,
            .fence before foundFence isRelease found ⟨rfl, rfl⟩ thread, path⟩
  | fence t order =>
      refine absurd ?_ byThread
      cases order <;>
        simp only [Joins, Takes, Replaced, Event.thread] at joins ⊢ <;>
        grind
  | acquired t m =>
      obtain ⟨rfl, rfl⟩ := joins
      exact absurd ⟨takes_own _ _, takes_own_iff.mpr rfl⟩ byThread
  | released t m =>
      obtain ⟨rfl, rfl⟩ := joins
      exact absurd ⟨.inr ⟨rfl, rfl⟩, takes_own _ _⟩ byThread
  | acqReled t m =>
      refine absurd ⟨.inr ⟨joins.1, .inl rfl⟩, ?_⟩ byThread
      rcases joins.2 with rfl | rfl
      · exact takes_own _ _
      · exact takes_own_iff.mpr rfl
  | globalFence t =>
      obtain ⟨⟨u, rfl⟩, ⟨v, rfl⟩⟩ := joins
      exact absurd ⟨takes_of_isGlobal rfl _ _, takes_of_isGlobal rfl _ _⟩ byThread
  | access | yielded | raced | uninitialized => exact joins.elim

/-- Whatever a register knows of is justified. -/
theorem Ordered.justified (ordered : Ordered events) (inside : n ≤ events.length)
    (past : Past flow (events.take n) reg i) : Justified events n i reg := by
  induction n generalizing reg with
  | zero => exact absurd past not_past_nil
  | succ n inductionHypothesis =>
      have found := List.getElem?_eq_getElem inside
      rcases (past_take_succ found).mp past with ⟨takes, rfl⟩ | ⟨source, takes, known⟩
      · exact justified_of_reaches .refl found takes
      · have justified := inductionHypothesis (Nat.le_of_succ_le inside) known
        exact ordered.justified_step justified found takes

/-- A thread knows of an event exactly if it is its own last one or happens before
that. -/
theorem Ordered.past_iff_happensBefore (ordered : Ordered events)
    (found : events[j]? = some event) :
    Past flow (events.take (j + 1)) (.own event.thread) i ↔
      i = j ∨ HappensBefore events i j := by
  constructor
  · intro past
    have inside := (List.getElem?_eq_some_iff.mp found).1
    rcases (past_take_succ found).mp past with ⟨_, last⟩ | ⟨source, takes, known⟩
    · exact .inl last
    · have path := (ordered.justified (Nat.le_of_lt inside) known).reaches found takes
      exact (Relation.reflTransGen_iff_eq_or_transGen.mp path).imp Eq.symm id
  · rintro (rfl | happensBefore)
    · exact past_take_own found
    · exact ordered.past_of_happensBefore happensBefore found

/-- A thread knows of an event before its next one exactly if the one happens
before the other, when nothing is handed on with it. -/
theorem Ordered.past_before_iff (ordered : Ordered events)
    (found : events[j]? = some event) (before : i < j)
    (alone : ∀ source, Takes event (.own event.thread) source → source = .own event.thread) :
    Past flow (events.take j) (.own event.thread) i ↔ HappensBefore events i j := by
  have after := ordered.past_iff_happensBefore (i := i) found
  rw [past_take_succ found] at after
  constructor
  · intro past
    have known := after.mp (.inr ⟨_, takes_own event _, past⟩)
    exact known.resolve_left (Nat.ne_of_lt before)
  · intro happensBefore
    rcases after.mpr (.inr happensBefore) with ⟨_, same⟩ | ⟨source, takes, past⟩
    · exact absurd same (Nat.ne_of_lt before)
    · exact alone source takes ▸ past

/-- What heads a release sequence comes no later than its stores. -/
theorem Ordered.le_of_heads (ordered : Ordered events) (heads : Heads events x i k)
    {store : Event Tid Value} (found : events[j]? = some store) (writes : store.Writes x k) :
    i ≤ j := by
  have bound := (ordered.past_record heads found writes (Nat.lt_succ_self j)).lt
  rw [List.length_take] at bound
  omega

/-- Happens before goes with the trace. -/
theorem Ordered.lt_of_edge (ordered : Ordered events) (edge : Edge events i j) : i < j := by
  cases edge with
  | sequenced before | locked before | fenced before | global before => exact before
  | synchronized heads acquires =>
      cases acquires with
      | load found reads =>
          obtain ⟨p, before, store, foundStore, writes⟩ := ordered.loads found reads
          exact Nat.lt_of_le_of_lt (ordered.le_of_heads heads foundStore writes) before
      | fence later found reads =>
          obtain ⟨p, before, store, foundStore, writes⟩ := ordered.loads found reads
          have bound := ordered.le_of_heads heads foundStore writes
          omega

/-- What happens before an event comes before it in the trace. -/
theorem Ordered.lt_of_happensBefore (ordered : Ordered events)
    (happensBefore : HappensBefore events i j) : i < j := by
  induction happensBefore with
  | single edge => exact ordered.lt_of_edge edge
  | tail _ edge inductionHypothesis =>
      exact Nat.lt_trans inductionHypothesis (ordered.lt_of_edge edge)

/-- What a record holds was known before it was stored. -/
theorem Ordered.le_of_past_record (ordered : Ordered events) {store : Event Tid Value}
    (inside : n ≤ events.length) (past : Past flow (events.take n) (.record x k) i)
    (found : events[j]? = some store) (writes : store.Writes x k) : i ≤ j := by
  obtain ⟨_, _, _, head, _, _, heads, path⟩ := ordered.justified inside past
  have headBefore := ordered.le_of_heads heads found writes
  rcases Relation.reflTransGen_iff_eq_or_transGen.mp path with rfl | happensBefore
  · exact headBefore
  · exact Nat.le_trans (Nat.le_of_lt (ordered.lt_of_happensBefore happensBefore)) headBefore

end LockFree.Relacy
