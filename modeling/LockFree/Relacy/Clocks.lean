import LockFree.Relacy.Histories

/-!
# The vector clocks of a run

`Stamped` follows a run and notes which timestamps each event takes from the
clock of its thread. All orders that the simulator keeps track what `flow` hands
on, so what a clock covers is what happens before.
-/

namespace LockFree.Relacy

open Causality

variable {Tid Value : Type} [DecidableEq Tid]

/-- The order a register holds. -/
def State.clock (s : State Tid Value) : Reg Tid → Clock Tid
  | .own t => (s.threads t).acqRelOrder
  | .acquireFence t => (s.threads t).acquireFenceOrder
  | .releaseFence t => (s.threads t).releaseFenceOrder
  | .record x index => ((s.atomics x).history index).acqRelOrder
  | .sync m => s.syncs m
  | .seqCst => s.seqCstFenceOrder

/-- The orders when the clock of the thread has advanced. -/
def State.ticked (s : State Tid Value) (event : Event Tid Value) (reg : Reg Tid) (u : Tid) : Nat :=
  if reg = .own event.thread ∧ u = event.thread then s.clock reg u + event.ticks
  else s.clock reg u

section Clock

variable {s s' : State Tid Value} {event : Event Tid Value} {t u : Tid} {x m : Address}
    {reg : Reg Tid}
  {order : MemoryOrder} {index : Nat} {value : Value} {random : Bool}

omit [DecidableEq Tid] in
/-- What the registers hold. -/
theorem clock_apply (s : State Tid Value) :
    (∀ t, s.clock (.own t) = (s.threads t).acqRelOrder) ∧
    (∀ t, s.clock (.acquireFence t) = (s.threads t).acquireFenceOrder) ∧
    (∀ t, s.clock (.releaseFence t) = (s.threads t).releaseFenceOrder) ∧
    (∀ x index, s.clock (.record x index) = ((s.atomics x).history index).acqRelOrder) ∧
    (∀ m, s.clock (.sync m) = s.syncs m) ∧ s.clock .seqCst = s.seqCstFenceOrder :=
  ⟨fun _ => rfl, fun _ => rfl, fun _ => rfl, fun _ _ => rfl, fun _ => rfl, rfl⟩

theorem ticked_own (s : State Tid Value) (event : Event Tid Value) :
    s.ticked event (.own event.thread) event.thread =
    s.clock (.own event.thread) event.thread + event.ticks := by
  simp [State.ticked]

theorem ticked_rest (rest : reg ≠ .own event.thread ∨ u ≠ event.thread) :
    s.ticked event reg u = s.clock reg u :=
  if_neg (not_and_or.mpr rest)

omit [DecidableEq Tid] in
@[simp] theorem clock_noteFailure (s : State Tid Value) (x : Address) (failed : Bool) :
    (s.noteFailure x failed).clock = s.clock := by
  funext reg
  cases reg with
  | record y index =>
      by_cases same : y = x
      · subst same
        simp [State.clock, State.noteFailure]
      · simp [State.clock, State.noteFailure, same]
  | _ => rfl

@[simp] theorem clock_setThread (s : State Tid Value) (t : Tid) (th : ThreadInfo Tid) (u : Tid) :
    (s.setThread t th).clock reg u =
      if reg = .own t then th.acqRelOrder u
      else if reg = .acquireFence t then th.acquireFenceOrder u
      else if reg = .releaseFence t then th.releaseFenceOrder u
      else s.clock reg u := by
  cases reg with
  | own v | acquireFence v | releaseFence v =>
      by_cases same : v = t
      · subst same
        simp [State.clock]
      · simp [State.clock, same]
  | _ => simp [State.clock]

omit [DecidableEq Tid] in
@[simp] theorem clock_setVar (s : State Tid Value) (v : Address) (data : Var Tid Value) :
    (s.setVar v data).clock = s.clock := by
  funext reg
  cases reg <;> rfl

omit [DecidableEq Tid] in
@[simp] theorem clock_failed (s : State Tid Value) (failed : Bool) :
    ({ s with failed } : State Tid Value).clock = s.clock := by
  funext reg
  cases reg <;> rfl

@[simp] theorem clock_setSync (s : State Tid Value) (order : Clock Tid) :
    (s.setSync m order).clock reg u = if reg = .sync m then order u else s.clock reg u := by
  cases reg with
  | sync n =>
      by_cases same : n = m
      · subst same
        simp [State.clock]
      · simp [State.clock, same]
  | _ => simp [State.clock]

@[simp] theorem clock_seqCstFenceOrder (s : State Tid Value) (order : Clock Tid) :
    ({ s with seqCstFenceOrder := order } : State Tid Value).clock reg u =
      if reg = .seqCst then order u else s.clock reg u := by
  cases reg <;> simp [State.clock]

theorem clock_setAtomic (s : State Tid Value) (index : Nat) {data : Atomic Tid Value}
    {record : Record Tid Value}
    (isHistory : data.history = Function.update (s.atomics x).history index record) :
    (s.setAtomic x data).clock reg u =
      if reg = .record x index then record.acqRelOrder u else s.clock reg u := by
  cases reg with
  | record y k =>
      by_cases same : y = x
      · subst same
        by_cases sameIndex : k = index
        · subst sameIndex
          simp [State.clock, isHistory]
        · simp [State.clock, isHistory, sameIndex]
      · simp [State.clock, same]
  | _ => simp [State.clock]

/-- What a register receives, from what it keeps and what joins it. -/
theorem exists_takes_iff {covers : Reg Tid → Prop} :
    (∃ source, Takes event reg source ∧ covers source) ↔
      ¬ Replaced event reg ∧ covers reg ∨ ∃ source, Joins event reg source ∧ covers source := by
  simp only [Takes, or_and_right, exists_or, and_assoc, exists_eq_left]

/-- The orders after a load. -/
theorem clock_atomicLoad (s : State Tid Value) (value : Value) :
    (atomicLoad (whole random) s t x order index).clock reg u =
      if reg = receiver t order then
        max (s.ticked (.load t x order index value) reg u) (s.clock (.record x index) u)
      else s.ticked (.load t x order index value) reg u := by
  have seen : (atomicLoad (whole random) s t x order index).clock reg u =
      (s.setThread t (((s.threads t).tick t).see order ((s.atomics x).history index))).clock reg
        u := by
    refine (clock_setAtomic _ index rfl).trans ?_
    rw [see_acqRelOrder]
    split
    · simp_all [State.clock, whole]
    · rfl
  rw [seen, clock_setThread]
  simp only [ThreadInfo.see, State.ticked, receiver, Event.thread, Event.ticks]
  by_cases acquires : order.acquires = true <;> cases reg <;>
    simp [acquires, State.clock] <;> grind

/-- What the registers cover after a load. -/
theorem moves_atomicLoad (s : State Tid Value) (value : Value) (count : Nat) :
    count ≤ (atomicLoad (whole random) s t x order index).clock reg u ↔
      ∃ source, Takes (Event.load t x order index value) reg source ∧
        count ≤ s.ticked (Event.load t x order index value) source u := by
  rw [exists_takes_iff, clock_atomicLoad s value]
  simp only [Joins, Replaced, not_false_eq_true, true_and, and_assoc, exists_and_left,
    exists_eq_left]
  have record : s.ticked (.load t x order index value) (.record x index) u =
      s.clock (.record x index) u := ticked_rest (.inl (by simp))
  rw [record]
  split <;> simp_all

/-- The orders after a store. -/
theorem clock_atomicStore (s : State Tid Value) {rmw : Bool} {current : Nat} {previous : Option Tid}
    (isCurrent : (s.atomics x).currentIndex = current)
    (isPrevious : ((s.atomics x).history current).owner = previous) :
    (atomicStore (whole random) s t x order rmw value).clock reg u =
      if reg = .record x (current + 1) then
        if preserves rmw t previous then
          max (s.clock (.record x current) u)
            (s.ticked (.store t x order (current + 1) previous value) (passed t order) u)
        else s.ticked (.store t x order (current + 1) previous value) (passed t order) u
      else s.ticked (.store t x order (current + 1) previous value) reg u := by
  subst isCurrent isPrevious
  have stored : (atomicStore (whole random) s t x order rmw value).clock reg u =
      if reg = .record x ((s.atomics x).currentIndex + 1) then _
      else (s.setThread t ((s.threads t).tick t)).clock reg u :=
    clock_setAtomic _ _ rfl
  rw [stored, clock_setThread]
  simp only [passed, State.ticked, Event.thread, Event.ticks]
  by_cases isRecord : reg = .record x ((s.atomics x).currentIndex + 1)
  · simp only [isRecord, if_true]
    by_cases releases : order.releases = true <;>
      by_cases preserved : preserves rmw t
        ((s.atomics x).history (s.atomics x).currentIndex).owner = true <;>
      simp [releases, preserved, whole, State.clock, Function.update_apply] <;> grind
  · simp only [isRecord, if_false]
    cases reg <;> simp [State.clock, Function.update_apply] <;> grind

/-- What the registers cover after a store. -/
theorem moves_atomicStore (s : State Tid Value) (count : Nat) {current : Nat}
    {previous : Option Tid} (isCurrent : (s.atomics x).currentIndex = current)
    (isPrevious : ((s.atomics x).history current).owner = previous) :
    count ≤ (atomicStore (whole random) s t x order false value).clock reg u ↔
      ∃ source, Takes (Event.store t x order (current + 1) previous value) reg source ∧
        count ≤ s.ticked (Event.store t x order (current + 1) previous value) source u := by
  rw [exists_takes_iff, clock_atomicStore s isCurrent isPrevious]
  have record : s.ticked (.store t x order (current + 1) previous value) (.record x current) u =
      s.clock (.record x current) u := ticked_rest (.inl (by simp))
  by_cases isRecord : reg = .record x (current + 1)
  · by_cases preserved : preserves false t previous = true <;>
      simp [isRecord, Joins, Replaced, preserved, or_and_right, exists_or, record, or_comm]
  · simp [isRecord, Joins, Replaced]

/-- The orders after a read-modify-write. -/
theorem clock_atomicRmw (s : State Tid Value) {current : Nat}
    (isCurrent : (s.atomics x).currentIndex = current)
    (owned : ((s.atomics x).history current).owner.isSome = true)
    (bounded : ∀ reg u, s.clock reg u ≤ s.clock (.own u) u) :
    (atomicRmw (whole random) s t x order value).clock reg u =
      if reg = .record x (current + 1) then
        max (s.clock (.record x current) u)
          (s.ticked (.rmw t x order current value) (passed t order) u)
      else if reg = receiver t order then
        max (s.clock (.record x current) u) (s.ticked (.rmw t x order current value) reg u)
      else s.ticked (.rmw t x order current value) reg u := by
  subst isCurrent
  have owner : (((atomicLoad (whole random) s t x order (s.atomics x).currentIndex).atomics
      x).history (s.atomics x).currentIndex).owner =
      ((s.atomics x).history (s.atomics x).currentIndex).owner := by
    simp [atomicLoad, Atomic.setRecord, whole]
  have sameIndex : ((atomicLoad (whole random) s t x order (s.atomics x).currentIndex).atomics
      x).currentIndex = (s.atomics x).currentIndex := by
    simp [atomicLoad, Atomic.setRecord]
  have preserved : preserves true t
      ((s.atomics x).history (s.atomics x).currentIndex).owner = true := by
    simpa [preserves, Option.any_eq_true, Option.isSome_iff_exists] using owned
  rw [atomicRmw, clock_atomicStore _ sameIndex owner, if_pos preserved]
  have bound := bounded (.record x (s.atomics x).currentIndex) t
  simp only [State.ticked, clock_atomicLoad s value, Event.thread, Event.ticks]
  by_cases releases : order.releases = true <;> by_cases acquires : order.acquires = true <;>
    by_cases same : u = t <;> simp [passed, receiver, releases, acquires, same] <;> grind

/-- What the registers cover after a read-modify-write. -/
theorem moves_atomicRmw (s : State Tid Value) (count : Nat) {current : Nat}
    (isCurrent : (s.atomics x).currentIndex = current)
    (owned : ((s.atomics x).history current).owner.isSome = true)
    (bounded : ∀ reg u, s.clock reg u ≤ s.clock (.own u) u) :
    count ≤ (atomicRmw (whole random) s t x order value).clock reg u ↔
      ∃ source, Takes (Event.rmw t x order current value) reg source ∧
        count ≤ s.ticked (Event.rmw t x order current value) source u := by
  rw [exists_takes_iff, clock_atomicRmw s isCurrent owned bounded]
  have record : s.ticked (.rmw t x order current value) (.record x current) u =
      s.clock (.record x current) u := ticked_rest (.inl (by simp))
  by_cases isRecord : reg = .record x (current + 1)
  · simp [isRecord, Joins, Replaced, or_and_right, exists_or, record]
  · by_cases isReceiver : reg = receiver t order
    · rw [isReceiver] at isRecord ⊢
      simp [isRecord, Joins, Replaced, record, or_comm]
    · simp [isRecord, isReceiver, Joins, Replaced]

/-- What the registers cover after a step, unless all threads meet in it. -/
theorem moves_of_effect [Fintype Tid] (effect : Effect (whole random) s event s')
    (apart : event.isGlobal = false) (bounded : ∀ reg u, s.clock reg u ≤ s.clock (.own u) u)
    (owned : ∀ x, (s.atomics x).initialized = true →
      ((s.atomics x).history (s.atomics x).currentIndex).owner.isSome = true) (count : Nat) :
    count ≤ s'.clock reg u ↔
      ∃ source, Takes event reg source ∧ count ≤ s.ticked event source u := by
  cases effect with
  | @load t x order index failed =>
      have moves : count ≤
          (atomicLoad (whole random) (s.noteFailure x failed) t x order index).clock
          reg u ↔ _ :=
        moves_atomicLoad (s.noteFailure x failed)
          ((s.atomics x).history ((whole random).slot index)).value count
      simpa only [State.ticked, clock_noteFailure] using moves
  | store => exact moves_atomicStore s count rfl rfl
  | @rmw t x order value initialized =>
      exact moves_atomicRmw s count rfl (owned x initialized) bounded
  | acquireFence | releaseFence | acqRelFence | acquired | released | acqReled | yielded | varLoad
  | varStore | racedLoad | racedStore | uninitialized =>
      rw [exists_takes_iff]
      simp only [syncAcquire, syncRelease, syncAcqRel, clock_setThread, clock_setSync,
        clock_setVar, clock_failed, clock_noteFailure, Joins, or_and_right, exists_or, and_assoc,
        exists_and_left, exists_eq_left]
      cases reg <;>
        simp [State.ticked, Replaced, Event.thread, Event.ticks, MemoryOrder.releases,
          ThreadInfo.fenceAcquire, ThreadInfo.fenceRelease, clock_apply, Function.update_apply] <;>
        grind
  | seqCstFence joined =>
      subst joined
      rw [exists_takes_iff]
      simp only [clock_seqCstFenceOrder, clock_setThread, Joins, or_and_right, exists_or, and_assoc,
        exists_and_left, exists_eq_left]
      cases reg <;>
        simp [State.ticked, Replaced, Event.thread, Event.ticks, MemoryOrder.releases,
          ThreadInfo.fenceAcquire, ThreadInfo.fenceRelease, clock_apply] <;>
        grind
  | globalFence => simp [Event.isGlobal] at apart

/-- When all threads meet, each covers what any of them covers. -/
theorem clock_globalFence [Fintype Tid] (s : State Tid Value) :
    (globalFence s).clock reg u = if (∃ t, reg = .own t) then
      Finset.univ.sup fun t => s.clock (.own t) t else s.clock reg u := by
  cases reg <;> simp [globalFence, State.clock]

/-- The clocks go on tracking what is handed on. -/
theorem tracks_step [Fintype Tid] {events : List (Event Tid Value)} {stamps : Nat → Nat → Prop}
    (tracks : Tracks flow stamps events s.clock) (recorded : Recorded events s)
    (effect : Effect (whole random) s event s') :
    Tracks flow (stampsAfter stamps events.length (s.clock (.own event.thread) event.thread)
      (s.clock (.own event.thread) event.thread + event.ticks)) (events ++ [event]) s'.clock := by
  have advanced := ticked_own s event
  rw [← advanced]
  have grows : s.clock (.own event.thread) event.thread ≤
      s.ticked event (.own event.thread) event.thread := advanced ▸ Nat.le_add_right _ _
  by_cases apart : event.isGlobal = false
  · have moves : ∀ reg u count, 0 < count → (count ≤ s'.clock reg u ↔
        ∃ source, Takes event reg source ∧ count ≤ s.ticked event source u) :=
      fun reg u count _ =>
        moves_of_effect effect apart tracks.bounded (fun x => recorded.owned) count
    exact tracks.step_exact grows (fun reg u rest => ticked_rest rest) moves
  · obtain ⟨t, rfl⟩ : ∃ t, event = .globalFence t := by
      cases event <;> simp_all [Event.isGlobal]
    cases effect
    have still : s.ticked (.globalFence t : Event Tid Value) = s.clock := by
      funext reg u
      simp [State.ticked, Event.ticks]
    have latest : ∀ u, s.clock (.own u) u ≤ Finset.univ.sup fun t => s.clock (.own t) t :=
      fun u => Finset.le_sup (f := fun t => s.clock (.own t) t) (Finset.mem_univ u)
    have moves : ∀ reg u count, 0 < count →
        count ≤ s.ticked (.globalFence t : Event Tid Value) (.own u) u →
        (count ≤ (globalFence s).clock reg u ↔ ∃ source,
          Takes (Event.globalFence t : Event Tid Value) reg source ∧
            count ≤ s.ticked (.globalFence t : Event Tid Value) source u) := by
      intro reg u count _ covered
      rw [still] at covered ⊢
      rw [clock_globalFence, exists_takes_iff]
      split
      · rename_i own
        -- the thread whose time it is knows it, and tells the others
        exact iff_of_true (Nat.le_trans covered (latest u)) (.inr ⟨.own u, ⟨own, u, rfl⟩, covered⟩)
      · rename_i other
        simp [Replaced, Joins, not_exists.mp other]
    apply tracks.step grows (fun reg u rest => ticked_rest rest) moves
    intro reg u
    rw [clock_globalFence, clock_globalFence]
    rw [if_pos (show ∃ t, (flow.own u : Reg Tid) = .own t from ⟨u, rfl⟩)]
    split
    · exact Nat.le_refl _
    · exact Nat.le_trans (tracks.bounded reg u) (latest u)

end Clock

/-! ### Runs -/

section Run

variable [Fintype Tid] [DecidableEq Value] [Inhabited Value] {random : Bool}

/-- A run, with the timestamps that each of its events takes. -/
inductive Stamped (random : Bool) :
    List (Event Tid Value) → State Tid Value → (Nat → Nat → Prop) → Prop where
  | start : Stamped random [] initial fun _ _ => False
  | step {events s stamps event s'} (prior : Stamped random events s stamps)
      (transition : (machine (whole random)).Step s event s') :
      Stamped random (events ++ [event]) s'
        (stampsAfter stamps events.length (s.clock (.own event.thread) event.thread)
          (s.clock (.own event.thread) event.thread + event.ticks))

variable {events : List (Event Tid Value)} {s : State Tid Value} {stamps : Nat → Nat → Prop}

/-- Every run takes some timestamps. -/
theorem exists_stamped (run : (machine (whole random)).Steps initial events s) :
    ∃ stamps, Stamped random events s stamps := by
  induction run with
  | refl => exact ⟨_, .start⟩
  | step _ transition _ inductionHypothesis =>
      obtain ⟨stamps, stamped⟩ := inductionHypothesis
      exact ⟨_, .step stamped transition⟩

/-- The histories hold the stores of a run. -/
theorem Stamped.recorded (stamped : Stamped random events s stamps) : Recorded events s := by
  induction stamped with
  | start => exact recorded_initial
  | step _ transition inductionHypothesis =>
      exact inductionHypothesis.step (effect_of_step transition).2

/-- The clocks of a run track what its operations hand on. -/
theorem Stamped.tracks (stamped : Stamped random events s stamps) :
    Tracks flow stamps events s.clock := by
  induction stamped with
  | start =>
      apply tracks_nil
      intro reg u
      cases reg <;> simp [flow, initial, State.clock, Function.update_apply]
      split <;> simp
  | step prior transition inductionHypothesis =>
      exact tracks_step inductionHypothesis prior.recorded (effect_of_step transition).2

/-- The step an event of a run records, with the timestamps up to it. -/
theorem exists_stamped_at (run : (machine (whole random)).Steps initial events s) {j : Nat}
    {event : Event Tid Value} (found : events[j]? = some event) :
    ∃ before after stamps, Stamped random (events.take j) before stamps ∧
      Effect (whole random) before event after := by
  obtain ⟨bound, same⟩ := List.getElem?_eq_some_iff.mp found
  have parts : events = events.take j ++ event :: events.drop (j + 1) := by
    rw [← same, ← List.drop_eq_getElem_cons bound, List.take_append_drop]
  obtain ⟨before, after, prior, step, _, _⟩ := run.stepAt parts
  obtain ⟨stamps, stamped⟩ := exists_stamped prior
  exact ⟨before, after, stamps, stamped, (effect_of_step step).2⟩

end Run

end LockFree.Relacy
