import LockFree.Relacy.Effects

/-!
# Three records are enough

The source keeps `atomic_history_size` records of each atomic, in a ring. A load
never steps back further than that, so the machine of the source and the one that
forgets nothing answer alike: on the last three indices they hold the same
records.
-/

namespace LockFree.Relacy

variable {Tid Value : Type}

/-- The history of the source. -/
def source (random : Bool) : Setting := ⟨ring, random⟩

/-- The ring holds the newest records of the whole history. -/
structure Windowed (data data' : Atomic Tid Value) : Prop where
  currentIndex : data.currentIndex = data'.currentIndex
  value : data.value = data'.value
  initialized : data.initialized = data'.initialized
  alreadyFailed : data.alreadyFailed = data'.alreadyFailed
  history : ∀ k, k ≤ data'.currentIndex → data'.currentIndex < k + atomicHistorySize →
    data.history (ring k) = data'.history k

/-- The states agree but for records that the ring has lost. -/
structure Window (s s' : State Tid Value) : Prop where
  threads : s.threads = s'.threads
  vars : s.vars = s'.vars
  syncs : s.syncs = s'.syncs
  seqCstFenceOrder : s.seqCstFenceOrder = s'.seqCstFenceOrder
  failed : s.failed = s'.failed
  atomics : ∀ x, Windowed (s.atomics x) (s'.atomics x)

/-- Two steps show the same and lead to states that agree again. -/
def Agree (result result' : Event Tid Value × State Tid Value) : Prop :=
  result.1 = result'.1 ∧ Window result.2 result'.2

/-- Different indices of a window have different places in the ring. -/
theorem ring_injective {k l current : Nat} (below : k ≤ current)
    (near : current < k + atomicHistorySize) (belowToo : l ≤ current)
    (nearToo : current < l + atomicHistorySize) (same : ring k = ring l) : k = l := by
  simp only [ring, atomicHistorySize] at *
  omega

section Search

variable [Fintype Tid] {data data' : Atomic Tid Value} {th : ThreadInfo Tid} {t : Tid}
  {order : MemoryOrder} {stop : Nat → Bool} {random rmw : Bool}

/-- A search that stays inside the window finds the same. -/
theorem searchIndex_window (windowed : Windowed data data') {rounds i index : Nat}
    (below : index ≤ data'.currentIndex)
    (near : data'.currentIndex + rounds < index + atomicHistorySize) :
    searchIndex (source random) data th t order stop rounds i index =
      searchIndex (whole random) data' th t order stop rounds i index := by
  induction rounds generalizing i index with
  | zero => rfl
  | succ rounds inductionHypothesis =>
      have here : data.history (ring index) = data'.history index :=
        windowed.history index below (by omega)
      have previous : data.history (ring (index - 1)) = data'.history (index - 1) :=
        windowed.history (index - 1) (by omega) (by omega)
      have rest : ∀ i, searchIndex (source random) data th t order stop rounds i (index - 1) =
          searchIndex (whole random) data' th t order stop rounds i (index - 1) := by
        intro i
        apply inductionHypothesis (by omega)
        simp only [atomicHistorySize] at near ⊢
        omega
      simp only [searchIndex, rest]
      simp only [source, whole, id, here, previous]
      rfl

/-- A load sees the same record. -/
theorem getLoadIndex_window (windowed : Windowed data data') :
    getLoadIndex (source random) data th t order rmw stop =
      getLoadIndex (whole random) data' th t order rmw stop := by
  have reach : (whole random).reach < atomicHistorySize := by
    simp only [Setting.reach, atomicHistorySize]
    split <;> omega
  have current := windowed.history data'.currentIndex (Nat.le_refl _)
    (Nat.lt_add_of_pos_right (by decide))
  cases rmw with
  | true =>
      change (if (data.history (ring data.currentIndex)).busy = true then some data.currentIndex
        else none) = if (data'.history data'.currentIndex).busy = true then
          some data'.currentIndex else none
      rw [windowed.currentIndex, current]
  | false =>
      have same : searchIndex (source random) data th t order stop (whole random).reach 0
          data'.currentIndex = searchIndex (whole random) data' th t order stop
            (whole random).reach 0 data'.currentIndex :=
        searchIndex_window windowed (Nat.le_refl _) (Nat.add_lt_add_left reach _)
      change (searchIndex (source random) data th t order stop (whole random).reach 0
          data.currentIndex).bind (fun index =>
            if (data.history (ring index)).busy = true then some index else none) =
        (searchIndex (whole random) data' th t order stop (whole random).reach 0
          data'.currentIndex).bind fun index =>
            if (data'.history index).busy = true then some index else none
      rw [windowed.currentIndex, same]
      cases result : searchIndex (whole random) data' th t order stop (whole random).reach 0
          data'.currentIndex with
      | none => rfl
      | some index =>
          obtain ⟨below, near, _⟩ := searchIndex_sound result
          have here := windowed.history index below (by omega)
          simp only [Option.bind_some, here]

end Search

/-! ### Operations -/

section Operations

variable {s s' : State Tid Value} {t : Tid} {x : Address} {order : MemoryOrder} {value : Value}
  {random rmw : Bool}

/-- The same record takes the place of one of the window. -/
theorem Windowed.setRecord {data data' : Atomic Tid Value} (windowed : Windowed data data')
    {index : Nat} (below : index ≤ data'.currentIndex)
    (near : data'.currentIndex < index + atomicHistorySize) (record : Record Tid Value) :
    Windowed (data.setRecord (source random).slot index record)
      (data'.setRecord (whole random).slot index record) where
  currentIndex := windowed.currentIndex
  value := windowed.value
  initialized := windowed.initialized
  alreadyFailed := windowed.alreadyFailed
  history k inside nearToo := by
    by_cases same : k = index
    · simp [Atomic.setRecord, source, whole, same]
    · have different : ring k ≠ ring index :=
        fun sameRing => same (ring_injective inside nearToo below near sameRing)
      simp only [Atomic.setRecord, source, whole, id]
      rw [Function.update_of_ne different, Function.update_of_ne same]
      exact windowed.history k inside nearToo

/-- The newest record takes the place of the oldest. -/
theorem Windowed.push {data data' : Atomic Tid Value} (windowed : Windowed data data')
    (record : Record Tid Value) (value : Value) :
    Windowed
      { data.setRecord (source random).slot (data'.currentIndex + 1) record with
        currentIndex := data'.currentIndex + 1, value, initialized := true }
      { data'.setRecord (whole random).slot (data'.currentIndex + 1) record with
        currentIndex := data'.currentIndex + 1, value, initialized := true } where
  currentIndex := rfl
  value := rfl
  initialized := rfl
  alreadyFailed := windowed.alreadyFailed
  history k inside near := by
    change k ≤ data'.currentIndex + 1 at inside
    change data'.currentIndex + 1 < k + atomicHistorySize at near
    by_cases same : k = data'.currentIndex + 1
    · simp [Atomic.setRecord, source, whole, same]
    · have different : ring k ≠ ring (data'.currentIndex + 1) := by
        intro sameRing
        apply same
        apply ring_injective inside near (Nat.le_refl _) _ sameRing
        exact Nat.lt_add_of_pos_right (by decide)
      simp only [Atomic.setRecord, source, whole, id]
      rw [Function.update_of_ne different, Function.update_of_ne same]
      exact windowed.history k (by omega) (by omega)

/-- States agree whose atomics are those of states that agree. -/
theorem Window.of_atomics (window : Window s s') {r r' : State Tid Value}
    (atomics : r.atomics = s.atomics) (atomics' : r'.atomics = s'.atomics)
    (rest : r = { r' with atomics := r.atomics }) : Window r r' where
  threads := by rw [rest]
  vars := by rw [rest]
  syncs := by rw [rest]
  seqCstFenceOrder := by rw [rest]
  failed := by rw [rest]
  atomics x := by
    rw [atomics, atomics']
    exact window.atomics x

/-- The states go on agreeing when one atomic changes. -/
theorem Window.setAtomic (window : Window s s') {data data' : Atomic Tid Value}
    (windowed : Windowed data data') (x : Address) :
    Window (s.setAtomic x data) (s'.setAtomic x data') where
  threads := window.threads
  vars := window.vars
  syncs := window.syncs
  seqCstFenceOrder := window.seqCstFenceOrder
  failed := window.failed
  atomics y := by
    by_cases same : y = x
    · subst same
      simpa using windowed
    · simpa [same] using window.atomics y

/-- A failure. -/
theorem Window.fail (window : Window s s') (event : Event Tid Value) :
    Agree (fail s event) (fail s' event) :=
  ⟨rfl, window.threads, window.vars, window.syncs, window.seqCstFenceOrder, rfl, window.atomics⟩

variable [DecidableEq Tid]

/-- The states go on agreeing when one thread changes. -/
theorem Window.setThread (window : Window s s') (t : Tid) (th : ThreadInfo Tid) :
    Window (s.setThread t th) (s'.setThread t th) where
  threads := by rw [setThread_threads, setThread_threads, window.threads]
  vars := window.vars
  syncs := window.syncs
  seqCstFenceOrder := window.seqCstFenceOrder
  failed := window.failed
  atomics := window.atomics

/-- A load of a record of the window. -/
theorem Window.atomicLoad (window : Window s s') {index : Nat}
    (below : index ≤ (s'.atomics x).currentIndex)
    (near : (s'.atomics x).currentIndex < index + atomicHistorySize) :
    Window (atomicLoad (source random) s t x order index)
      (atomicLoad (whole random) s' t x order index) := by
  have here : (s.atomics x).history ((source random).slot index) =
      (s'.atomics x).history ((whole random).slot index) :=
    (window.atomics x).history index below near
  simp only [Relacy.atomicLoad, here, window.threads]
  exact (window.setThread t _).setAtomic ((window.atomics x).setRecord below near _) x

/-- A store. -/
theorem Window.atomicStore (window : Window s s') :
    Window (atomicStore (source random) s t x order rmw value)
      (atomicStore (whole random) s' t x order rmw value) := by
  have current : (s.atomics x).history ((source random).slot (s'.atomics x).currentIndex) =
      (s'.atomics x).history ((whole random).slot (s'.atomics x).currentIndex) :=
    (window.atomics x).history _ (Nat.le_refl _) (Nat.lt_add_of_pos_right (by decide))
  simp only [Relacy.atomicStore, (window.atomics x).currentIndex, current, window.threads]
  exact (window.setThread t _).setAtomic ((window.atomics x).push _ value) x

/-- `rmw_impl`, when the atomic is initialized. -/
theorem Window.atomicRmw (window : Window s s') :
    Agree (.rmw t x order (s.atomics x).currentIndex value,
        atomicRmw (source random) s t x order value)
      (.rmw t x order (s'.atomics x).currentIndex value,
        atomicRmw (whole random) s' t x order value) := by
  refine ⟨by rw [(window.atomics x).currentIndex], ?_⟩
  simp only [Relacy.atomicRmw, (window.atomics x).currentIndex]
  exact (window.atomicLoad (Nat.le_refl _) (Nat.lt_add_of_pos_right (by decide))).atomicStore

/-- A store shows the same. -/
theorem Window.storeImpl (window : Window s s') :
    Agree (storeImpl (source random) s t x order value)
      (storeImpl (whole random) s' t x order value) := by
  have current : (s.atomics x).history ((source random).slot (s'.atomics x).currentIndex) =
      (s'.atomics x).history ((whole random).slot (s'.atomics x).currentIndex) :=
    (window.atomics x).history _ (Nat.le_refl _) (Nat.lt_add_of_pos_right (by decide))
  refine ⟨?_, window.atomicStore⟩
  simp only [Relacy.storeImpl, (window.atomics x).currentIndex, current]

variable [Fintype Tid] {stop : Nat → Bool}

/-- `load_impl` -/
theorem Window.loadImpl (window : Window s s') :
    Agree (loadImpl (source random) s t x order rmw stop)
      (loadImpl (whole random) s' t x order rmw stop) := by
  have same : getLoadIndex (source random) (s.atomics x) (s'.threads t) t order rmw stop =
      getLoadIndex (whole random) (s'.atomics x) (s'.threads t) t order rmw stop :=
    getLoadIndex_window (window.atomics x)
  simp only [Relacy.loadImpl, window.threads, same]
  cases result : getLoadIndex (whole random) (s'.atomics x) (s'.threads t) t order rmw stop with
  | none => exact window.fail _
  | some index =>
      obtain ⟨below, near, _⟩ := getLoadIndex_sound result
      have reach : (whole random).reach < atomicHistorySize := by
        simp only [Setting.reach, atomicHistorySize]
        split <;> omega
      have inside : (s'.atomics x).currentIndex < index + atomicHistorySize := by omega
      have here : (s.atomics x).history ((source random).slot index) =
          (s'.atomics x).history ((whole random).slot index) :=
        (window.atomics x).history index below inside
      exact ⟨by simp only [here], window.atomicLoad below inside⟩

/-- `compare_swap_impl` -/
theorem Window.compareSwapImpl [DecidableEq Value] (window : Window s s') {weak spurious : Bool}
    {expected desired : Value} {failure : MemoryOrder} :
    Agree (compareSwapImpl (source random) s t weak x expected desired order failure spurious)
      (compareSwapImpl (whole random) s' t weak x expected desired order failure spurious) := by
  simp only [Relacy.compareSwapImpl, (window.atomics x).initialized, (window.atomics x).value,
    (window.atomics x).alreadyFailed]
  split
  · split
    · change Agree (if (weak && spurious && (random || _)) = true then _ else _)
        (if (weak && spurious && (random || _)) = true then _ else _)
      split
      · cases random with
        | true => exact window.loadImpl
        | false =>
            have noted : Windowed
                { s.atomics x with
                  value := (s'.atomics x).value
                  initialized := (s'.atomics x).initialized
                  alreadyFailed := true }
                { s'.atomics x with alreadyFailed := true } :=
              ⟨(window.atomics x).currentIndex, rfl, rfl, rfl, (window.atomics x).history⟩
            exact (window.setAtomic noted x).loadImpl
      · exact window.atomicRmw
    · exact window.loadImpl
  · exact window.fail _

/-- Every operation shows the same. -/
theorem Window.perform [DecidableEq Value] (window : Window s s') (t : Tid) (spurious : Bool)
    (op : Op Value) :
    Option.Rel Agree (perform (source random) s t stop spurious op)
      (perform (whole random) s' t stop spurious op) := by
  have setThread : ∀ th, Window (s.setThread t th) (s'.setThread t th) := window.setThread t
  cases op with
  | load x order =>
      cases known : order.load? <;> simp only [Relacy.perform, known, Option.map]
      · exact .none
      · exact .some window.loadImpl
  | store x value order =>
      cases known : order.store? <;> simp only [Relacy.perform, known, Option.map]
      · exact .none
      · exact .some window.storeImpl
  | compareExchange weak x expected desired order failure =>
      cases known : order.failure? failure <;> simp only [Relacy.perform, known, Option.map]
      · exact .none
      · exact .some window.compareSwapImpl
  | rmw x modify order =>
      simp only [Relacy.perform, rmwImpl, (window.atomics x).initialized, (window.atomics x).value]
      split
      · exact .some window.atomicRmw
      · exact .some (window.fail _)
  | fence order =>
      cases order <;> simp only [Relacy.perform, threadFence, window.threads,
        window.seqCstFenceOrder]
      · exact .none
      · exact .some ⟨rfl, setThread _⟩
      · exact .some ⟨rfl, setThread _⟩
      · exact .some ⟨rfl, setThread _⟩
      · exact .some ⟨rfl, setThread _⟩
      · refine .some ⟨rfl, (setThread (s'.threads t)).of_atomics rfl rfl ?_⟩
        simp [State.setThread, window.threads, window.vars, window.syncs, window.failed]
  | varLoad v =>
      simp only [Relacy.perform, Relacy.varLoad, window.threads, window.vars]
      split
      · exact .some (window.fail _)
      · split
        · exact .some (window.fail _)
        · refine .some ⟨rfl, window.of_atomics rfl rfl ?_⟩
          simp [State.setThread, State.setVar, window.threads, window.vars, window.syncs,
            window.failed, window.seqCstFenceOrder]
  | varStore v value =>
      simp only [Relacy.perform, Relacy.varStore, window.threads, window.vars]
      split
      · exact .some (window.fail _)
      · refine .some ⟨rfl, window.of_atomics rfl rfl ?_⟩
        simp [State.setThread, State.setVar, window.threads, window.vars, window.syncs,
          window.failed, window.seqCstFenceOrder]
  | acquire m | release m | acqRel m =>
      refine .some ⟨rfl, window.of_atomics rfl rfl ?_⟩
      simp [syncAcquire, syncRelease, syncAcqRel, State.setThread, State.setSync, window.threads,
        window.vars, window.syncs, window.failed, window.seqCstFenceOrder]
  | yield =>
      simp only [Relacy.perform, window.threads]
      exact .some ⟨rfl, setThread _⟩
  | globalFence =>
      refine .some ⟨rfl, window.of_atomics rfl rfl ?_⟩
      simp [Relacy.globalFence, window.threads, window.vars, window.syncs, window.failed,
        window.seqCstFenceOrder]

end Operations

/-! ### Runs -/

section Runs

variable [DecidableEq Tid] [Fintype Tid] [DecidableEq Value] {s s' : State Tid Value}
  {event : Event Tid Value} {events : List (Event Tid Value)} {random : Bool}

/-- A choice leads to the same in both machines. -/
theorem Window.step? (window : Window s s') (random : Bool) (choice : Choice Tid Value) :
    Option.Rel Agree (step? (source random) s choice) (step? (whole random) s' choice) := by
  simp only [Relacy.step?, window.failed]
  split
  · exact .none
  · exact window.perform _ _ _

/-- The machine that forgets nothing follows the one of the source. -/
theorem Window.step (window : Window s s') {r : State Tid Value}
    (step : (machine (source random)).Step s event r) :
    ∃ r', (machine (whole random)).Step s' event r' ∧ Window r r' := by
  obtain ⟨choice, result⟩ := step
  have related := window.step? random choice
  rw [result] at related
  cases result' : Relacy.step? (whole random) s' choice with
  | none =>
      rw [result'] at related
      cases related
  | some answer =>
      rw [result'] at related
      obtain ⟨same, window'⟩ : Agree _ _ := by
        cases related
        assumption
      exact ⟨answer.2, ⟨choice, result'.trans (congrArg some (Prod.ext same.symm rfl))⟩, window'⟩

/-- The machine of the source follows the one that forgets nothing. -/
theorem Window.step_back (window : Window s s') {r' : State Tid Value}
    (step : (machine (whole random)).Step s' event r') :
    ∃ r, (machine (source random)).Step s event r ∧ Window r r' := by
  obtain ⟨choice, result⟩ := step
  have related := window.step? random choice
  rw [result] at related
  cases result' : Relacy.step? (source random) s choice with
  | none =>
      rw [result'] at related
      cases related
  | some answer =>
      rw [result'] at related
      obtain ⟨same, window'⟩ : Agree _ _ := by
        cases related
        assumption
      exact ⟨answer.2, ⟨choice, result'.trans (congrArg some (Prod.ext same rfl))⟩, window'⟩

omit [Fintype Tid] [DecidableEq Value] in
/-- The machines start alike. -/
theorem window_refl [Inhabited Value] : Window (initial : State Tid Value) initial :=
  ⟨rfl, rfl, rfl, rfl, rfl, fun _ => ⟨rfl, rfl, rfl, rfl, fun _ _ _ => rfl⟩⟩

/-- A run of the source is one that forgets nothing. -/
theorem whole_of_source [Inhabited Value]
    (run : (machine (source random)).Steps initial events s) :
    ∃ s', (machine (whole random)).Steps initial events s' ∧ Window s s' :=
  run.simulate window_refl fun window step => window.step step

/-- The source shows exactly what it would show if it never forgot a store: three
records for each atomic are enough. -/
theorem source_shows_iff_whole [Inhabited Value] :
    (∃ s : State Tid Value, (machine (source random)).Steps initial events s) ↔
      ∃ s' : State Tid Value, (machine (whole random)).Steps initial events s' := by
  constructor
  · rintro ⟨s, run⟩
    obtain ⟨s', run', _⟩ := whole_of_source run
    exact ⟨s', run'⟩
  · rintro ⟨s', run'⟩
    have back : ∃ s, (machine (source random)).Steps initial events s ∧ flip Window s' s :=
      run'.simulate window_refl fun window step => Window.step_back window step
    obtain ⟨s, run, _⟩ := back
    exact ⟨s, run⟩

end Runs

end LockFree.Relacy
