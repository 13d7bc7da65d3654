import LockFree.Relacy.Machine

/-!
# What an operation does

`getLoadIndex_iff` says which records a load can see. `Effect` lists the forms of
a step; the later proofs take the steps apart through it only.
-/

namespace LockFree.Relacy

variable {Tid Value : Type}

/-! ### Reading after writing -/

section Setters

variable (s : State Tid Value) (t : Tid) (th : ThreadInfo Tid) (x : Address)
  (data : Atomic Tid Value) (var : Var Tid Value) (order : Clock Tid)

@[simp] theorem assignMax_apply (first second : Clock Tid) :
    assignMax first second t = max (first t) (second t) := rfl

@[simp] theorem setAtomic_threads : (s.setAtomic x data).threads = s.threads := rfl
@[simp] theorem setAtomic_atomics :
    (s.setAtomic x data).atomics = Function.update s.atomics x data := rfl
@[simp] theorem setAtomic_vars : (s.setAtomic x data).vars = s.vars := rfl
@[simp] theorem setAtomic_syncs : (s.setAtomic x data).syncs = s.syncs := rfl
@[simp] theorem setAtomic_seqCstFenceOrder :
    (s.setAtomic x data).seqCstFenceOrder = s.seqCstFenceOrder := rfl
@[simp] theorem setAtomic_failed : (s.setAtomic x data).failed = s.failed := rfl

@[simp] theorem setVar_threads : (s.setVar x var).threads = s.threads := rfl
@[simp] theorem setVar_atomics : (s.setVar x var).atomics = s.atomics := rfl
@[simp] theorem setVar_vars : (s.setVar x var).vars = Function.update s.vars x var := rfl
@[simp] theorem setVar_syncs : (s.setVar x var).syncs = s.syncs := rfl
@[simp] theorem setVar_seqCstFenceOrder :
    (s.setVar x var).seqCstFenceOrder = s.seqCstFenceOrder := rfl
@[simp] theorem setVar_failed : (s.setVar x var).failed = s.failed := rfl

@[simp] theorem setSync_threads : (s.setSync x order).threads = s.threads := rfl
@[simp] theorem setSync_atomics : (s.setSync x order).atomics = s.atomics := rfl
@[simp] theorem setSync_vars : (s.setSync x order).vars = s.vars := rfl
@[simp] theorem setSync_syncs : (s.setSync x order).syncs = Function.update s.syncs x order := rfl
@[simp] theorem setSync_seqCstFenceOrder :
    (s.setSync x order).seqCstFenceOrder = s.seqCstFenceOrder := rfl
@[simp] theorem setSync_failed : (s.setSync x order).failed = s.failed := rfl

variable [DecidableEq Tid]

@[simp] theorem setThread_threads :
    (s.setThread t th).threads = Function.update s.threads t th := rfl
@[simp] theorem setThread_atomics : (s.setThread t th).atomics = s.atomics := rfl
@[simp] theorem setThread_vars : (s.setThread t th).vars = s.vars := rfl
@[simp] theorem setThread_syncs : (s.setThread t th).syncs = s.syncs := rfl
@[simp] theorem setThread_seqCstFenceOrder :
    (s.setThread t th).seqCstFenceOrder = s.seqCstFenceOrder := rfl
@[simp] theorem setThread_failed : (s.setThread t th).failed = s.failed := rfl

@[simp] theorem tick_acqRelOrder :
    (th.tick t).acqRelOrder = Function.update th.acqRelOrder t (th.acqRelOrder t + 1) := rfl
@[simp] theorem tick_acquireFenceOrder :
    (th.tick t).acquireFenceOrder = th.acquireFenceOrder := rfl
@[simp] theorem tick_releaseFenceOrder :
    (th.tick t).releaseFenceOrder = th.releaseFenceOrder := rfl
@[simp] theorem tick_lastYield : (th.tick t).lastYield = th.lastYield := rfl

end Setters

/-! ### The record a load sees -/

/-- A history that forgets nothing. -/
def whole (random : Bool) : Setting := ⟨id, random⟩

/-- How many records a load can step back. -/
def Setting.reach (setting : Setting) : Nat :=
  if setting.random then atomicHistorySize - 1 else 1

section Search

variable [Fintype Tid] {setting : Setting} {data : Atomic Tid Value} {th : ThreadInfo Tid} {t : Tid}
  {order : MemoryOrder} {stop : Nat → Bool}

/-- The search does not have to end at the record: the thread may still see an
older one. -/
structure Passable (setting : Setting) (data : Atomic Tid Value) (th : ThreadInfo Tid) (t : Tid)
    (order : MemoryOrder) (index : Nat) : Prop where
  busy : (data.history (setting.slot index)).busy = true
  previous : ¬ ((data.history (setting.slot (index - 1))).busy = true ∧
    ((data.history (setting.slot (index - 1))).firstSeenOrder t).any (· ≤ th.lastYield) = true)
  seqCst : ¬ (order = .seqCst ∧ (data.history (setting.slot index)).seqCst = true)
  uncovered : (data.history (setting.slot index)).covered th.acqRelOrder = false

instance (index : Nat) : Decidable (Passable setting data th t order index) :=
  decidable_of_iff ((data.history (setting.slot index)).busy = true ∧
      ¬ ((data.history (setting.slot (index - 1))).busy = true ∧
        ((data.history (setting.slot (index - 1))).firstSeenOrder t).any (· ≤ th.lastYield) =
          true) ∧
      ¬ (order = .seqCst ∧ (data.history (setting.slot index)).seqCst = true) ∧
      (data.history (setting.slot index)).covered th.acqRelOrder = false)
    ⟨fun ⟨busy, previous, seqCst, uncovered⟩ => ⟨busy, previous, seqCst, uncovered⟩,
      fun passable => ⟨passable.busy, passable.previous, passable.seqCst, passable.uncovered⟩⟩

/-- One round of the search. -/
theorem searchIndex_succ (rounds i index : Nat) :
    searchIndex setting data th t order stop (rounds + 1) i index =
      if (data.history (setting.slot index)).busy = false then none
      else if Passable setting data th t order index ∧ stop i = false then
        searchIndex setting data th t order stop rounds (i + 1) (index - 1)
      else some index := by
  rw [searchIndex]
  by_cases passable : Passable setting data th t order index
  · have previous := passable.previous
    have seqCst := passable.seqCst
    simp only [passable, passable.busy, passable.uncovered]
    grind
  · have blocked : (data.history (setting.slot index)).busy = true →
        (data.history (setting.slot index)).covered th.acqRelOrder = false →
        ¬ (order = .seqCst ∧ (data.history (setting.slot index)).seqCst = true) →
        (data.history (setting.slot (index - 1))).busy = true ∧
          ((data.history (setting.slot (index - 1))).firstSeenOrder t).any (· ≤ th.lastYield) =
            true := by
      intro busy uncovered seqCst
      by_contra previous
      exact passable ⟨busy, previous, seqCst, uncovered⟩
    simp only [passable]
    grind

/-- The search passes what it leaves behind. -/
theorem searchIndex_sound {rounds i index found : Nat}
    (result : searchIndex setting data th t order stop rounds i index = some found) :
    found ≤ index ∧ index ≤ found + rounds ∧
      ∀ k, found < k → k ≤ index → Passable setting data th t order k := by
  induction rounds generalizing i index with
  | zero =>
      cases result
      exact ⟨Nat.le_refl _, Nat.le_refl _, fun k above below => absurd above (Nat.not_lt.mpr below)⟩
  | succ rounds inductionHypothesis =>
      rw [searchIndex_succ] at result
      split at result
      · cases result
      · split at result
        · rename_i passable
          obtain ⟨below, near, passed⟩ := inductionHypothesis result
          refine ⟨by omega, by omega, fun k above inside => ?_⟩
          by_cases last : k = index
          · exact last ▸ passable.1
          · exact passed k above (by omega)
        · cases result
          exact ⟨Nat.le_refl _, by omega, fun k above below => absurd above (Nat.not_lt.mpr below)⟩

/-- Some answers lead the search to a record when it can pass the newer ones. -/
theorem searchIndex_complete {rounds index found : Nat} (i : Nat) (below : found ≤ index)
    (near : index ≤ found + rounds) (busy : (data.history (setting.slot found)).busy = true)
    (passable : ∀ k, found < k → k ≤ index → Passable setting data th t order k) :
    searchIndex setting data th t order (fun round => decide (i + (index - found) ≤ round))
      rounds i index = some found := by
  induction rounds generalizing i index with
  | zero =>
      have same : index = found := Nat.le_antisymm near below
      rw [searchIndex, same]
  | succ rounds inductionHypothesis =>
      rw [searchIndex_succ]
      rcases Nat.eq_or_lt_of_le below with same | above
      · subst same
        simp [busy]
      · have here := passable index above (Nat.le_refl _)
        have onwards := inductionHypothesis (i + 1) (Nat.le_sub_one_of_lt above) (by omega)
          fun k above below => passable k above (Nat.le_trans below (Nat.sub_le _ _))
        have answers : i + 1 + (index - 1 - found) = i + (index - found) := by omega
        rw [answers] at onwards
        rw [if_neg (by simp [here.busy]), if_pos, onwards]
        refine ⟨here, ?_⟩
        simp only [decide_eq_false_iff_not]
        omega

/-- A load can see a record, for some answers of the scheduler, if it is not too
far back and the search can pass all newer ones. -/
theorem getLoadIndex_iff {index : Nat} :
    (∃ stop, getLoadIndex setting data th t order false stop = some index) ↔
      index ≤ data.currentIndex ∧ data.currentIndex ≤ index + setting.reach ∧
      (data.history (setting.slot index)).busy = true ∧
      ∀ k, index < k → k ≤ data.currentIndex → Passable setting data th t order k := by
  simp only [getLoadIndex, Bool.false_eq_true, if_false, Option.bind_eq_bind,
    Option.bind_eq_some_iff, Option.ite_none_right_eq_some, Option.some.injEq]
  constructor
  · rintro ⟨stop, found, result, busy, rfl⟩
    obtain ⟨below, near, passable⟩ := searchIndex_sound result
    exact ⟨below, near, busy, passable⟩
  · rintro ⟨below, near, busy, passable⟩
    exact ⟨_, index, searchIndex_complete 0 below near busy passable, busy, rfl⟩

/-- What a load sees, whether or not it is part of a read-modify-write. -/
theorem getLoadIndex_sound {rmw : Bool} {index : Nat}
    (result : getLoadIndex setting data th t order rmw stop = some index) :
    index ≤ data.currentIndex ∧ data.currentIndex ≤ index + setting.reach ∧
      (data.history (setting.slot index)).busy = true ∧
      ∀ k, index < k → k ≤ data.currentIndex → Passable setting data th t order k := by
  cases rmw with
  | false => exact getLoadIndex_iff.mp ⟨stop, result⟩
  | true =>
      simp only [getLoadIndex, if_true, Option.bind_eq_bind, Option.bind_some,
        Option.ite_none_right_eq_some, Option.some.injEq] at result
      obtain ⟨busy, rfl⟩ := result
      exact ⟨Nat.le_refl _, Nat.le_add_right _ _, busy,
        fun k above below => absurd above (Nat.not_lt.mpr below)⟩

end Search

/-! ### The forms of a step -/

variable [DecidableEq Tid] [Fintype Tid]

/-- The state when an atomic has noted whether it has failed spuriously. -/
def State.noteFailure (s : State Tid Value) (x : Address) (failed : Bool) : State Tid Value :=
  s.setAtomic x { s.atomics x with alreadyFailed := failed }

/-- What a step needs, what it shows and what it leaves. -/
inductive Effect (setting : Setting) (s : State Tid Value) :
    Event Tid Value → State Tid Value → Prop where
  | load {t x order index} (failed : Bool) (inside : index ≤ (s.atomics x).currentIndex)
      (near : (s.atomics x).currentIndex ≤ index + setting.reach)
      (busy : ((s.atomics x).history (setting.slot index)).busy = true)
      (passable : ∀ k, index < k → k ≤ (s.atomics x).currentIndex →
        Passable setting (s.atomics x) (s.threads t) t order k) :
      Effect setting s (.load t x order index ((s.atomics x).history (setting.slot index)).value)
        (atomicLoad setting (s.noteFailure x failed) t x order index)
  | store {t x order value} :
      Effect setting s (.store t x order ((s.atomics x).currentIndex + 1)
          ((s.atomics x).history (setting.slot (s.atomics x).currentIndex)).owner value)
        (atomicStore setting s t x order false value)
  | rmw {t x order value} (initialized : (s.atomics x).initialized = true) :
      Effect setting s (.rmw t x order (s.atomics x).currentIndex value)
        (atomicRmw setting s t x order value)
  | acquireFence {t} :
      Effect setting s (.fence t .acquire) (s.setThread t (s.threads t).fenceAcquire)
  | releaseFence {t} :
      Effect setting s (.fence t .release) (s.setThread t (s.threads t).fenceRelease)
  | acqRelFence {t} :
      Effect setting s (.fence t .acqRel) (s.setThread t (s.threads t).fenceAcquire.fenceRelease)
  | seqCstFence {t order}
      (joined : order = assignMax (s.threads t).fenceAcquire.acqRelOrder s.seqCstFenceOrder) :
      Effect setting s (.fence t .seqCst)
        { s.setThread t { (s.threads t).fenceAcquire with acqRelOrder := order }.fenceRelease with
          seqCstFenceOrder := order }
  | varLoad {t v} (initialized : (s.vars v).initialized = true)
      (ordered : uncovered (s.threads t).acqRelOrder (s.vars v).storeTimestamp = false) :
      Effect setting s (.access t v false (s.vars v).value)
        ((s.setThread t ((s.threads t).tick t)).setVar v
          { s.vars v with
            loadTimestamp := Function.update (s.vars v).loadTimestamp t
              (((s.threads t).tick t).acqRelOrder t) })
  | varStore {t v value} (ordered : (s.vars v).initialized = true →
      uncovered (s.threads t).acqRelOrder (s.vars v).storeTimestamp = false ∧
        uncovered (s.threads t).acqRelOrder (s.vars v).loadTimestamp = false) :
      Effect setting s (.access t v true value)
        ((s.setThread t ((s.threads t).tick t)).setVar v
          { s.vars v with
            storeTimestamp := Function.update (s.vars v).storeTimestamp t
              (((s.threads t).tick t).acqRelOrder t)
            value, initialized := true })
  | acquired {t m} : Effect setting s (.acquired t m) (syncAcquire s t m)
  | released {t m} : Effect setting s (.released t m) (syncRelease s t m)
  | acqReled {t m} : Effect setting s (.acqReled t m) (syncAcqRel s t m)
  | yielded {t} : Effect setting s (.yielded t)
      (s.setThread t { s.threads t with lastYield := (s.threads t).acqRelOrder t })
  | globalFence {t} : Effect setting s (.globalFence t) (globalFence s)
  | racedLoad {t v} (initialized : (s.vars v).initialized = true)
      (unordered : uncovered (s.threads t).acqRelOrder (s.vars v).storeTimestamp = true) :
      Effect setting s (.raced t v false) { s with failed := true }
  | racedStore {t v} (initialized : (s.vars v).initialized = true)
      (unordered : uncovered (s.threads t).acqRelOrder (s.vars v).storeTimestamp = true ∨
        uncovered (s.threads t).acqRelOrder (s.vars v).loadTimestamp = true) :
      Effect setting s (.raced t v true) { s with failed := true }
  | uninitialized {t} (x : Address) (failed : Bool) :
      Effect setting s (.uninitialized t) { s.noteFailure x failed with failed := true }

section Specs

variable {setting : Setting} {s s' : State Tid Value} {event : Event Tid Value} {t : Tid}
  {x v : Address} {order : MemoryOrder} {rmw : Bool} {stop : Nat → Bool}

omit [Fintype Tid] [DecidableEq Tid] in
/-- A state that notes what it has noted before is the same state. -/
theorem noteFailure_same (s : State Tid Value) (x : Address) :
    s.noteFailure x (s.atomics x).alreadyFailed = s := by
  simp [State.noteFailure, State.setAtomic]

/-- A load, after a failure may have been noted. -/
theorem effect_of_loadImpl_noteFailure (failed : Bool)
    (result : loadImpl setting (s.noteFailure x failed) t x order rmw stop = (event, s')) :
    Effect setting s event s' := by
  unfold loadImpl at result
  split at result
  · cases result
    exact .uninitialized x failed
  · rename_i index found
    have seen := getLoadIndex_sound found
    simp only [State.noteFailure, setAtomic_atomics, Function.update_self,
      setAtomic_threads] at result seen
    cases result
    obtain ⟨inside, near, busy, passable⟩ := seen
    exact .load failed inside near busy fun k above below =>
      ⟨(passable k above below).busy, (passable k above below).previous,
        (passable k above below).seqCst, (passable k above below).uncovered⟩

/-- A load. -/
theorem effect_of_loadImpl (result : loadImpl setting s t x order rmw stop = (event, s')) :
    Effect setting s event s' := by
  apply effect_of_loadImpl_noteFailure (s.atomics x).alreadyFailed
  rwa [noteFailure_same]

/-- An access to uninitialized memory. -/
theorem effect_of_uninitialized (result : fail s (.uninitialized t) = (event, s')) :
    Effect setting s event s' := by
  cases result
  have effect : Effect setting s (.uninitialized t) _ :=
    .uninitialized 0 (s.atomics 0).alreadyFailed
  rwa [noteFailure_same] at effect

/-- A read-modify-write. -/
theorem effect_of_rmwImpl {modify : Value → Value}
    (result : rmwImpl setting s t x order modify = (event, s')) : Effect setting s event s' := by
  simp only [rmwImpl] at result
  split at result
  · rename_i initialized
    cases result
    exact .rmw initialized
  · exact effect_of_uninitialized result

/-- A compare-exchange stores, or it loads. -/
theorem effect_of_compareSwapImpl [DecidableEq Value] {weak spurious : Bool}
    {expected desired : Value} {failure : MemoryOrder}
    (result : compareSwapImpl setting s t weak x expected desired order failure spurious =
      (event, s')) : Effect setting s event s' := by
  simp only [compareSwapImpl] at result
  split at result
  · rename_i initialized
    split at result
    · split at result
      · split at result
        · exact effect_of_loadImpl result
        · exact effect_of_loadImpl_noteFailure true result
      · cases result
        exact .rmw initialized
    · exact effect_of_loadImpl result
  · exact effect_of_uninitialized result

/-- A fence. -/
theorem effect_of_threadFence (result : threadFence s t order = some (event, s')) :
    Effect setting s event s' := by
  cases order with
  | relaxed => cases result
  | consume | acquire =>
      cases result
      exact .acquireFence
  | release =>
      cases result
      exact .releaseFence
  | acqRel =>
      cases result
      exact .acqRelFence
  | seqCst =>
      cases result
      exact .seqCstFence rfl

/-- A load of a variable. -/
theorem effect_of_varLoad (result : varLoad s t v = (event, s')) : Effect setting s event s' := by
  simp only [varLoad] at result
  split at result
  · exact effect_of_uninitialized result
  · rename_i initialized
    simp only [Bool.not_eq_true', Bool.not_eq_false] at initialized
    split at result
    · rename_i unordered
      cases result
      exact .racedLoad initialized unordered
    · rename_i ordered
      cases result
      exact .varLoad initialized (Bool.eq_false_of_not_eq_true ordered)

/-- A store to a variable. -/
theorem effect_of_varStore {value : Value} (result : varStore s t v value = (event, s')) :
    Effect setting s event s' := by
  simp only [varStore] at result
  split at result
  · rename_i unordered
    simp only [Bool.and_eq_true, Bool.or_eq_true] at unordered
    cases result
    exact .racedStore unordered.1 unordered.2
  · rename_i ordered
    cases result
    apply Effect.varStore
    intro initialized
    simpa [initialized] using ordered

/-- Every step has one of the forms. -/
theorem effect_of_step [DecidableEq Value]
    (step : (machine setting : System (State Tid Value) (Event Tid Value)).Step s event s') :
    s.failed = false ∧ Effect setting s event s' := by
  obtain ⟨⟨t, op, stop, spurious⟩, result⟩ := step
  unfold step? at result
  split at result
  · cases result
  · rename_i running
    refine ⟨Bool.eq_false_of_not_eq_true running, ?_⟩
    cases op with
    | load x order =>
        obtain ⟨_, _, result⟩ := Option.map_eq_some_iff.mp result
        exact effect_of_loadImpl result
    | store x value order =>
        obtain ⟨_, _, result⟩ := Option.map_eq_some_iff.mp result
        cases result
        exact .store
    | compareExchange weak x expected desired order failure =>
        obtain ⟨_, _, result⟩ := Option.map_eq_some_iff.mp result
        exact effect_of_compareSwapImpl result
    | rmw x modify order => exact effect_of_rmwImpl (Option.some.inj result)
    | fence order => exact effect_of_threadFence result
    | varLoad v => exact effect_of_varLoad (Option.some.inj result)
    | varStore v value => exact effect_of_varStore (Option.some.inj result)
    | acquire m =>
        cases result
        exact .acquired
    | release m =>
        cases result
        exact .released
    | acqRel m =>
        cases result
        exact .acqReled
    | yield =>
        cases result
        exact .yielded
    | globalFence =>
        cases result
        exact .globalFence

end Specs

end LockFree.Relacy
