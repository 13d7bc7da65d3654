import LockFree.Semantics.Execution
import LockFree.Semantics.Threads
import Mathlib.Algebra.BigOperators.Group.Finset.Piecewise
import Mathlib.Algebra.GroupWithZero.Nat
import Mathlib.Algebra.Order.BigOperators.Group.Finset
import Mathlib.Algebra.Ring.Int.Defs
import Mathlib.Data.Fintype.BigOperators

/-!
# Mutexes

`generic_mutex_data_impl` with its two `waitset`s. A call begins at a scheduling point and
then runs until it returns or parks; a thread that has been unparked runs its loop once
more. Which thread goes on is left open, as is when a timed wait ends. What the mutex
synchronizes is not part of this model.
-/

namespace LockFree.Relacy.Mutex

/-- The options of the constructor. -/
structure Options where
  isRw : Bool
  isExclusiveRecursive : Bool
  isSharedRecursive : Bool
  failingTryLock : Bool

/-- `exclusive_owner_`, with `state_free` and `state_shared`. -/
inductive Owner (Tid : Type) where
  | free
  | shared
  | thread (t : Tid)
deriving DecidableEq, Repr

/-- The members of `generic_mutex_data_impl` that change. -/
structure Data (Tid : Type) where
  exclusiveOwner : Owner Tid
  exclusiveRecursionCount : Nat
  exclusiveWaitset : List Tid
  sharedWaitset : List Tid
  sharedOwner : Tid → Nat
  sharedLockCount : Nat
  tryLockFailed : Bool

/-- `test_result_e`, as far as it concerns mutexes. -/
inductive Failure where
  | mutexReadToWriteUpgrade
  | mutexWriteToReadUpgrade
  | recursionOnNonrecursiveMutex
  | unlockingMutexWoOwnership
deriving DecidableEq, Repr

/-- What a call comes to before the next scheduling point. -/
inductive Outcome where
  | returned (value : Bool)
  | blocked
  | failed (failure : Failure)
  | unverified
deriving DecidableEq, Repr

/-- The calls. The ones that cannot fail return `true`. -/
inductive Call where
  | lockExclusive (isTimed : Bool)
  | tryLockExclusive
  | unlockExclusive
  | lockShared
  | tryLockShared
  | unlockShared
deriving DecidableEq, Repr

variable {Tid : Type} [DecidableEq Tid]

namespace Data

/-- `exclusive_owner_ = my_id` with a first lock. -/
def own (m : Data Tid) (t : Tid) : Data Tid :=
  { m with exclusiveRecursionCount := 1, exclusiveOwner := .thread t }

/-- `shared_owner_[my_id] += 1` -/
def share (m : Data Tid) (t : Tid) : Data Tid :=
  { m with
    sharedOwner := Function.update m.sharedOwner t (m.sharedOwner t + 1)
    sharedLockCount := m.sharedLockCount + 1
    exclusiveOwner := .shared }

/-- A round of the loop of `lock_exclusive`. -/
def exclusiveRound [Fintype Tid] (m : Data Tid) (t : Tid) : Outcome × Data Tid :=
  if m.exclusiveOwner = .free then
    if m.exclusiveRecursionCount ≠ 0 then (.unverified, m) else (.returned true, m.own t)
  else if m.exclusiveOwner = .thread t then (.unverified, m)
  else if Fintype.card Tid ≤ m.exclusiveWaitset.length then (.unverified, m)
  else (.blocked, { m with exclusiveWaitset := m.exclusiveWaitset ++ [t] })

/-- What `lock_exclusive` and `try_lock_exclusive` do for a thread that owns the mutex. -/
def recurseExclusive (options : Options) (m : Data Tid) (t : Tid)
    (otherwise : Outcome × Data Tid) : Outcome × Data Tid :=
  if m.exclusiveOwner = .shared ∧ m.sharedOwner t ≠ 0 then
    (.failed .mutexReadToWriteUpgrade, m)
  else if m.exclusiveOwner = .thread t then
    if options.isExclusiveRecursive then
      (.returned true, { m with exclusiveRecursionCount := m.exclusiveRecursionCount + 1 })
    else (.failed .recursionOnNonrecursiveMutex, m)
  else otherwise

/-- `lock_exclusive` -/
def lockExclusive [Fintype Tid] (options : Options) (m : Data Tid) (t : Tid) :
    Outcome × Data Tid :=
  m.recurseExclusive options t (m.exclusiveRound t)

/-- `try_lock_exclusive`. The answer of the scheduler is whether it fails without need. -/
def tryLockExclusive (options : Options) (m : Data Tid) (t : Tid) (answer : Nat) :
    Outcome × Data Tid :=
  m.recurseExclusive options t <|
    if m.exclusiveOwner = .free then
      if m.exclusiveRecursionCount ≠ 0 then (.unverified, m)
      else if options.failingTryLock ∧ m.tryLockFailed = false ∧ answer % 2 ≠ 0 then
        (.returned false, { m with tryLockFailed := true })
      else (.returned true, m.own t)
    else (.returned false, m)

/-- `unpark_one` of a set that is not empty: `rand` answers which thread. -/
def unparkOne (waitset : List Tid) (answer : Nat) : List Tid :=
  waitset.eraseIdx (answer % waitset.length)

/-- `unlock_exclusive` -/
def unlockExclusive (options : Options) (m : Data Tid) (t : Tid) (answer : Nat) :
    Outcome × Data Tid :=
  if m.exclusiveOwner ≠ .thread t then (.failed .unlockingMutexWoOwnership, m)
  else
    let m := { m with exclusiveRecursionCount := m.exclusiveRecursionCount - 1 }
    if m.exclusiveRecursionCount ≠ 0 then
      if options.isExclusiveRecursive then (.returned true, m) else (.unverified, m)
    else
      let m := { m with exclusiveOwner := .free }
      (.returned true,
        if m.exclusiveWaitset = [] then { m with sharedWaitset := [] }
        else { m with exclusiveWaitset := unparkOne m.exclusiveWaitset answer })

/-- A round of the loop of `lock_shared`. -/
def sharedRound [Fintype Tid] (m : Data Tid) (t : Tid) : Outcome × Data Tid :=
  if m.exclusiveOwner = .free ∨ m.exclusiveOwner = .shared ∧ m.exclusiveWaitset = [] then
    (.returned true, m.share t)
  else if m.exclusiveOwner = .thread t then (.unverified, m)
  else if Fintype.card Tid ≤ m.sharedWaitset.length then (.unverified, m)
  else (.blocked, { m with sharedWaitset := m.sharedWaitset ++ [t] })

/-- What `lock_shared` and `try_lock_shared` do for a thread that has the mutex. -/
def recurseShared (options : Options) (m : Data Tid) (t : Tid)
    (otherwise : Outcome × Data Tid) : Outcome × Data Tid :=
  if options.isRw = false then (.unverified, m)
  else if m.exclusiveOwner = .thread t then (.failed .mutexWriteToReadUpgrade, m)
  else if m.exclusiveOwner = .shared ∧ m.sharedOwner t ≠ 0 then
    if options.isSharedRecursive then (.returned true, m.share t)
    else (.failed .recursionOnNonrecursiveMutex, m)
  else otherwise

/-- `lock_shared` -/
def lockShared [Fintype Tid] (options : Options) (m : Data Tid) (t : Tid) : Outcome × Data Tid :=
  m.recurseShared options t (m.sharedRound t)

/-- `try_lock_shared` -/
def tryLockShared (options : Options) (m : Data Tid) (t : Tid) (answer : Nat) :
    Outcome × Data Tid :=
  m.recurseShared options t <|
    if m.exclusiveOwner = .free ∨ m.exclusiveOwner = .shared ∧ m.exclusiveWaitset = [] then
      if options.failingTryLock ∧ m.tryLockFailed = false ∧ answer % 2 ≠ 0 then
        (.returned false, { m with tryLockFailed := true })
      else (.returned true, m.share t)
    else (.returned false, m)

/-- `unlock_shared` -/
def unlockShared (options : Options) (m : Data Tid) (t : Tid) (answer : Nat) :
    Outcome × Data Tid :=
  if options.isRw = false then (.unverified, m)
  else if m.exclusiveOwner ≠ .shared ∨ m.sharedOwner t = 0 then
    (.failed .unlockingMutexWoOwnership, m)
  else if m.sharedLockCount = 0 then (.unverified, m)
  else
    let m := { m with
      sharedOwner := Function.update m.sharedOwner t (m.sharedOwner t - 1)
      sharedLockCount := m.sharedLockCount - 1 }
    if m.sharedLockCount ≠ 0 then
      if m.sharedOwner t ≠ 0 ∧ options.isSharedRecursive = false then (.unverified, m)
      else (.returned true, m)
    else (.returned true, { m with
      exclusiveOwner := .free
      exclusiveWaitset := unparkOne m.exclusiveWaitset answer })

/-- A call, and the answer of `rand` if it asks for one. -/
def perform [Fintype Tid] (options : Options) (m : Data Tid) (t : Tid) (answer : Nat) :
    Call → Outcome × Data Tid
  | .lockExclusive _ => m.lockExclusive options t
  | .tryLockExclusive => m.tryLockExclusive options t answer
  | .unlockExclusive => m.unlockExclusive options t answer
  | .lockShared => m.lockShared options t
  | .tryLockShared => m.tryLockShared options t answer
  | .unlockShared => m.unlockShared options t answer

end Data

/-- The mutex, and the call of `lock` each thread is inside of. -/
structure State (Tid : Type) where
  data : Data Tid
  inside : Tid → Option Call
  ended : Bool

/-- A thread makes a call, goes on with its call after it has been unparked, or finds
that its wait has timed out. -/
inductive Choice (Tid : Type) where
  | call (t : Tid) (call : Call) (answer : Nat)
  | goOn (t : Tid)
  | timeOut (t : Tid)

/-- The call a thread is inside of, and what came of it. -/
structure Event (Tid : Type) where
  thread : Tid
  call : Call
  outcome : Outcome
deriving DecidableEq, Repr

/-- The thread has not been unparked. -/
def State.Parked (s : State Tid) (t : Tid) : Prop :=
  t ∈ s.data.exclusiveWaitset ∨ t ∈ s.data.sharedWaitset

instance (s : State Tid) (t : Tid) : Decidable (s.Parked t) :=
  inferInstanceAs (Decidable (_ ∨ _))

/-- A call comes to something. -/
def State.after (s : State Tid) (t : Tid) (call : Call) (done : Outcome × Data Tid) :
    Event Tid × State Tid :=
  (⟨t, call, done.1⟩, match done.1 with
    | .returned _ => ⟨done.2, Function.update s.inside t none, false⟩
    | .blocked => ⟨done.2, Function.update s.inside t (some call), false⟩
    | .failed _ | .unverified => ⟨done.2, s.inside, true⟩)

/-- One step, as long as nothing has failed. -/
def step? [Fintype Tid] (options : Options) (s : State Tid) :
    Choice Tid → Option (Event Tid × State Tid)
  | .call t call answer =>
      if s.ended ∨ s.inside t ≠ none then none
      else some (s.after t call (s.data.perform options t answer call))
  | .goOn t =>
      if s.ended ∨ s.Parked t then none
      else match s.inside t with
        | some (.lockExclusive isTimed) =>
            some (s.after t (.lockExclusive isTimed) (s.data.exclusiveRound t))
        | some .lockShared => some (s.after t .lockShared (s.data.sharedRound t))
        | _ => none
  | .timeOut t =>
      if s.ended ∨ s.inside t ≠ some (.lockExclusive true) ∨ t ∉ s.data.exclusiveWaitset then none
      else some (s.after t (.lockExclusive true) (.returned false, { s.data with
        exclusiveWaitset := s.data.exclusiveWaitset.erase t }))

/-- All sequences of calls on one mutex. -/
def machine [Fintype Tid] (options : Options) : System (State Tid) (Event Tid) :=
  .ofStep? (step? options)

/-- The mutex as it is constructed. -/
def initial : State Tid where
  data := ⟨.free, 0, [], [], fun _ => 0, 0, false⟩
  inside _ := none
  ended := false

/-! ### What a step can do -/

/-- The call takes the mutex exclusively if it returns `true`. -/
def Call.LocksExclusive (call : Call) : Prop :=
  (∃ isTimed, call = .lockExclusive isTimed) ∨ call = .tryLockExclusive

/-- The call takes the mutex shared if it returns `true`. -/
def Call.LocksShared (call : Call) : Prop :=
  call = .lockShared ∨ call = .tryLockShared

/-- What a call of a thread comes to, and the mutex after it. -/
inductive Effect (options : Options) (m : Data Tid) (t : Tid) (call : Call) :
    Outcome → Data Tid → Prop where
  | fails (failure : Failure) : Effect options m t call (.failed failure) m
  | unverified (isRw : options.isRw = false)
      (isShared : call.LocksShared ∨ call = .unlockShared) :
      Effect options m t call .unverified m
  | refuses (isTry : call = .tryLockExclusive ∨ call = .tryLockShared) (tryLockFailed : Bool) :
      Effect options m t call (.returned false) { m with tryLockFailed := tryLockFailed }
  | owns (locks : call.LocksExclusive) (free : m.exclusiveOwner = .free) :
      Effect options m t call (.returned true) (m.own t)
  | reenters (locks : call.LocksExclusive) (owner : m.exclusiveOwner = .thread t)
      (recursive : options.isExclusiveRecursive = true) :
      Effect options m t call (.returned true)
        { m with exclusiveRecursionCount := m.exclusiveRecursionCount + 1 }
  | waits (isTimed : Bool) (isLock : call = .lockExclusive isTimed)
      (busy : m.exclusiveOwner ≠ .free) (apart : m.exclusiveOwner ≠ .thread t)
      (unshared : m.sharedOwner t = 0) :
      Effect options m t call .blocked
        { m with exclusiveWaitset := m.exclusiveWaitset ++ [t] }
  | unlocks (isUnlock : call = .unlockExclusive) (owner : m.exclusiveOwner = .thread t)
      (more : 1 < m.exclusiveRecursionCount) :
      Effect options m t call (.returned true)
        { m with exclusiveRecursionCount := m.exclusiveRecursionCount - 1 }
  | leaves (isUnlock : call = .unlockExclusive) (owner : m.exclusiveOwner = .thread t)
      (last : m.exclusiveRecursionCount = 1) {exclusiveWaitset sharedWaitset : List Tid}
      (woken : m.exclusiveWaitset = [] ∧ exclusiveWaitset = [] ∧ sharedWaitset = [] ∨
        ∃ u ∈ m.exclusiveWaitset, exclusiveWaitset = m.exclusiveWaitset.erase u ∧
          sharedWaitset = m.sharedWaitset) :
      Effect options m t call (.returned true) { m with
        exclusiveRecursionCount := 0
        exclusiveOwner := .free
        exclusiveWaitset := exclusiveWaitset
        sharedWaitset := sharedWaitset }
  | shares (locks : call.LocksShared)
      (open_ : m.exclusiveOwner = .free ∨ m.exclusiveOwner = .shared)
      (once : m.sharedOwner t = 0 ∨ options.isSharedRecursive = true) :
      Effect options m t call (.returned true) (m.share t)
  | waitsShared (isLock : call = .lockShared) (busy : m.exclusiveOwner ≠ .free)
      (apart : m.exclusiveOwner ≠ .thread t)
      (queued : m.exclusiveOwner = .shared → m.exclusiveWaitset ≠ [])
      (unshared : m.sharedOwner t = 0) :
      Effect options m t call .blocked { m with sharedWaitset := m.sharedWaitset ++ [t] }
  | unlocksShared (isUnlock : call = .unlockShared) (shared : m.exclusiveOwner = .shared)
      (owner : m.sharedOwner t ≠ 0) (more : 1 < m.sharedLockCount) :
      Effect options m t call (.returned true) { m with
        sharedOwner := Function.update m.sharedOwner t (m.sharedOwner t - 1)
        sharedLockCount := m.sharedLockCount - 1 }
  | leavesShared (isUnlock : call = .unlockShared) (shared : m.exclusiveOwner = .shared)
      (owner : m.sharedOwner t ≠ 0) (last : m.sharedLockCount = 1)
      {exclusiveWaitset : List Tid}
      (woken : m.exclusiveWaitset = [] ∧ exclusiveWaitset = [] ∨
        ∃ u ∈ m.exclusiveWaitset, exclusiveWaitset = m.exclusiveWaitset.erase u) :
      Effect options m t call (.returned true) { m with
        sharedOwner := Function.update m.sharedOwner t (m.sharedOwner t - 1)
        sharedLockCount := 0
        exclusiveOwner := .free
        exclusiveWaitset := exclusiveWaitset }

variable [Fintype Tid] {options : Options} {s s' : State Tid} {m : Data Tid} {t : Tid}

/-- The counts of the mutex fit its owner. -/
structure Counts (options : Options) (m : Data Tid) : Prop where
  free : m.exclusiveOwner = .free → m.exclusiveRecursionCount = 0 ∧ m.sharedLockCount = 0
  shared : m.exclusiveOwner = .shared → m.exclusiveRecursionCount = 0 ∧ 0 < m.sharedLockCount
  thread : ∀ t, m.exclusiveOwner = .thread t →
    0 < m.exclusiveRecursionCount ∧ m.sharedLockCount = 0
  sum : m.sharedLockCount = ∑ t, m.sharedOwner t
  once : options.isExclusiveRecursive = false → m.exclusiveRecursionCount ≤ 1
  sharedOnce : options.isSharedRecursive = false → ∀ t, m.sharedOwner t ≤ 1

/-- What holds of the mutex and the threads inside of its calls. -/
structure Inv (options : Options) (s : State Tid) : Prop extends Counts options s.data where
  exclusiveNodup : s.data.exclusiveWaitset.Nodup
  sharedNodup : s.data.sharedWaitset.Nodup
  exclusiveInside : ∀ t ∈ s.data.exclusiveWaitset, ∃ b, s.inside t = some (.lockExclusive b)
  sharedInside : ∀ t ∈ s.data.sharedWaitset, s.inside t = some .lockShared
  outside : ∀ t, s.inside t ≠ none →
    s.data.exclusiveOwner ≠ .thread t ∧ s.data.sharedOwner t = 0
  woken : s.data.exclusiveOwner = .free → s.data.exclusiveWaitset ≠ [] →
    ∃ u b, s.inside u = some (.lockExclusive b) ∧ u ∉ s.data.exclusiveWaitset

omit [DecidableEq Tid] in
/-- Who does not wait in a set finds a place in it. -/
theorem length_lt_card {waitset : List Tid} (nodup : waitset.Nodup) (absent : t ∉ waitset) :
    waitset.length < Fintype.card Tid := by
  have longer : (t :: waitset).Nodup := List.nodup_cons.mpr ⟨absent, nodup⟩
  exact longer.length_le_card

omit [Fintype Tid] in
/-- `unpark_one` takes one thread out of the set. -/
theorem unparkOne_eq {waitset : List Tid} (nodup : waitset.Nodup) (some_ : waitset ≠ [])
    (answer : Nat) : ∃ u ∈ waitset, Data.unparkOne waitset answer = waitset.erase u := by
  have bound := Nat.mod_lt answer (List.length_pos_iff.mpr some_)
  refine ⟨waitset[answer % waitset.length], List.getElem_mem bound, ?_⟩
  rw [Data.unparkOne, nodup.erase_getElem]

omit [DecidableEq Tid] in
/-- Who is not inside of `lock_exclusive` does not wait in its set. -/
theorem Inv.not_mem_exclusive (inv : Inv options s)
    (elsewhere : ∀ b, s.inside t ≠ some (.lockExclusive b)) : t ∉ s.data.exclusiveWaitset := by
  intro member
  obtain ⟨b, inside⟩ := inv.exclusiveInside t member
  exact elsewhere b inside

omit [DecidableEq Tid] in
/-- Who is not inside of `lock_shared` does not wait in its set. -/
theorem Inv.not_mem_shared (inv : Inv options s) (elsewhere : s.inside t ≠ some .lockShared) :
    t ∉ s.data.sharedWaitset :=
  fun member => elsewhere (inv.sharedInside t member)

/-- A round of the loop of `lock_exclusive`. -/
theorem Inv.exclusiveRound (inv : Inv options s) (absent : t ∉ s.data.exclusiveWaitset)
    (apart : s.data.exclusiveOwner ≠ .thread t) (unshared : s.data.sharedOwner t = 0)
    (isTimed : Bool) :
    Effect options s.data t (.lockExclusive isTimed) (s.data.exclusiveRound t).1
      (s.data.exclusiveRound t).2 := by
  have place := length_lt_card inv.exclusiveNodup absent
  rw [Data.exclusiveRound]
  by_cases free : s.data.exclusiveOwner = .free
  · rw [if_pos free, if_neg (not_not.mpr (inv.free free).1)]
    exact .owns (.inl ⟨isTimed, rfl⟩) free
  · rw [if_neg free, if_neg apart, if_neg (by omega)]
    exact .waits isTimed rfl free apart unshared

/-- A round of the loop of `lock_shared`. -/
theorem Inv.sharedRound (inv : Inv options s) (absent : t ∉ s.data.sharedWaitset)
    (apart : s.data.exclusiveOwner ≠ .thread t) (unshared : s.data.sharedOwner t = 0) :
    Effect options s.data t .lockShared (s.data.sharedRound t).1 (s.data.sharedRound t).2 := by
  have place := length_lt_card inv.sharedNodup absent
  rw [Data.sharedRound]
  by_cases open_ : s.data.exclusiveOwner = .free ∨
      s.data.exclusiveOwner = .shared ∧ s.data.exclusiveWaitset = []
  · rw [if_pos open_]
    exact .shares (.inl rfl) (open_.imp_right And.left) (.inl unshared)
  · rw [if_neg open_, if_neg apart, if_neg (by omega)]
    rw [not_or, not_and] at open_
    exact .waitsShared rfl open_.1 apart open_.2 unshared

omit [DecidableEq Tid] in
/-- Nobody owns the mutex shared while a thread owns it exclusively, or nobody does. -/
theorem Inv.unshared (inv : Inv options s) (apart : s.data.exclusiveOwner ≠ .shared) (t : Tid) :
    s.data.sharedOwner t = 0 := by
  have none : s.data.sharedLockCount = 0 := by
    cases owner : s.data.exclusiveOwner with
    | free => exact (inv.free owner).2
    | shared => exact absurd owner apart
    | thread u => exact (inv.thread u owner).2
  have sum := inv.sum
  rw [none] at sum
  exact Finset.sum_eq_zero_iff.mp sum.symm t (Finset.mem_univ t)

/-- What both ways to lock exclusively do first. -/
theorem Inv.recurseExclusive (inv : Inv options s) {call : Call} (locks : call.LocksExclusive)
    {otherwise : Outcome × Data Tid}
    (onward : s.data.exclusiveOwner ≠ .thread t → s.data.sharedOwner t = 0 →
      Effect options s.data t call otherwise.1 otherwise.2) :
    Effect options s.data t call (s.data.recurseExclusive options t otherwise).1
      (s.data.recurseExclusive options t otherwise).2 := by
  rw [Data.recurseExclusive]
  split_ifs with upgrade owner recursive
  · exact .fails _
  · exact .reenters locks owner recursive
  · exact .fails _
  · apply onward owner
    by_cases isShared : s.data.exclusiveOwner = .shared
    · by_contra has
      exact upgrade ⟨isShared, has⟩
    · exact inv.unshared isShared t

/-- What both ways to lock shared do first. -/
theorem Inv.recurseShared (inv : Inv options s) {call : Call} (locks : call.LocksShared)
    {otherwise : Outcome × Data Tid}
    (onward : s.data.exclusiveOwner ≠ .thread t → s.data.sharedOwner t = 0 →
      Effect options s.data t call otherwise.1 otherwise.2) :
    Effect options s.data t call (s.data.recurseShared options t otherwise).1
      (s.data.recurseShared options t otherwise).2 := by
  rw [Data.recurseShared]
  split_ifs with plain owner shared recursive
  · exact .unverified plain (.inl locks)
  · exact .fails _
  · exact .shares locks (.inr shared.1) (.inr recursive)
  · exact .fails _
  · apply onward owner
    by_cases isShared : s.data.exclusiveOwner = .shared
    · by_contra has
      exact shared ⟨isShared, has⟩
    · exact inv.unshared isShared t

/-- `unlock_exclusive` -/
theorem Inv.unlockExclusive (inv : Inv options s) (answer : Nat) :
    Effect options s.data t .unlockExclusive (s.data.unlockExclusive options t answer).1
      (s.data.unlockExclusive options t answer).2 := by
  simp only [Data.unlockExclusive]
  by_cases apart : s.data.exclusiveOwner ≠ .thread t
  · rw [if_pos apart]
    exact .fails _
  · have owner := not_not.mp apart
    have positive := (inv.thread t owner).1
    rw [if_neg apart]
    split_ifs with more recursive nobody
    · exact .unlocks rfl owner (by omega)
    · have once := inv.once (by simpa using recursive)
      omega
    · have last : s.data.exclusiveRecursionCount = 1 := by omega
      have effect : Effect options s.data t .unlockExclusive (.returned true) _ :=
        .leaves rfl owner last (.inl ⟨nobody, nobody, rfl⟩)
      simpa [last, nobody] using effect
    · have last : s.data.exclusiveRecursionCount = 1 := by omega
      obtain ⟨u, member, same⟩ := unparkOne_eq inv.exclusiveNodup nobody answer
      have effect : Effect options s.data t .unlockExclusive (.returned true) _ :=
        .leaves rfl owner last (.inr ⟨u, member, rfl, rfl⟩)
      simpa [last, same] using effect

/-- `unlock_shared` -/
theorem Inv.unlockShared (inv : Inv options s) (answer : Nat) :
    Effect options s.data t .unlockShared (s.data.unlockShared options t answer).1
      (s.data.unlockShared options t answer).2 := by
  simp only [Data.unlockShared]
  split_ifs with plain apart none more recursive
  · exact .unverified plain (.inr rfl)
  · exact .fails _
  · rw [not_or, not_not] at apart
    have positive := (inv.shared apart.1).2
    omega
  · have once := inv.sharedOnce recursive.2 t
    have has := recursive.1
    simp only [Function.update_self] at has
    omega
  · rw [not_or, not_not] at apart
    exact .unlocksShared rfl apart.1 apart.2 (by omega)
  · rw [not_or, not_not] at apart
    have last : s.data.sharedLockCount = 1 := by omega
    by_cases nobody : s.data.exclusiveWaitset = []
    · have effect : Effect options s.data t .unlockShared (.returned true) _ :=
        .leavesShared rfl apart.1 apart.2 last (.inl ⟨nobody, rfl⟩)
      simpa [last, nobody, Data.unparkOne] using effect
    · obtain ⟨u, member, same⟩ := unparkOne_eq inv.exclusiveNodup nobody answer
      have effect : Effect options s.data t .unlockShared (.returned true) _ :=
        .leavesShared rfl apart.1 apart.2 last (.inr ⟨u, member, rfl⟩)
      simpa [last, same] using effect

/-- The calls. -/
theorem Inv.perform (inv : Inv options s) (idle : s.inside t = none) (call : Call)
    (answer : Nat) :
    Effect options s.data t call (s.data.perform options t answer call).1
      (s.data.perform options t answer call).2 := by
  have notExclusive : t ∉ s.data.exclusiveWaitset := inv.not_mem_exclusive (by simp [idle])
  have notShared : t ∉ s.data.sharedWaitset := inv.not_mem_shared (by simp [idle])
  cases call with
  | lockExclusive isTimed =>
      exact inv.recurseExclusive (.inl ⟨isTimed, rfl⟩) fun apart unshared =>
        inv.exclusiveRound notExclusive apart unshared isTimed
  | tryLockExclusive =>
      apply inv.recurseExclusive (.inr rfl)
      intro apart unshared
      split_ifs with free count fails
      · exact absurd (inv.free free).1 count
      · exact .refuses (.inl rfl) true
      · exact .owns (.inr rfl) free
      · exact .refuses (.inl rfl) s.data.tryLockFailed
  | unlockExclusive => exact inv.unlockExclusive answer
  | lockShared =>
      exact inv.recurseShared (.inl rfl) fun apart unshared =>
        inv.sharedRound notShared apart unshared
  | tryLockShared =>
      apply inv.recurseShared (.inr rfl)
      intro apart unshared
      split_ifs with open_ fails
      · exact .refuses (.inr rfl) true
      · exact .shares (.inr rfl) (open_.imp_right And.left) (.inl unshared)
      · exact .refuses (.inr rfl) s.data.tryLockFailed
  | unlockShared => exact inv.unlockShared answer

omit [Fintype Tid] in
/-- A thread has no more shared locks after an unlock. -/
theorem update_pred_le {count : Tid → Nat} (t u : Tid) :
    Function.update count t (count t - 1) u ≤ count u := by
  by_cases isOwn : u = t
  · subst isOwn
    simp
  · simp [isOwn]

/-- A call keeps the counts. -/
theorem Effect.counts {call : Call} {outcome : Outcome} {data : Data Tid}
    (effect : Effect options m t call outcome data) (counts : Counts options m) :
    Counts options data := by
  obtain ⟨free, shared, thread, sum, once, sharedOnce⟩ := counts
  cases effect with
  | fails failure => constructor <;> assumption
  | unverified isRw isShared => constructor <;> assumption
  | refuses isTry tryLockFailed => constructor <;> assumption
  | owns locks isFree => constructor <;> simp only [Data.own] <;> grind
  | reenters locks owner recursive => constructor <;> grind
  | waits isTimed isLock busy apart unshared => constructor <;> assumption
  | unlocks isUnlock owner more => constructor <;> grind
  | leaves isUnlock owner last woken => constructor <;> grind
  | shares locks isOpen once_ =>
      have total := sum_update m.sharedOwner t (m.sharedOwner t + 1) id
      simp only [id] at total
      constructor <;> simp only [Data.share] <;> grind [Function.update_apply]
  | waitsShared isLock busy apart queued unshared => constructor <;> assumption
  | unlocksShared isUnlock isShared owner more =>
      have total := sum_update m.sharedOwner t (m.sharedOwner t - 1) id
      simp only [id] at total
      constructor
      · intro isFree
        cases isShared.symm.trans isFree
      · intro _
        refine ⟨(shared isShared).1, ?_⟩
        show 0 < m.sharedLockCount - 1
        omega
      · intro u isThread
        cases isShared.symm.trans isThread
      · show m.sharedLockCount - 1 = ∑ u, Function.update m.sharedOwner t (m.sharedOwner t - 1) u
        omega
      · exact once
      · exact fun plain u => (update_pred_le t u).trans (sharedOnce plain u)
  | leavesShared isUnlock isShared owner last woken =>
      have total := sum_update m.sharedOwner t (m.sharedOwner t - 1) id
      simp only [id] at total
      constructor
      · exact fun _ => ⟨(shared isShared).1, rfl⟩
      · intro isShared
        cases isShared
      · intro u isThread
        cases isThread
      · show 0 = ∑ u, Function.update m.sharedOwner t (m.sharedOwner t - 1) u
        omega
      · exact once
      · exact fun plain u => (update_pred_le t u).trans (sharedOnce plain u)

omit [Fintype Tid] in
/-- The sets gain no thread but the one that makes the call, which is inside of it then. -/
theorem Effect.waitsets {call : Call} {outcome : Outcome} {data : Data Tid}
    (effect : Effect options m t call outcome data) :
    (data.exclusiveWaitset.Sublist m.exclusiveWaitset ∨ outcome = .blocked ∧
      (∃ b, call = .lockExclusive b) ∧ data.exclusiveWaitset = m.exclusiveWaitset ++ [t]) ∧
    (data.sharedWaitset.Sublist m.sharedWaitset ∨ outcome = .blocked ∧
      call = .lockShared ∧ data.sharedWaitset = m.sharedWaitset ++ [t]) := by
  cases effect with
  | waits isTimed isLock busy apart unshared =>
      exact ⟨.inr ⟨rfl, ⟨isTimed, isLock⟩, rfl⟩, .inl (List.Sublist.refl _)⟩
  | waitsShared isLock busy apart queued unshared =>
      exact ⟨.inl (List.Sublist.refl _), .inr ⟨rfl, isLock, rfl⟩⟩
  | leaves isUnlock owner last woken =>
      rcases woken with ⟨_, rfl, rfl⟩ | ⟨u, member, rfl, rfl⟩
      · exact ⟨.inl (List.nil_sublist _), .inl (List.nil_sublist _)⟩
      · exact ⟨.inl List.erase_sublist, .inl (List.Sublist.refl _)⟩
  | leavesShared isUnlock shared owner last woken =>
      rcases woken with ⟨_, rfl⟩ | ⟨u, member, rfl⟩
      · exact ⟨.inl (List.nil_sublist _), .inl (List.Sublist.refl _)⟩
      · exact ⟨.inl List.erase_sublist, .inl (List.Sublist.refl _)⟩
  | _ => exact ⟨.inl (List.Sublist.refl _), .inl (List.Sublist.refl _)⟩

omit [Fintype Tid] in
/-- Whoever is inside of a call does not have the mutex. -/
theorem Effect.outside {call : Call} {outcome : Outcome} {data : Data Tid}
    (effect : Effect options m t call outcome data) {u : Tid} (other : u ≠ t)
    (outside : m.exclusiveOwner ≠ .thread u ∧ m.sharedOwner u = 0) :
    data.exclusiveOwner ≠ .thread u ∧ data.sharedOwner u = 0 := by
  obtain ⟨apart, unshared⟩ := outside
  cases effect with
  | owns locks free => exact ⟨by simpa [Data.own] using other.symm, unshared⟩
  | leaves isUnlock owner last woken => exact ⟨by simp, unshared⟩
  | shares locks open_ once => exact ⟨by simp [Data.share], by simp [Data.share, other, unshared]⟩
  | unlocksShared isUnlock shared owner more => exact ⟨apart, by simp [other, unshared]⟩
  | leavesShared isUnlock shared owner last woken => exact ⟨by simp, by simp [other, unshared]⟩
  | _ => exact ⟨apart, unshared⟩

omit [Fintype Tid] in
/-- Where the call leaves the thread. -/
theorem State.inside_after (s : State Tid) (t : Tid) (call : Call) {outcome : Outcome}
    {data : Data Tid} : (s.after t call (outcome, data)).2.inside =
      match outcome with
      | .returned _ => Function.update s.inside t none
      | .blocked => Function.update s.inside t (some call)
      | .failed _ | .unverified => s.inside := by
  unfold State.after
  cases outcome <;> rfl

omit [Fintype Tid] in
theorem State.data_after (s : State Tid) (t : Tid) (call : Call) (outcome : Outcome)
    (data : Data Tid) : (s.after t call (outcome, data)).2.data = data := by
  unfold State.after
  cases outcome <;> rfl

omit [Fintype Tid] in
/-- A call moves no other thread. -/
theorem State.inside_after_of_ne (s : State Tid) {t u : Tid} (other : u ≠ t) (call : Call)
    (outcome : Outcome) (data : Data Tid) :
    (s.after t call (outcome, data)).2.inside u = s.inside u := by
  rw [State.inside_after]
  cases outcome <;> simp [other]

omit [DecidableEq Tid] [Fintype Tid] in
/-- A thread inside of `lock_exclusive` makes no other call. -/
theorem State.ne_of_inside {call : Call}
    (mine : s.inside t = none ∨ s.inside t = some call ∧ ¬ s.Parked t) {u : Tid} {b : Bool}
    (inside : s.inside u = some (.lockExclusive b)) (isOther : ∀ b, call ≠ .lockExclusive b) :
    u ≠ t := by
  rintro rfl
  rcases mine with idle | ⟨same, _⟩
  · simp [idle] at inside
  · exact isOther b (Option.some.inj (same.symm.trans inside))

/-- An unparked writer is there whenever somebody has been unparked or still is. -/
theorem Inv.woken_effect (inv : Inv options s) {call : Call} {outcome : Outcome}
    {data : Data Tid} (effect : Effect options s.data t call outcome data)
    (mine : s.inside t = none ∨ s.inside t = some call ∧ ¬ s.Parked t)
    (free : data.exclusiveOwner = .free) (waiting : data.exclusiveWaitset ≠ []) :
    ∃ u b, (s.after t call (outcome, data)).2.inside u = some (.lockExclusive b) ∧
      u ∉ data.exclusiveWaitset := by
  -- a writer in the set is not the thread that unlocks
  have unlocker : ∀ u ∈ s.data.exclusiveWaitset, (∀ b, call ≠ .lockExclusive b) → ∃ b,
      (s.after t call (outcome, data)).2.inside u = some (.lockExclusive b) := by
    intro u member isOther
    obtain ⟨b, inside⟩ := inv.exclusiveInside u member
    have apart := State.ne_of_inside mine inside isOther
    exact ⟨b, by rwa [State.inside_after_of_ne s apart]⟩
  have erased := fun u => inv.exclusiveNodup.not_mem_erase (a := u)
  cases effect with
  | fails failure => exact inv.woken free waiting
  | unverified isRw isShared => exact inv.woken free waiting
  | refuses isTry tryLockFailed =>
      obtain ⟨u, b, inside, unparked⟩ := inv.woken free waiting
      have apart := State.ne_of_inside mine inside (by rcases isTry with rfl | rfl <;> simp)
      exact ⟨u, b, by rwa [State.inside_after_of_ne s apart], unparked⟩
  | owns locks isFree => simp [Data.own] at free
  | reenters locks owner recursive => simp [owner] at free
  | waits isTimed isLock busy apart unshared => exact absurd free busy
  | unlocks isUnlock owner more => simp [owner] at free
  | leaves isUnlock owner last woken =>
      subst isUnlock
      rcases woken with ⟨_, none, _⟩ | ⟨u, member, rfl, _⟩
      · exact absurd none waiting
      · obtain ⟨b, inside⟩ := unlocker u member (by simp)
        exact ⟨u, b, inside, erased u⟩
  | shares locks open_ once => simp [Data.share] at free
  | waitsShared isLock busy apart queued unshared => exact absurd free busy
  | unlocksShared isUnlock shared owner more => simp [shared] at free
  | leavesShared isUnlock shared owner last woken =>
      subst isUnlock
      rcases woken with ⟨_, none⟩ | ⟨u, member, rfl⟩
      · exact absurd none waiting
      · obtain ⟨b, inside⟩ := unlocker u member (by simp)
        exact ⟨u, b, inside, erased u⟩

/-- A call keeps the invariant, whatever comes of it. -/
theorem Inv.effect (inv : Inv options s) {call : Call} {outcome : Outcome} {data : Data Tid}
    (effect : Effect options s.data t call outcome data)
    (mine : s.inside t = none ∨ s.inside t = some call ∧ ¬ s.Parked t) :
    Inv options (s.after t call (outcome, data)).2 := by
  have unparked : ¬ s.Parked t := by
    rcases mine with idle | ⟨_, unparked⟩
    · rintro (member | member)
      · exact inv.not_mem_exclusive (by simp [idle]) member
      · exact inv.not_mem_shared (by simp [idle]) member
    · exact unparked
  obtain ⟨notExclusive, notShared⟩ := not_or.mp unparked
  have inside : ∀ u, u ≠ t → (s.after t call (outcome, data)).2.inside u = s.inside u :=
    fun u other => State.inside_after_of_ne s other call outcome data
  obtain ⟨exclusive, shared⟩ := effect.waitsets
  constructor
  · rw [State.data_after]
    exact effect.counts inv.toCounts
  · rw [State.data_after]
    rcases exclusive with fewer | ⟨_, _, longer⟩
    · exact inv.exclusiveNodup.sublist fewer
    · rw [longer, List.nodup_append]
      exact ⟨inv.exclusiveNodup, List.nodup_singleton t, fun u member v same => by
        rintro rfl
        rw [List.mem_singleton] at same
        exact notExclusive (same ▸ member)⟩
  · rw [State.data_after]
    rcases shared with fewer | ⟨_, _, longer⟩
    · exact inv.sharedNodup.sublist fewer
    · rw [longer, List.nodup_append]
      exact ⟨inv.sharedNodup, List.nodup_singleton t, fun u member v same => by
        rintro rfl
        rw [List.mem_singleton] at same
        exact notShared (same ▸ member)⟩
  · rw [State.data_after]
    intro u member
    rcases exclusive with fewer | ⟨rfl, ⟨b, rfl⟩, longer⟩
    · have before := fewer.subset member
      rw [inside u fun same => notExclusive (same ▸ before)]
      exact inv.exclusiveInside u before
    · by_cases isOwn : u = t
      · exact ⟨b, by simp [State.inside_after, isOwn]⟩
      · rw [inside u isOwn]
        rw [longer] at member
        exact inv.exclusiveInside u (by simpa [isOwn] using member)
  · rw [State.data_after]
    intro u member
    rcases shared with fewer | ⟨rfl, rfl, longer⟩
    · have before := fewer.subset member
      rw [inside u fun same => notShared (same ▸ before)]
      exact inv.sharedInside u before
    · by_cases isOwn : u = t
      · simp [State.inside_after, isOwn]
      · rw [inside u isOwn]
        rw [longer] at member
        exact inv.sharedInside u (by simpa [isOwn] using member)
  · rw [State.data_after]
    intro u busy
    by_cases isOwn : u = t
    · subst isOwn
      -- it has parked, or the call has failed
      rw [State.inside_after] at busy
      cases effect with
      | fails failure => exact inv.outside u busy
      | unverified isRw isShared => exact inv.outside u busy
      | waits isTimed isLock owned apart unshared => exact ⟨apart, unshared⟩
      | waitsShared isLock owned apart queued unshared => exact ⟨apart, unshared⟩
      | _ => simp at busy
    · rw [inside u isOwn] at busy
      exact effect.outside isOwn (inv.outside u busy)
  · rw [State.data_after]
    exact inv.woken_effect effect mine

/-- A wait that times out keeps the invariant. -/
theorem Inv.timeOut (inv : Inv options s) (member : t ∈ s.data.exclusiveWaitset) :
    Inv options (s.after t (.lockExclusive true) (.returned false, { s.data with
      exclusiveWaitset := s.data.exclusiveWaitset.erase t })).2 := by
  obtain ⟨_, inside⟩ := inv.exclusiveInside t member
  have kept : ∀ u ∈ s.data.exclusiveWaitset.erase t, u ≠ t ∧ u ∈ s.data.exclusiveWaitset :=
    fun u remains => (inv.exclusiveNodup.mem_erase_iff).mp remains
  constructor
  · exact ⟨inv.free, inv.shared, inv.thread, inv.sum, inv.once, inv.sharedOnce⟩
  · exact inv.exclusiveNodup.erase t
  · exact inv.sharedNodup
  · intro u remains
    simp only [State.after, Function.update_of_ne (kept u remains).1]
    exact inv.exclusiveInside u (kept u remains).2
  · intro u remains
    have before := inv.sharedInside u remains
    have apart : u ≠ t := by
      rintro rfl
      simp [inside] at before
    simp only [State.after, Function.update_of_ne apart]
    exact before
  · intro u busy
    apply inv.outside u
    rintro none
    by_cases same : u = t
    · simp [State.after, same] at busy
    · simp [State.after, same, none] at busy
  · intro free busy
    obtain ⟨u, remains⟩ := List.exists_mem_of_ne_nil _ busy
    obtain ⟨v, b, waits, unparked⟩ := inv.woken free (List.ne_nil_of_mem member)
    have apart : v ≠ t := by
      rintro rfl
      exact unparked member
    refine ⟨v, b, ?_, fun again => unparked (kept v again).2⟩
    simp only [State.after, Function.update_of_ne apart]
    exact waits

/-- What a step is: a call that begins or goes on, or the end of a timed wait. -/
theorem Inv.step_cases (inv : Inv options s) {event : Event Tid}
    (step : (machine options).Step s event s') : s.ended = false ∧
      ((∃ data, Effect options s.data event.thread event.call event.outcome data ∧
          s' = (s.after event.thread event.call (event.outcome, data)).2 ∧
          (s.inside event.thread = none ∨
            s.inside event.thread = some event.call ∧ ¬ s.Parked event.thread)) ∨
        event.call = .lockExclusive true ∧ event.outcome = .returned false ∧
          event.thread ∈ s.data.exclusiveWaitset ∧
          s' = (s.after event.thread (.lockExclusive true) (.returned false, { s.data with
            exclusiveWaitset := s.data.exclusiveWaitset.erase event.thread })).2) := by
  obtain ⟨choice, taken⟩ := step
  cases choice with
  | call t call answer =>
      simp only [step?] at taken
      split_ifs at taken with stuck
      rw [not_or, not_not] at stuck
      cases Option.some.inj taken
      refine ⟨by simpa using stuck.1, .inl ⟨_, inv.perform stuck.2 call answer, rfl, ?_⟩⟩
      exact .inl stuck.2
  | goOn t =>
      simp only [step?] at taken
      split_ifs at taken with stuck
      rw [not_or] at stuck
      refine ⟨by simpa using stuck.1, .inl ?_⟩
      have absent := not_or.mp stuck.2
      split at taken
      next isTimed inside =>
        cases Option.some.inj taken
        obtain ⟨apart, unshared⟩ := inv.outside t (by simp [inside])
        exact ⟨_, inv.exclusiveRound absent.1 apart unshared isTimed, rfl, .inr ⟨inside, stuck.2⟩⟩
      next inside =>
        cases Option.some.inj taken
        obtain ⟨apart, unshared⟩ := inv.outside t (by simp [inside])
        exact ⟨_, inv.sharedRound absent.2 apart unshared, rfl, .inr ⟨inside, stuck.2⟩⟩
      next => cases taken
  | timeOut t =>
      simp only [step?] at taken
      split_ifs at taken with stuck
      rw [not_or, not_or, not_not, not_not] at stuck
      cases Option.some.inj taken
      exact ⟨by simpa using stuck.1, .inr ⟨rfl, rfl, stuck.2.2, rfl⟩⟩

/-- Every step keeps the invariant. -/
theorem Inv.step (inv : Inv options s) {event : Event Tid}
    (step : (machine options).Step s event s') : Inv options s' := by
  obtain ⟨_, ⟨data, effect, rfl, mine⟩ | ⟨_, _, member, rfl⟩⟩ := inv.step_cases step
  · exact inv.effect effect mine
  · exact inv.timeOut member

omit [DecidableEq Tid] in
theorem inv_initial : Inv options (initial : State Tid) := by
  constructor
  · constructor <;> simp [initial]
  all_goals simp [initial]

/-- The invariant holds in every run. -/
theorem inv_of_run {events : List (Event Tid)} (run : (machine options).Steps initial events s) :
    Inv options s := by
  apply run.invariant
  · exact inv_initial
  · intro before event after inv _ step
    exact inv.step step

/-- The checks of the mutex hold, but that of whether it can be shared. -/
theorem verified_of_run {events : List (Event Tid)}
    (run : (machine options).Steps initial events s) {event : Event Tid}
    (step : (machine options).Step s event s') (unverified : event.outcome = .unverified) :
    options.isRw = false ∧ (event.call.LocksShared ∨ event.call = .unlockShared) := by
  obtain ⟨_, ⟨data, effect, _⟩ | ⟨_, refused, _⟩⟩ := (inv_of_run run).step_cases step
  · rw [unverified] at effect
    cases effect with
    | unverified isRw isShared => exact ⟨isRw, isShared⟩
  · simp [unverified] at refused

/-! ### What threads see of the mutex -/

/-- How much more of the mutex the thread has after the call: exclusively. -/
def Event.exclusive (event : Event Tid) : Int :=
  match event.call, event.outcome with
  | .lockExclusive _, .returned true => 1
  | .tryLockExclusive, .returned true => 1
  | .unlockExclusive, .returned true => -1
  | _, _ => 0

/-- How much more of the mutex the thread has after the call: shared. -/
def Event.shared (event : Event Tid) : Int :=
  match event.call, event.outcome with
  | .lockShared, .returned true => 1
  | .tryLockShared, .returned true => 1
  | .unlockShared, .returned true => -1
  | _, _ => 0

/-- What a thread has after some calls: it has locked so much more often than unlocked. -/
def held (kind : Event Tid → Int) (t : Tid) (events : List (Event Tid)) : Int :=
  (events.map fun event => if event.thread = t then kind event else 0).sum

/-- How often the thread has locked the mutex exclusively, as the mutex knows it. -/
def Data.ownedBy (m : Data Tid) (t : Tid) : Int :=
  if m.exclusiveOwner = .thread t then m.exclusiveRecursionCount else 0

omit [Fintype Tid] in
theorem held_snoc (kind : Event Tid → Int) (t : Tid) (events : List (Event Tid))
    (event : Event Tid) : held kind t (events ++ [event]) =
      held kind t events + if event.thread = t then kind event else 0 := by
  simp [held]

omit [Fintype Tid] in
/-- The mutex counts the exclusive locks of each thread. -/
theorem Effect.ownedBy {call : Call} {outcome : Outcome} {data : Data Tid}
    (effect : Effect options m t call outcome data) (u : Tid) :
    data.ownedBy u =
      m.ownedBy u + if t = u then (⟨t, call, outcome⟩ : Event Tid).exclusive else 0 := by
  cases effect with
  | fails failure => cases call <;> simp [Event.exclusive]
  | unverified isRw isShared => cases call <;> simp [Event.exclusive]
  | refuses isTry tryLockFailed => cases call <;> simp [Event.exclusive, Data.ownedBy]
  | owns locks free =>
      have net : (⟨t, call, .returned true⟩ : Event Tid).exclusive = 1 := by
        rcases locks with ⟨isTimed, rfl⟩ | rfl <;> rfl
      rw [net]
      simp [Data.ownedBy, Data.own, free]
  | reenters locks owner recursive =>
      have net : (⟨t, call, .returned true⟩ : Event Tid).exclusive = 1 := by
        rcases locks with ⟨isTimed, rfl⟩ | rfl <;> rfl
      rw [net]
      by_cases same : t = u
      · simp [Data.ownedBy, owner, same]
      · simp [Data.ownedBy, owner, same]
  | waits isTimed isLock busy apart unshared => cases call <;> simp [Event.exclusive, Data.ownedBy]
  | unlocks isUnlock owner more =>
      subst isUnlock
      by_cases same : t = u
      · simp only [Data.ownedBy, owner, same, Event.exclusive, if_true]
        omega
      · simp [Data.ownedBy, owner, same]
  | leaves isUnlock owner last woken =>
      subst isUnlock
      by_cases same : t = u
      · simp [Data.ownedBy, owner, same, Event.exclusive, last]
      · simp [Data.ownedBy, owner, same]
  | shares locks open_ once =>
      have net : (⟨t, call, .returned true⟩ : Event Tid).exclusive = 0 := by
        rcases locks with rfl | rfl <;> rfl
      rw [net]
      rcases open_ with free | shared
      · simp [Data.ownedBy, Data.share, free]
      · simp [Data.ownedBy, Data.share, shared]
  | waitsShared isLock busy apart queued unshared =>
      cases call <;> simp [Event.exclusive, Data.ownedBy]
  | unlocksShared isUnlock shared owner more =>
      subst isUnlock
      simp [Data.ownedBy, shared, Event.exclusive]
  | leavesShared isUnlock shared owner last woken =>
      subst isUnlock
      simp [Data.ownedBy, shared, Event.exclusive]

omit [Fintype Tid] in
/-- The mutex counts the shared locks of each thread. -/
theorem Effect.sharedOwner {call : Call} {outcome : Outcome} {data : Data Tid}
    (effect : Effect options m t call outcome data) (u : Tid) :
    (data.sharedOwner u : Int) =
      m.sharedOwner u + if t = u then (⟨t, call, outcome⟩ : Event Tid).shared else 0 := by
  -- one lock less of a thread that has some
  have less : m.sharedOwner t ≠ 0 →
      ((Function.update m.sharedOwner t (m.sharedOwner t - 1) u : Nat) : Int) =
        m.sharedOwner u + if t = u then -1 else 0 := by
    intro owner
    by_cases same : t = u
    · subst same
      simp only [Function.update_self, if_true]
      omega
    · simp [same, Function.update_of_ne (Ne.symm same)]
  cases effect with
  | fails failure => cases call <;> simp [Event.shared]
  | unverified isRw isShared => cases call <;> simp [Event.shared]
  | refuses isTry tryLockFailed => cases call <;> simp [Event.shared]
  | owns locks free => rcases locks with ⟨isTimed, rfl⟩ | rfl <;> simp [Data.own, Event.shared]
  | reenters locks owner recursive =>
      rcases locks with ⟨isTimed, rfl⟩ | rfl <;> simp [Event.shared]
  | waits isTimed isLock busy apart unshared => cases call <;> simp [Event.shared]
  | unlocks isUnlock owner more =>
      subst isUnlock
      simp [Event.shared]
  | leaves isUnlock owner last woken =>
      subst isUnlock
      simp [Event.shared]
  | shares locks open_ once =>
      have net : (⟨t, call, .returned true⟩ : Event Tid).shared = 1 := by
        rcases locks with rfl | rfl <;> rfl
      rw [net]
      by_cases same : t = u
      · subst same
        simp [Data.share]
      · simp [Data.share, same, Function.update_of_ne (Ne.symm same)]
  | waitsShared isLock busy apart queued unshared => cases call <;> simp [Event.shared]
  | unlocksShared isUnlock shared owner more =>
      subst isUnlock
      exact less owner
  | leavesShared isUnlock shared owner last woken =>
      subst isUnlock
      exact less owner

/-- What threads see is what the mutex knows. -/
theorem held_of_run {events : List (Event Tid)} (run : (machine options).Steps initial events s)
    (u : Tid) : held Event.exclusive u events = s.data.ownedBy u ∧
      held Event.shared u events = s.data.sharedOwner u := by
  induction run with
  | refl => simp [held, initial, Data.ownedBy]
  | @step earlier between event after prior transition _ inductionHypothesis =>
      have inv := inv_of_run prior
      rw [held_snoc, held_snoc, inductionHypothesis.1, inductionHypothesis.2]
      obtain ⟨_, ⟨data, effect, rfl, _⟩ | ⟨isLock, refused, _, rfl⟩⟩ := inv.step_cases transition
      · rw [State.data_after]
        exact ⟨(effect.ownedBy u).symm, (effect.sharedOwner u).symm⟩
      · have none : event.exclusive = 0 ∧ event.shared = 0 := by
          simp [Event.exclusive, Event.shared, isLock, refused]
        rw [none.1, none.2, ite_self, add_zero, add_zero]
        exact ⟨rfl, rfl⟩

/-- **Mutual exclusion.** While a thread has locked the mutex exclusively more often than it
has unlocked it, nobody has it shared and no other thread exclusively. -/
theorem mutual_exclusion {events : List (Event Tid)}
    (run : (machine options).Steps initial events s) {t : Tid}
    (locked : 0 < held Event.exclusive t events) :
    (∀ u, u ≠ t → held Event.exclusive u events = 0) ∧ ∀ u, held Event.shared u events = 0 := by
  have inv := inv_of_run run
  rw [(held_of_run run t).1, Data.ownedBy] at locked
  split_ifs at locked with owner
  · constructor
    · intro u other
      rw [(held_of_run run u).1, Data.ownedBy, if_neg]
      rw [owner]
      simpa using other.symm
    · intro u
      rw [(held_of_run run u).2, inv.unshared (by simp [owner])]
      rfl
  · omega

/-- Two threads, one of which has locked the mutex. -/
theorem mutual_exclusion_locked : ∃ (events : List (Event (Fin 2))) (s : State (Fin 2)),
    (machine ⟨true, false, false, false⟩).Steps initial events s ∧
      held Event.exclusive 0 events = 1 ∧ held Event.exclusive 1 events = 0 := by
  have ran : ∃ events s, (machine ⟨true, false, false, false⟩).Steps
      (initial : State (Fin 2)) events s ∧ held Event.exclusive 0 events = 1 :=
    System.exists_steps [.call 0 (.lockExclusive false) 0, .call 1 (.lockExclusive true) 0]
      (by decide +kernel)
  obtain ⟨events, s, run, locked⟩ := ran
  have others := (mutual_exclusion run (t := 0) (by omega)).1 1 (by decide)
  exact ⟨events, s, run, locked, others⟩

/-! ### No wake-up is lost -/

/-- If nobody has the mutex, it is free. -/
theorem free_of_run {events : List (Event Tid)} (run : (machine options).Steps initial events s)
    (nobody : ∀ u, held Event.exclusive u events = 0 ∧ held Event.shared u events = 0) :
    s.data.exclusiveOwner = .free := by
  have inv := inv_of_run run
  cases owner : s.data.exclusiveOwner with
  | free => rfl
  | shared =>
      have positive := (inv.shared owner).2
      have none : ∀ u, s.data.sharedOwner u = 0 := by
        intro u
        have same := (held_of_run run u).2
        rw [(nobody u).2] at same
        exact Int.natCast_eq_zero.mp same.symm
      have sum := inv.sum
      simp only [none, Finset.sum_const_zero] at sum
      omega
  | thread u =>
      have positive := (inv.thread u owner).1
      have same := (held_of_run run u).1
      rw [(nobody u).1, Data.ownedBy, if_pos owner] at same
      omega

/-- An unparked thread in `lock_exclusive` takes the mutex if that is free. -/
theorem Inv.takes (inv : Inv options s) (running : s.ended = false)
    (free : s.data.exclusiveOwner = .free) {isTimed : Bool}
    (inside : s.inside t = some (.lockExclusive isTimed))
    (unparked : t ∉ s.data.exclusiveWaitset) :
    ¬ s.Parked t ∧
      ∃ s', (machine options).Step s ⟨t, .lockExclusive isTimed, .returned true⟩ s' := by
  have notShared : t ∉ s.data.sharedWaitset := inv.not_mem_shared (by simp [inside])
  refine ⟨not_or.mpr ⟨unparked, notShared⟩, ?_⟩
  refine ⟨(s.after t (.lockExclusive isTimed) (s.data.exclusiveRound t)).2, .goOn t, ?_⟩
  simp [step?, running, State.Parked, unparked, notShared, inside, Data.exclusiveRound, free,
    (inv.free free).1, State.after]

/-- So does one in `lock_shared`. -/
theorem Inv.takesShared (inv : Inv options s) (running : s.ended = false)
    (free : s.data.exclusiveOwner = .free) (inside : s.inside t = some .lockShared)
    (unparked : t ∉ s.data.sharedWaitset) :
    ∃ s', (machine options).Step s ⟨t, .lockShared, .returned true⟩ s' := by
  have notExclusive : t ∉ s.data.exclusiveWaitset := inv.not_mem_exclusive (by simp [inside])
  refine ⟨(s.after t .lockShared (s.data.sharedRound t)).2, .goOn t, ?_⟩
  simp [step?, running, State.Parked, unparked, notExclusive, inside, Data.sharedRound, free,
    State.after]

/-- **No wake-up of `lock_exclusive` is lost.** While a thread is inside of it and nobody has
the mutex, a thread inside of it is not parked, and takes the mutex when it goes on. -/
theorem exclusive_granted {events : List (Event Tid)}
    (run : (machine options).Steps initial events s) (running : s.ended = false) {isTimed : Bool}
    (inside : s.inside t = some (.lockExclusive isTimed))
    (nobody : ∀ u, held Event.exclusive u events = 0 ∧ held Event.shared u events = 0) :
    ∃ u isTimed s', s.inside u = some (.lockExclusive isTimed) ∧ ¬ s.Parked u ∧
      (machine options).Step s ⟨u, .lockExclusive isTimed, .returned true⟩ s' := by
  have inv := inv_of_run run
  have free := free_of_run run nobody
  have woken : ∃ u b, s.inside u = some (.lockExclusive b) ∧ u ∉ s.data.exclusiveWaitset := by
    by_cases parked : t ∈ s.data.exclusiveWaitset
    · exact inv.woken free (List.ne_nil_of_mem parked)
    · exact ⟨t, isTimed, inside, parked⟩
  obtain ⟨u, b, waits, unparked⟩ := woken
  obtain ⟨notParked, s', step⟩ := inv.takes running free waits unparked
  exact ⟨u, b, s', waits, notParked, step⟩

/-- One thread waits for the mutex, and the other one unlocks it. -/
theorem exclusive_granted_waiting : ∃ (events : List (Event (Fin 2))) (s : State (Fin 2)),
    (machine ⟨true, false, false, false⟩).Steps initial events s ∧ ∃ u isTimed s',
      s.inside u = some (.lockExclusive isTimed) ∧ ¬ s.Parked u ∧
        (machine ⟨true, false, false, false⟩).Step s
          ⟨u, .lockExclusive isTimed, .returned true⟩ s' := by
  have ran : ∃ events s, (machine ⟨true, false, false, false⟩).Steps
      (initial : State (Fin 2)) events s ∧ s.ended = false ∧
        s.inside 1 = some (.lockExclusive false) ∧
          ∀ u, held Event.exclusive u events = 0 ∧ held Event.shared u events = 0 :=
    System.exists_steps [.call 0 (.lockExclusive false) 0, .call 1 (.lockExclusive false) 0,
      .call 0 .unlockExclusive 0] (by decide +kernel)
  obtain ⟨events, s, run, running, inside, nobody⟩ := ran
  exact ⟨events, s, run, exclusive_granted run running inside nobody⟩

/-- Readers wait for a writer that has the mutex, or waits for it, or is about to take it. -/
def ReadersWait (s : State Tid) : Prop :=
  s.data.sharedWaitset ≠ [] → (∃ u, s.data.exclusiveOwner = .thread u) ∨
    s.data.exclusiveWaitset ≠ [] ∨
      ∃ u b, s.inside u = some (.lockExclusive b) ∧ u ∉ s.data.exclusiveWaitset

/-- Calls keep it so. -/
theorem ReadersWait.effect (readers : ReadersWait s) (inv : Inv options s) {call : Call}
    {outcome : Outcome} {data : Data Tid} (effect : Effect options s.data t call outcome data)
    (mine : s.inside t = none ∨ s.inside t = some call ∧ ¬ s.Parked t) :
    ReadersWait (s.after t call (outcome, data)).2 := by
  -- a writer that is about to take the mutex is not the thread that makes another call
  have kept : (∀ b, call ≠ .lockExclusive b) → ∀ u b, s.inside u = some (.lockExclusive b) →
      Function.update s.inside t none u = some (.lockExclusive b) := by
    intro isOther u b inside
    rwa [Function.update_of_ne (State.ne_of_inside mine inside isOther)]
  have erased := fun u => inv.exclusiveNodup.not_mem_erase (a := u)
  cases effect with
  | fails failure => exact readers
  | unverified isRw isShared => exact readers
  | refuses isTry tryLockFailed =>
      intro some_
      rcases readers some_ with owner | waits | ⟨u, b, inside, unparked⟩
      · exact .inl owner
      · exact .inr (.inl waits)
      · exact .inr (.inr ⟨u, b, kept (by rcases isTry with rfl | rfl <;> simp) u b inside,
        unparked⟩)
  | owns locks free => exact fun _ => .inl ⟨t, rfl⟩
  | reenters locks owner recursive => exact fun _ => .inl ⟨t, owner⟩
  | waits isTimed isLock busy apart unshared => exact fun _ => .inr (.inl (by simp [State.after]))
  | unlocks isUnlock owner more => exact fun _ => .inl ⟨t, owner⟩
  | leaves isUnlock owner last woken =>
      subst isUnlock
      rcases woken with ⟨_, _, rfl⟩ | ⟨u, member, rfl, rfl⟩
      · exact fun some_ => absurd rfl some_
      · obtain ⟨b, inside⟩ := inv.exclusiveInside u member
        exact fun _ => .inr (.inr ⟨u, b, kept (by simp) u b inside, erased u⟩)
  | shares locks open_ once =>
      intro some_
      rcases readers some_ with ⟨u, owner⟩ | waits | ⟨u, b, inside, unparked⟩
      · rcases open_ with free | shared
        · simp [free] at owner
        · simp [shared] at owner
      · exact .inr (.inl waits)
      · exact .inr (.inr ⟨u, b, kept (by rcases locks with rfl | rfl <;> simp) u b inside,
        unparked⟩)
  | waitsShared isLock busy apart queued unshared =>
      intro _
      cases owner : s.data.exclusiveOwner with
      | free => exact absurd owner busy
      | shared => exact .inr (.inl (queued owner))
      | thread u => exact .inl ⟨u, rfl⟩
  | unlocksShared isUnlock shared owner more =>
      subst isUnlock
      intro some_
      rcases readers some_ with owner | waits | ⟨u, b, inside, unparked⟩
      · exact .inl owner
      · exact .inr (.inl waits)
      · exact .inr (.inr ⟨u, b, kept (by simp) u b inside, unparked⟩)
  | leavesShared isUnlock shared owner last woken =>
      subst isUnlock
      rcases woken with ⟨none, rfl⟩ | ⟨u, member, rfl⟩
      · intro some_
        rcases readers some_ with ⟨u, owner⟩ | waits | ⟨u, b, inside, unparked⟩
        · simp [shared] at owner
        · exact absurd none waits
        · exact .inr (.inr ⟨u, b, kept (by simp) u b inside, by simp [State.after]⟩)
      · obtain ⟨b, inside⟩ := inv.exclusiveInside u member
        exact fun _ => .inr (.inr ⟨u, b, kept (by simp) u b inside, erased u⟩)

/-- A timed wait has ended without the mutex. -/
def Event.TimesOut (event : Event Tid) : Prop :=
  event.call = .lockExclusive true ∧ event.outcome = .returned false

instance (event : Event Tid) : Decidable event.TimesOut :=
  inferInstanceAs (Decidable (_ ∧ _))

/-- **No wake-up of `lock_shared` is lost either, as long as no timed wait ends.** While a
thread is inside of it and nobody has the mutex, some thread inside of a lock has been
unparked, and takes the mutex when it goes on. -/
theorem shared_granted {events : List (Event Tid)}
    (run : (machine options).StepsWhere (fun _ event => ¬ event.TimesOut) initial events s)
    (running : s.ended = false) (inside : s.inside t = some .lockShared)
    (nobody : ∀ u, held Event.exclusive u events = 0 ∧ held Event.shared u events = 0) :
    ∃ u call s', s.inside u = some call ∧
      (machine options).Step s ⟨u, call, .returned true⟩ s' := by
  have inv := inv_of_run run.steps
  have free := free_of_run run.steps nobody
  have readers : Inv options s ∧ ReadersWait s := by
    apply run.invariant
    · exact ⟨inv_initial, by simp [ReadersWait, initial]⟩
    · rintro before event after ⟨inv, readers⟩ admitted step
      refine ⟨inv.step step, ?_⟩
      obtain ⟨_, ⟨data, effect, rfl, mine⟩ | ⟨isLock, refused, _⟩⟩ := inv.step_cases step
      · exact readers.effect inv effect mine
      · exact absurd ⟨isLock, refused⟩ admitted
  by_cases parked : t ∈ s.data.sharedWaitset
  · have woken : ∃ u b, s.inside u = some (.lockExclusive b) ∧ u ∉ s.data.exclusiveWaitset := by
      rcases readers.2 (List.ne_nil_of_mem parked) with ⟨u, owner⟩ | waits | woken
      · simp [free] at owner
      · exact inv.woken free waits
      · exact woken
    obtain ⟨u, b, waits, unparked⟩ := woken
    obtain ⟨_, s', step⟩ := inv.takes running free waits unparked
    exact ⟨u, _, s', waits, step⟩
  · obtain ⟨s', step⟩ := inv.takesShared running free inside parked
    exact ⟨t, _, s', inside, step⟩

/-- A writer waits for a reader, and another reader for the writer. -/
theorem shared_granted_waiting : ∃ (events : List (Event (Fin 3))) (s : State (Fin 3)),
    (machine ⟨true, false, false, false⟩).Steps initial events s ∧ ∃ u call s',
      s.inside u = some call ∧
        (machine ⟨true, false, false, false⟩).Step s ⟨u, call, .returned true⟩ s' := by
  have ran : ∃ events s, (System.ofStep? (System.guard? (step? ⟨true, false, false, false⟩)
      fun _ event => ¬ event.TimesOut)).Steps (initial : State (Fin 3)) events s ∧
        s.ended = false ∧ s.inside 2 = some .lockShared ∧
          ∀ u, held Event.exclusive u events = 0 ∧ held Event.shared u events = 0 :=
    System.exists_steps [.call 0 .lockShared 0, .call 1 (.lockExclusive true) 0,
      .call 2 .lockShared 0, .call 0 .unlockShared 0] (by decide +kernel)
  obtain ⟨events, s, run, running, inside, nobody⟩ := ran
  have run := System.stepsWhere_of_guard? run
  exact ⟨events, s, run.steps, shared_granted run running inside nobody⟩

/-- Once a timed wait has ended, a reader can be left parked with the mutex free: when the
last reader unlocks, `unlock_shared` unparks no reader. -/
theorem reader_lost : ∃ (events : List (Event (Fin 3))) (s : State (Fin 3)),
    (machine ⟨true, false, false, false⟩).Steps initial events s ∧ s.ended = false ∧
      (∀ u, held Event.exclusive u events = 0 ∧ held Event.shared u events = 0) ∧
        s.inside 2 = some .lockShared ∧ ∀ u, s.inside u ≠ none → s.Parked u :=
  System.exists_steps [.call 0 .lockShared 0, .call 1 (.lockExclusive true) 0,
    .call 2 .lockShared 0, .timeOut 1, .call 0 .unlockShared 0] (by decide +kernel)

end LockFree.Relacy.Mutex
