import LockFree.Relacy.Search
import Mathlib.Algebra.GroupWithZero.Nat
import Mathlib.Algebra.Ring.Int.Defs
import Mathlib.Data.Fin.Basic
import Mathlib.Data.Finset.Basic
import Mathlib.Data.Fintype.BigOperators
import Mathlib.Data.List.FinRange

/-!
# The scheduler

`scheduler` and `tree_search_scheduler` for tests whose threads park, yield and are
created. A thread runs if nothing blocks it: `block_count_` counts why it does not,
since it is parked, not created yet, finished, or waits for other threads after a
yield.

An `RL_VERIFY` that fails is `none`.
-/

namespace LockFree.Relacy

open Search

/-- `thread_state_e` -/
inductive ThreadState where
  | running
  | blocked
  | finished
deriving DecidableEq, Repr

/-- `unpark_reason` -/
inductive UnparkReason where
  | normal
  | timeout
  | spurious
deriving DecidableEq, Repr

/-- `thread_finish_result` -/
inductive ThreadFinishResult where
  | normal
  | last
  | deadlock
deriving DecidableEq, Repr

/-- `tree_search_scheduler_thread_info` -/
structure SchedulerThread (n : Nat) where
  blockCount : Nat
  state : ThreadState
  yieldSchedCount : Fin n → Nat
  yieldPriority : Fin n → Nat
  totalYieldPriority : Nat

/-- `reset` -/
def SchedulerThread.reset {n : Nat} : SchedulerThread n := ⟨0, .running, fun _ => 0, fun _ => 0, 0⟩

/-- `scheduler`. The counts beside its arrays are the lengths of the lists. -/
structure Scheduler (n : Nat) where
  threads : Fin n → SchedulerThread n
  thread : Fin n
  runningThreads : List (Fin n)
  finishedThreadCount : Nat
  timedThreads : List (Fin n)
  spuriousThreads : List (Fin n)
  dynamicThreads : List (Fin n)

namespace Scheduler

variable {n : Nat}

/-- The scheduler with the data of a thread replaced. -/
def setThread (s : Scheduler n) (th : Fin n) (t : SchedulerThread n) : Scheduler n :=
  { s with threads := Function.update s.threads th t }

/-- `unblock_thread` -/
def unblockThread (s : Scheduler n) (th : Fin n) : Option (Scheduler n) :=
  let t := s.threads th
  if t.state ≠ .blocked then none
  else if t.blockCount - 1 ≠ 0 then some (s.setThread th { t with blockCount := t.blockCount - 1 })
  else some ({ s with runningThreads := s.runningThreads ++ [th] }.setThread th
    { t with blockCount := t.blockCount - 1, state := .running })

/-- The body of the loop of `on_thread_block`: a thread no longer waits for `th`. -/
def releaseFrom (th : Fin n) (s : Scheduler n) (i : Fin n) : Option (Scheduler n) :=
  let t := s.threads th
  if t.yieldPriority i = 0 then some s
  else (s.setThread th { t with
    totalYieldPriority := t.totalYieldPriority - t.yieldPriority i
    yieldPriority := Function.update t.yieldPriority i 0 }).unblockThread i

/-- `on_thread_block` -/
def onThreadBlock (s : Scheduler n) (th : Fin n) : Option (Scheduler n) :=
  if (s.threads th).totalYieldPriority = 0 then some s
  else (List.finRange n).foldlM (releaseFrom th) s

/-- `block_thread` -/
def blockThread (s : Scheduler n) (th : Fin n) : Option (Scheduler n) :=
  let t := s.threads th
  if t.state = .finished then none
  else if t.blockCount ≠ 0 then some (s.setThread th { t with blockCount := t.blockCount + 1 })
  else if th ∈ s.runningThreads then
    ({ s with runningThreads := s.runningThreads.erase th }.setThread th
      { t with blockCount := t.blockCount + 1, state := .blocked }).onThreadBlock th
  else none

/-- `purge_blocked_threads` -/
def purgeBlockedThreads (s : Scheduler n) : Option (Scheduler n) :=
  (List.finRange n).foldlM onThreadBlock s

/-- `is_deadlock` -/
def isDeadlock (s : Scheduler n) : Option (Bool × Scheduler n) :=
  if s.runningThreads = [] ∧ s.timedThreads = [] then
    s.purgeBlockedThreads.map fun s =>
      (decide (s.runningThreads = [] ∧ s.timedThreads = []), s)
  else some (false, s)

/-- `park_current_thread`. The answer is whether some thread can still go on. -/
def parkCurrentThread (s : Scheduler n) (isTimed allowSpuriousWakeup : Bool) :
    Option (Bool × Scheduler n) := do
  let timed := if isTimed then s.timedThreads ++ [s.thread] else s.timedThreads
  let spurious := if allowSpuriousWakeup then s.spuriousThreads ++ [s.thread] else s.spuriousThreads
  if n < timed.length ∨ n < spurious.length then none
  else
    let s ← { s with timedThreads := timed, spuriousThreads := spurious }.blockThread s.thread
    let (dead, s) ← s.isDeadlock
    some (!dead, s)

/-- `unpark_thread` -/
def unparkThread (s : Scheduler n) (th : Fin n) : Option (Scheduler n) :=
  (s.unblockThread th).map fun s => { s with
    spuriousThreads := s.spuriousThreads.erase th
    timedThreads := s.timedThreads.erase th }

/-- The loop of `thread_finished`, when it may go round that often. -/
def finishResult : Nat → Scheduler n → Option (ThreadFinishResult × Scheduler n)
  | 0, _ => none
  | rounds + 1, s =>
      if s.finishedThreadCount = n then some (.last, s)
      else do
        let (dead, s) ← s.isDeadlock
        if dead then
          if s.dynamicThreads.isEmpty then some (.deadlock, s)
          else
            -- threads that nobody has created begin now, the last one first
            let s ← s.dynamicThreads.reverse.foldlM unblockThread { s with dynamicThreads := [] }
            finishResult rounds s
        else some (.normal, s)

/-- `thread_finished` -/
def threadFinished (s : Scheduler n) : Option (ThreadFinishResult × Scheduler n) :=
  if (s.threads s.thread).state ≠ .running then none
  else do
    let s ← s.blockThread s.thread
    finishResult 2 { s.setThread s.thread { s.threads s.thread with state := .finished } with
      finishedThreadCount := s.finishedThreadCount + 1 }

/-- `create_thread` -/
def createThread (s : Scheduler n) : Option (Fin n × Scheduler n) :=
  match s.dynamicThreads.getLast? with
  | none => none
  | some th => ({ s with dynamicThreads := s.dynamicThreads.dropLast }.unblockThread th).map
      fun s => (th, s)

/-- A thread waits for the current one for one round less. -/
def shortenFor (s : Scheduler n) (i : Fin n) : Option (Scheduler n) :=
  let t := s.threads s.thread
  if t.yieldPriority i = 0 then some s
  else
    let s' := s.setThread s.thread { t with
      totalYieldPriority := t.totalYieldPriority - 1
      yieldPriority := Function.update t.yieldPriority i (t.yieldPriority i - 1) }
    if t.yieldPriority i - 1 = 0 then s'.unblockThread i else some s'

/-- The body of the first loop of `schedule_impl`. -/
def passFor (s : Scheduler n) (i : Fin n) : Option (Scheduler n) :=
  (s.shortenFor i).map fun s =>
    let t := s.threads s.thread
    s.setThread s.thread { t with
      yieldSchedCount := Function.update t.yieldSchedCount i (t.yieldSchedCount i + 1) }

/-- The first loop of `schedule_impl`. -/
def pass (s : Scheduler n) : Option (Scheduler n) :=
  if (s.threads s.thread).totalYieldPriority = 0 then some s
  else (List.finRange n).foldlM passFor s

/-- The current thread waits for another one that has not been scheduled often enough. -/
def waitFor (yield : Nat) (s : Scheduler n) (i : Fin n) : Option (Scheduler n) :=
  let y := s.threads i
  if s.thread ≠ i ∧ y.yieldSchedCount s.thread < yield ∧ y.state ≠ .finished then
    (s.setThread i { y with
      yieldPriority := Function.update y.yieldPriority s.thread yield
      totalYieldPriority := y.totalYieldPriority + yield }).blockThread s.thread
  else some s

/-- The body of the loop of `yield_priority`. -/
def yieldTo (yield : Nat) (s : Scheduler n) (i : Fin n) : Option (Scheduler n) :=
  if (s.threads i).yieldPriority s.thread ≠ 0 then none
  else (waitFor yield s i).map fun s =>
    let y := s.threads i
    s.setThread i { y with yieldSchedCount := Function.update y.yieldSchedCount s.thread 0 }

/-- `yield_priority` -/
def yieldPriority (s : Scheduler n) (yield : Nat) : Option (Scheduler n) := do
  if yield = 0 then none
  else
    let s ← (List.finRange n).foldlM (yieldTo yield) s
    if s.runningThreads = [] then s.purgeBlockedThreads else some s

/-- One of the threads of a list that have been blocked with a condition on their
end is unparked, if nothing else blocks it. -/
def endWait (s : Scheduler n) (threads : List (Fin n)) (reason : UnparkReason) (index : Nat) :
    Option (Option (Fin n × UnparkReason) × Scheduler n) :=
  match threads[index]? with
  | none => some (none, s)
  | some th =>
      if (s.threads th).blockCount = 1 then do
        let s ← s.unparkThread th
        if (s.threads th).state = .running then some (some (th, reason), s) else none
      else some (none, s)

/-- The choice of a running thread. -/
def pickRunning (s : Scheduler n) :
    Tree SchedType (Option (Fin n × UnparkReason × Scheduler n)) :=
  (chooseThread s.runningThreads).bind fun chosen =>
    .done (chosen.map fun th => (th, UnparkReason.normal, s))

/-- A number chosen by the search names a thread whose wait ends, or none. -/
def offer (s : Scheduler n) (threads : List (Fin n)) (reason : UnparkReason) (others : Nat)
    (otherwise : Scheduler n → Tree SchedType (Option (Fin n × UnparkReason × Scheduler n))) :
    Tree SchedType (Option (Fin n × UnparkReason × Scheduler n)) :=
  .ask others .user fun index =>
    match s.endWait threads reason index with
    | none => .done none
    | some (some (th, reason), s) => .done (some (th, reason, s))
    | some (none, s) => otherwise s

/-- The choice of a spurious wakeup, or else of a running thread. -/
def pickSpurious (s : Scheduler n) :
    Tree SchedType (Option (Fin n × UnparkReason × Scheduler n)) :=
  if s.runningThreads = [] then .done none
  else if s.spuriousThreads = [] then s.pickRunning
  else s.offer s.spuriousThreads .spurious s.spuriousThreads.length pickRunning

/-- The choice of a timeout, or else of a thread otherwise. -/
def pick (s : Scheduler n) :
    Tree SchedType (Option (Fin n × UnparkReason × Scheduler n)) :=
  if s.timedThreads = [] then s.pickSpurious
  else
    s.offer s.timedThreads .timeout
      (if s.runningThreads = [] then s.timedThreads.length - 1 else s.timedThreads.length)
      pickSpurious

/-- What `schedule_impl` does before it chooses a thread, with the check that `_DEBUG`
adds. -/
def settleYields (s : Scheduler n) (yield : Nat) : Option (Scheduler n) := do
  let t := s.threads s.thread
  if t.totalYieldPriority ≠ ∑ i, t.yieldPriority i then none
  else
    let s ← s.pass
    if yield = 0 then some s else s.yieldPriority yield

/-- `schedule_impl` of the full search. -/
def scheduleImpl (s : Scheduler n) (yield : Nat) :
    Tree SchedType (Option (Fin n × UnparkReason × Scheduler n)) :=
  match s.settleYields yield with
  | none => .done none
  | some s => s.pick

/-- `schedule` -/
def schedule (s : Scheduler n) (yield : Nat) :
    Tree SchedType (Option (Fin n × UnparkReason × Scheduler n)) :=
  (s.scheduleImpl yield).bind fun picked => .done <|
    picked.bind fun (th, reason, s) =>
      if (s.threads th).state = .running then some (th, reason, { s with thread := th }) else none

/-- The thread is not created yet: `iteration_begin` puts it aside. -/
def putAside (s : Scheduler n) (i : Fin n) : Option (Scheduler n) :=
  { s with dynamicThreads := s.dynamicThreads ++ [i] }.blockThread i

/-- `iteration_begin`, for a test of which that many threads are created by others. It
ends with `iteration_begin_impl`. -/
def iterationBegin {others : Nat} (totalDynamicThreads : Nat) :
    Tree SchedType (Option (Scheduler (others + 1))) :=
  let fresh : Scheduler (others + 1) :=
    ⟨fun _ => .reset, 0, List.finRange (others + 1), 0, [], [], []⟩
  match ((List.finRange (others + 1)).drop (others + 1 - totalDynamicThreads)).foldlM putAside
    fresh with
  | none => .done none
  | some s => (randThread s.runningThreads).bind fun chosen =>
      .done (chosen.map fun th => { s with thread := th })

/-! ### What holds threads -/

/-- The number of reasons that block a thread, apart from yields. There is one too few
while a thread already waits for another one, but is not blocked yet. -/
abbrev Holds (n : Nat) := Fin n → Int

/-- A thread is held if it is parked, not created yet or finished. -/
def holds (s : Scheduler n) (parked : Finset (Fin n)) : Holds n := fun th =>
  (if th ∈ parked then 1 else 0) + (if th ∈ s.dynamicThreads then 1 else 0) +
    (if (s.threads th).state = .finished then 1 else 0)

end Scheduler

end LockFree.Relacy
