import LockFree.Relacy.Iteration
import LockFree.Relacy.Scheduler

/-!
# Iterations with their scheduler

`iterationOf` keeps no more of the scheduler than the threads that are not finished.
Here an iteration keeps the whole `scheduler` and calls it as `context_impl` does. As
long as threads do not park, yield or create threads, nothing waits in it, and the two
iterations are the same.
-/

namespace LockFree.Relacy

open Search

namespace Scheduler

variable {n : Nat} {s : Scheduler n} {running : List (Fin n)}

/-- Nothing waits, and the threads of a list run. The others are finished. -/
structure Calm (s : Scheduler n) (running : List (Fin n)) : Prop where
  runningThreads : s.runningThreads = running
  nodup : running.Nodup
  state : ∀ th ∈ running, (s.threads th).state = .running ∧ (s.threads th).blockCount = 0
  total : ∀ th, (s.threads th).totalYieldPriority = 0
  yieldPriority : ∀ th, (s.threads th).yieldPriority = 0
  finishedThreadCount : s.finishedThreadCount + running.length = n
  timedThreads : s.timedThreads = []
  spuriousThreads : s.spuriousThreads = []

/-- The scheduler goes on with a thread that runs. -/
theorem Calm.schedule (calm : s.Calm running) (busy : running ≠ []) :
    s.schedule 0 = (chooseThread running).bind fun next =>
      .done (next.map fun th => (th, .normal, { s with thread := th })) := by
  obtain rfl := calm.runningThreads
  have passed : s.settleYields 0 = some s := by
    simp [settleYields, pass, calm.total, calm.yieldPriority]
  have picks : s.pick = s.pickRunning := by
    simp only [pick, pickSpurious, calm.timedThreads, calm.spuriousThreads, busy, if_true,
      if_false]
  simp only [Scheduler.schedule, Scheduler.scheduleImpl, passed, picks, pickRunning,
    Tree.bind_bind]
  apply chooseThread_congr busy
  intro th member
  simp [Tree.bind, (calm.state th member).1]

/-- It does not matter which thread is the current one. -/
theorem Calm.switch (calm : s.Calm running) (th : Fin n) :
    Calm { s with thread := th } running where
  runningThreads := calm.runningThreads
  nodup := calm.nodup
  state := calm.state
  total := calm.total
  yieldPriority := calm.yieldPriority
  finishedThreadCount := calm.finishedThreadCount
  timedThreads := calm.timedThreads
  spuriousThreads := calm.spuriousThreads

/-- A thread that ends leaves the others as they are. -/
theorem Calm.threadFinished (calm : s.Calm running) (member : s.thread ∈ running) :
    ∃ s', s.threadFinished =
        some (if running.erase s.thread = [] then .last else .normal, s') ∧
      s'.Calm (running.erase s.thread) := by
  obtain ⟨runs, unblocked⟩ := calm.state s.thread member
  have blocked : s.blockThread s.thread =
      some ({ s with runningThreads := s.runningThreads.erase s.thread }.setThread s.thread
        { s.threads s.thread with blockCount := 1, state := .blocked }) := by
    simp [blockThread, runs, unblocked, calm.runningThreads, member, onThreadBlock, setThread,
      calm.total]
  obtain ⟨s', ran, runningThreads, count, timed, spurious, others, total, priorities⟩ :
      ∃ s', s.threadFinished = finishResult 2 s' ∧
        s'.runningThreads = running.erase s.thread ∧
        s'.finishedThreadCount = s.finishedThreadCount + 1 ∧
        s'.timedThreads = [] ∧ s'.spuriousThreads = [] ∧
        (∀ th, th ≠ s.thread → s'.threads th = s.threads th) ∧
        (∀ th, (s'.threads th).totalYieldPriority = 0) ∧
        ∀ th, (s'.threads th).yieldPriority = 0 := by
    refine ⟨_, by rw [Scheduler.threadFinished, if_neg (not_not.mpr runs), blocked]; rfl, ?_⟩
    refine ⟨by simp [setThread, calm.runningThreads], rfl, calm.timedThreads,
      calm.spuriousThreads, fun th other => ?_, fun th => ?_, fun th => ?_⟩
    · simp [setThread, other]
    · by_cases isOwn : th = s.thread
      · simp [setThread, isOwn, calm.total]
      · simp [setThread, isOwn, calm.total]
    · by_cases isOwn : th = s.thread
      · simp [setThread, isOwn, calm.yieldPriority]
      · simp [setThread, isOwn, calm.yieldPriority]
  have length := List.length_erase_of_mem member
  have positive := List.length_pos_of_mem member
  have before := calm.finishedThreadCount
  refine ⟨s', ?_, ?_⟩
  · rw [ran, finishResult, count]
    by_cases last : running.erase s.thread = []
    · rw [last, List.length_nil] at length
      rw [if_pos (by omega), if_pos last]
    · have some_ := List.length_pos_iff.mpr last
      rw [if_neg (by omega), if_neg last]
      simp [isDeadlock, runningThreads, last]
  · constructor
    · exact runningThreads
    · exact calm.nodup.erase _
    · intro th remains
      rw [others th (List.Nodup.mem_erase_iff calm.nodup |>.mp remains).1]
      exact calm.state th (List.mem_of_mem_erase remains)
    · exact total
    · exact priorities
    · omega
    · exact timed
    · exact spurious

/-- An iteration begins with any thread, and all of them run. -/
theorem iterationBegin_static {others : Nat} :
    (iterationBegin 0 : Tree SchedType (Option (Scheduler (others + 1)))) =
      (randThread (List.finRange (others + 1))).bind fun chosen => .done (chosen.map fun th =>
        ⟨fun _ => .reset, th, List.finRange (others + 1), 0, [], [], []⟩) := by
  have none : (List.finRange (others + 1)).drop (others + 1 - 0) = [] := by
    apply List.drop_of_length_le
    simp
  rw [iterationBegin, none]
  rfl

/-- All threads run when an iteration begins. -/
theorem calm_begin {others : Nat} (th : Fin (others + 1)) :
    Calm ⟨fun _ => .reset, th, List.finRange (others + 1), 0, [], [], []⟩
      (List.finRange (others + 1)) where
  runningThreads := rfl
  nodup := List.nodup_finRange _
  state _ _ := ⟨rfl, rfl⟩
  total _ := rfl
  yieldPriority _ := rfl
  finishedThreadCount := by simp
  timedThreads := rfl
  spuriousThreads := rfl

end Scheduler

variable {n : Nat} {Local Value User : Type}

/-- `context_impl` with its scheduler while an iteration runs. -/
structure Scheduled (n : Nat) (Local Value User : Type) where
  memory : State (Fin n) Value
  fibers : Fin n → Fiber Local Value User
  scheduler : Scheduler n

namespace Scheduled

variable [DecidableEq Value]

/-- An operation of the current thread, and what comes after it unless it fails. -/
def performing (setting : Setting) (c : Scheduled n Local Value User) (op : Op Value)
    (further : Scheduled n Local Value User → Response Value → Test (Failure User)) :
    Test (Failure User) :=
  match performAsking setting c.memory c.scheduler.thread op with
  | none => .done (some .unverified)
  | some tree => tree.bind fun taken =>
      match (taken.1.failure? : Option (Failure User)) with
      | some failure => .done (some failure)
      | none => further { c with memory := taken.2 } (op.response c.memory taken.1)

/-- `fiber_proc_impl`: the current thread runs until it calls `sched`, which it does at
its end as well, unless it is the last one. A deadlock and a check of the scheduler that
fails are reported as given. -/
def goOn (deadlock failed : Failure User) (setting : Setting)
    (sched : Scheduled n Local Value User → Test (Failure User)) :
    Code Local Value User → Scheduled n Local Value User → Test (Failure User)
  | .finish, c =>
      match c.scheduler.threadFinished with
      | none => .done (some failed)
      | some (.last, _) => .done none
      | some (.deadlock, _) => .done (some deadlock)
      | some (.normal, scheduler) => sched { c with
          fibers := Function.update c.fibers c.scheduler.thread .finished
          scheduler := scheduler }
  | .assert user, _ => .done (some (.user user))
  | .act op _ next, c =>
      c.performing setting op fun c response =>
      goOn deadlock failed setting sched (next response) c
  | .call op scheds resume, c => sched { c with
      fibers := Function.update c.fibers c.scheduler.thread (.parked op scheds resume) }

/-- `switch_to_fiber`, to the thread the scheduler has chosen. -/
def switchTo (deadlock failed : Failure User) (client : Client (Fin n) Local Value User)
    (setting : Setting) (sched : Scheduled n Local Value User → Test (Failure User))
    (c : Scheduled n Local Value User) : Test (Failure User) :=
  match c.fibers c.scheduler.thread with
  | .fresh code => goOn deadlock failed setting sched code c
  | .parked op _ resume => c.performing setting op fun c response =>
      goOn deadlock failed setting sched (client.code (resume response)) c
  | .finished => .done (some .unverified)

/-- `sched`, when it may be called that many times more. -/
def sched (deadlock failed : Failure User) (client : Client (Fin n) Local Value User)
    (setting : Setting) : Nat → Scheduled n Local Value User → Test (Failure User)
  | 0, _ => .done (some .livelock)
  | left + 1, c => (c.scheduler.schedule 0).bind fun scheduled =>
      match scheduled with
      | none => .done (some failed)
      | some (_, _, scheduler) => switchTo deadlock failed client setting
          (sched deadlock failed client setting left) { c with scheduler := scheduler }

/-- An iteration of a test of some threads, as `iterationOf`. -/
def iterationOf {others : Nat} (deadlock failed : Failure User)
    (client : Client (Fin (others + 1)) Local Value User) (setting : Setting)
    (memory : Fin (others + 1) → State (Fin (others + 1)) Value) (executionDepthLimit : Nat) :
    Test (Failure User) :=
  (Scheduler.iterationBegin 0).bind fun begun =>
    match begun with
    | none => .done (some failed)
    | some scheduler => switchTo deadlock failed client setting
        (sched deadlock failed client setting (executionDepthLimit + 1))
        ⟨memory scheduler.thread, fun u => .fresh (client.code (client.start u)), scheduler⟩

/-- The scheduler is calm, and the rest is the same. -/
structure Follows (c : Context (Fin n) Local Value User) (c' : Scheduled n Local Value User) :
    Prop where
  memory : c'.memory = c.memory
  fibers : c'.fibers = c.fibers
  calm : c'.scheduler.Calm c.running

variable {c : Context (Fin n) Local Value User} {c' : Scheduled n Local Value User}
  {deadlock failed : Failure User} {setting : Setting}

/-- An operation leaves the scheduler alone. -/
theorem Follows.performing (follows : Follows c c') (op : Op Value)
    {further : Context (Fin n) Local Value User → Response Value → Test (Failure User)}
    {further' : Scheduled n Local Value User → Response Value → Test (Failure User)}
    (same : ∀ memory response, further' { c' with memory := memory } response =
      further { c with memory := memory } response) :
    c'.performing setting op further' =
      c.performing setting c'.scheduler.thread op further := by
  rw [Scheduled.performing, Context.performing, follows.memory]
  cases performAsking setting c.memory c'.scheduler.thread op with
  | none => rfl
  | some tree =>
      apply congrArg tree.bind
      funext taken
      cases (taken.1.failure? : Option (Failure User)) with
      | none => exact same _ _
      | some failure => rfl

/-- A thread goes on as in the iteration without a scheduler, if what comes after its
next call of `sched` does. -/
theorem Follows.goOn (follows : Follows c c') (current : c'.scheduler.thread ∈ c.running)
    {sched : Context (Fin n) Local Value User → Test (Failure User)}
    {sched' : Scheduled n Local Value User → Test (Failure User)}
    (same : ∀ c c', Follows c c' → c.running ≠ [] → sched' c' = sched c)
    (code : Code Local Value User) :
    Scheduled.goOn deadlock failed setting sched' code c' =
      Context.goOn setting sched c'.scheduler.thread code c := by
  induction code generalizing c c' with
  | finish =>
      obtain ⟨s', ran, calm⟩ := follows.calm.threadFinished current
      simp only [Scheduled.goOn, Context.goOn, ran]
      by_cases last : c.running.erase c'.scheduler.thread = []
      · simp [last]
      · simp only [last, if_false, List.isEmpty_iff]
        apply same _ _ _ last
        exact ⟨follows.memory, by rw [follows.fibers], calm⟩
  | assert user => rfl
  | act op scheds next inductionHypothesis =>
      apply follows.performing op
      intro memory response
      exact inductionHypothesis response ⟨rfl, follows.fibers, follows.calm⟩ current
  | call op scheds resume =>
      apply same
      · exact ⟨follows.memory, by simp only [follows.fibers], follows.calm⟩
      · exact List.ne_nil_of_mem current

/-- So does the thread that is switched to. -/
theorem Follows.switchTo (follows : Follows c c') (current : c'.scheduler.thread ∈ c.running)
    (client : Client (Fin n) Local Value User)
    {sched : Context (Fin n) Local Value User → Test (Failure User)}
    {sched' : Scheduled n Local Value User → Test (Failure User)}
    (same : ∀ c c', Follows c c' → c.running ≠ [] → sched' c' = sched c) :
    Scheduled.switchTo deadlock failed client setting sched' c' =
      c.switchTo client setting sched c'.scheduler.thread := by
  rw [Scheduled.switchTo, Context.switchTo, follows.fibers]
  cases c.fibers c'.scheduler.thread with
  | fresh code => exact follows.goOn current same code
  | parked op scheds resume =>
      apply follows.performing op
      intro memory response
      have onward : Follows { c with memory := memory } { c' with memory := memory } :=
        ⟨rfl, follows.fibers, follows.calm⟩
      exact onward.goOn current same _
  | finished => rfl

/-- And all that come after it. -/
theorem Follows.sched (follows : Follows c c') (busy : c.running ≠ [])
    (client : Client (Fin n) Local Value User) (left : Nat) :
    Scheduled.sched deadlock failed client setting left c' =
      Context.sched client setting left c := by
  induction left generalizing c c' with
  | zero => rfl
  | succ left inductionHypothesis =>
      rw [Scheduled.sched, Context.sched, follows.calm.schedule busy, Tree.bind_bind]
      apply chooseThread_congr busy
      -- the thread that is chosen is one that runs
      intro th member
      have onward : Follows c { c' with scheduler := { c'.scheduler with thread := th } } :=
        ⟨follows.memory, follows.fibers, follows.calm.switch th⟩
      apply onward.switchTo member client
      intro c c' follows busy
      exact inductionHypothesis follows busy

/-- **The search does not depend on the bookkeeping of the scheduler.** An iteration of a
test whose threads do not park, yield or create threads is the same tree of choices with
the whole scheduler as with the list of the threads that are not finished, whatever a
deadlock or a check of the scheduler that fails would report: there are none in it. -/
theorem iterationOf_eq {others : Nat} (deadlock failed : Failure User)
    (client : Client (Fin (others + 1)) Local Value User) (setting : Setting)
    (memory : Fin (others + 1) → State (Fin (others + 1)) Value) (executionDepthLimit : Nat) :
    Scheduled.iterationOf deadlock failed client setting memory executionDepthLimit =
      Relacy.iterationOf client setting memory executionDepthLimit := by
  rw [Scheduled.iterationOf, Scheduler.iterationBegin_static, Relacy.iterationOf, Tree.bind_bind]
  apply randThread_congr (List.ne_nil_of_mem (List.mem_finRange 0))
  intro th _
  have begun : Follows (⟨memory th, fun u => .fresh (client.code (client.start u)),
      List.finRange (others + 1)⟩ : Context (Fin (others + 1)) Local Value User)
      ⟨memory th, fun u => .fresh (client.code (client.start u)),
        ⟨fun _ => .reset, th, List.finRange (others + 1), 0, [], [], []⟩⟩ :=
    ⟨rfl, rfl, Scheduler.calm_begin th⟩
  apply begun.switchTo (List.mem_finRange th) client
  intro c c' follows busy
  exact follows.sched busy client _

end Scheduled

end LockFree.Relacy
