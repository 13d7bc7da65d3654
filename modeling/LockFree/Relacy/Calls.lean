import LockFree.Relacy.Parking
import LockFree.Semantics.Execution

/-!
# What threads ask the scheduler

The fibers of `context_impl` call the scheduler: at scheduling points and yields, to
park and to unpark each other, at their end, and to create threads. A `Driver` is the
scheduler together with the threads that are inside `park_current_thread`, and its
runs are all sequences of calls that fibers can make.
-/

namespace LockFree.Relacy

open Search

/-- What the thread that runs asks for. A `yield` of no rounds is `sched`. -/
inductive Call (n : Nat) where
  | sched (yield : Nat)
  | park (isTimed allowSpuriousWakeup : Bool)
  | unpark (th : Fin n)
  | create
  | finish
deriving DecidableEq, Repr

/-- What comes of it: some thread goes on, or the iteration is at its end. -/
inductive Outcome (n : Nat) where
  | returned
  | resumed (th : Fin n) (reason : UnparkReason)
  | last
  | deadlock
  | unverified
deriving DecidableEq, Repr

/-- The scheduler and the threads that are parked. -/
structure Driver (n : Nat) where
  scheduler : Scheduler n
  parked : Finset (Fin n)
  ended : Bool

namespace Driver

variable {n : Nat}

/-- `schedule` and the switch to the thread it has chosen, which is not parked any
more. -/
def resume (parked : Finset (Fin n)) (s : Scheduler n) (yield : Nat) :
    Tree SchedType (Outcome n × Driver n) :=
  (s.schedule yield).bind fun scheduled => .done <|
    match scheduled with
    | none => (.unverified, ⟨s, parked, true⟩)
    | some (th, reason, s) => (.resumed th reason, ⟨s, parked.erase th, false⟩)

/-- A call of the thread that runs. Only a parked thread is unparked. -/
def perform (d : Driver n) : Call n → Option (Tree SchedType (Outcome n × Driver n))
  | .sched yield => some (resume d.parked d.scheduler yield)
  | .park isTimed allowSpuriousWakeup => some <|
      match d.scheduler.parkCurrentThread isTimed allowSpuriousWakeup with
      | none => .done (.unverified, { d with ended := true })
      | some (false, s) => .done (.deadlock, ⟨s, d.parked, true⟩)
      | some (true, s) => resume (insert s.thread d.parked) s 1
  | .unpark th =>
      if th ∈ d.parked then some <|
        match d.scheduler.unparkThread th with
        | none => .done (.unverified, { d with ended := true })
        | some s => .done (.returned, ⟨s, d.parked.erase th, false⟩)
      else none
  | .create => some <|
      match d.scheduler.createThread with
      | none => .done (.unverified, { d with ended := true })
      | some (_, s) => .done (.returned, ⟨s, d.parked, false⟩)
  | .finish => some <|
      match d.scheduler.threadFinished with
      | none => .done (.unverified, { d with ended := true })
      | some (.last, s) => .done (.last, ⟨s, d.parked, true⟩)
      | some (.deadlock, s) => .done (.deadlock, ⟨s, d.parked, true⟩)
      | some (.normal, s) => resume d.parked s 0

/-- A call with the thread that makes it and what comes of it. -/
structure Event (n : Nat) where
  caller : Fin n
  call : Call n
  outcome : Outcome n
deriving DecidableEq, Repr

/-- A call under the answers of the search. -/
def step? (d : Driver n) (choice : Call n × List Nat) : Option (Event n × Driver n) :=
  if d.ended then none
  else (d.perform choice.1).bind fun tree => (tree.answered choice.2).map fun reached =>
    (⟨d.scheduler.thread, choice.1, reached.1⟩, reached.2)

/-- All sequences of calls. -/
def calls (n : Nat) : System (Driver n) (Event n) := .ofStep? step?

theorem step_iff {d d' : Driver n} {event : Event n} : (calls n).Step d event d' ↔
    d.ended = false ∧ event.caller = d.scheduler.thread ∧
      ∃ tree, d.perform event.call = some tree ∧ tree.Yields (event.outcome, d') := by
  constructor
  · rintro ⟨⟨call, answers⟩, step⟩
    unfold step? at step
    split_ifs at step with ended
    simp only [Option.bind_eq_some_iff, Option.map_eq_some_iff, Prod.mk.injEq] at step
    obtain ⟨tree, performed, ⟨outcome, d'⟩, answered, rfl, rfl⟩ := step
    exact ⟨by simpa using ended, rfl, tree, performed, Tree.yields_iff.mpr ⟨answers, answered⟩⟩
  · rintro ⟨running, caller, tree, performed, yields⟩
    obtain ⟨answers, answered⟩ := Tree.yields_iff.mp yields
    refine ⟨⟨event.call, answers⟩, ?_⟩
    cases event
    simp_all [step?]

/-! ### Every call finds the scheduler in order -/

open Scheduler

variable {n : Nat} {s : Scheduler n} {parked : Finset (Fin n)} {yield : Nat}

/-- What comes of a call of `schedule`. -/
theorem yields_resume (sound : s.Sound parked)
    (ready : yield ≠ 0 → (s.threads s.thread).state ≠ .finished ∧ s.waits s.thread = ∅) :
    ∃ s', s'.Sound parked ∧ Kept s s' ∧ Yielded s yield s' ∧ ∀ outcome d',
      (resume parked s yield).Yields (outcome, d') ↔
        (s'.runningThreads = [] ∧ (s'.timedThreads = [] ∨
          ∃ th ∈ s'.timedThreads, (s'.threads th).blockCount ≠ 1) ∧
            outcome = .unverified ∧ d' = ⟨s, parked, true⟩) ∨
        ∃ th reason s'', s'.Picks th reason s'' ∧ outcome = .resumed th reason ∧
          d' = ⟨{ s'' with thread := th }, parked.erase th, false⟩ := by
  obtain ⟨s', ran, soundAfter, kept, yielded⟩ := sound.settleYields ready
  refine ⟨s', soundAfter, kept, yielded, fun outcome d' => ?_⟩
  simp only [resume, schedule, Scheduler.scheduleImpl, ran, Tree.yields_bind, Tree.yields_done,
    soundAfter.yields_pick]
  constructor
  · rintro ⟨_, ⟨_, ⟨idle, stuck, rfl⟩ | ⟨th, reason, s'', picks, rfl⟩, rfl⟩, same⟩
    · obtain ⟨rfl, rfl⟩ := Prod.mk.inj same
      exact .inl ⟨idle, stuck, rfl, rfl⟩
    · have running := (soundAfter.picks picks).2.1
      simp only [Option.bind_some, running, if_true, Prod.mk.injEq] at same
      exact .inr ⟨th, reason, s'', picks, same.1.symm, same.2.symm⟩
  · rintro (⟨idle, stuck, rfl, rfl⟩ | ⟨th, reason, s'', picks, rfl, rfl⟩)
    · exact ⟨_, ⟨_, .inl ⟨idle, stuck, rfl⟩, rfl⟩, rfl⟩
    · have running := (soundAfter.picks picks).2.1
      exact ⟨_, ⟨_, .inr ⟨th, reason, s'', picks, rfl⟩, rfl⟩, by simp [running]⟩

/-- What holds whenever a thread calls the scheduler: it is one that runs. -/
structure Sound (d : Driver n) : Prop where
  scheduler : d.scheduler.Sound d.parked
  current : (d.scheduler.threads d.scheduler.thread).state = .running

theorem Sound.ready {d : Driver n} (sound : d.Sound) :
    (d.scheduler.threads d.scheduler.thread).state ≠ .finished ∧
      d.scheduler.waits d.scheduler.thread = ∅ := by
  refine ⟨by simp [sound.current], ?_⟩
  exact (sound.scheduler.free_iff.mp sound.current).2

/-- Whoever goes on finds the scheduler in order. -/
theorem sound_of_resumed (sound : s.Sound parked)
    (ready : yield ≠ 0 → (s.threads s.thread).state ≠ .finished ∧ s.waits s.thread = ∅)
    {outcome : Outcome n} {d' : Driver n} (yields : (resume parked s yield).Yields (outcome, d'))
    (onward : d'.ended = false) : d'.Sound := by
  obtain ⟨s', soundAfter, _, _, outcomes⟩ := yields_resume sound ready
  rcases (outcomes outcome d').mp yields with ⟨_, _, _, rfl⟩ | ⟨th, reason, s'', picks, _, rfl⟩
  · cases onward
  · obtain ⟨soundPicked, running, _⟩ := soundAfter.picks picks
    exact ⟨soundPicked.switch th, running⟩

/-- The priorities that the next thread finds. -/
theorem rows_of_resumed (sound : s.Sound parked)
    (ready : yield ≠ 0 → (s.threads s.thread).state ≠ .finished ∧ s.waits s.thread = ∅)
    {outcome : Outcome n} {d' : Driver n} (yields : (resume parked s yield).Yields (outcome, d'))
    (onward : d'.ended = false) : ∃ s', Yielded s yield s' ∧
      ∀ y, (d'.scheduler.threads y).yieldPriority = (s'.threads y).yieldPriority := by
  obtain ⟨s', soundAfter, _, yielded, outcomes⟩ := yields_resume sound ready
  rcases (outcomes outcome d').mp yields with ⟨_, _, _, rfl⟩ | ⟨th, reason, s'', picks, _, rfl⟩
  · cases onward
  · exact ⟨s', yielded, (soundAfter.picks picks).2.2.2⟩

/-- If no thread is left, `create_thread` fails its check. -/
theorem createThread_eq_none (empty : s.dynamicThreads = []) : s.createThread = none := by
  rw [createThread, empty]
  rfl

/-- A call that goes on after it has created a thread. -/
theorem Sound.created {d d' : Driver n} (sound : d.Sound)
    {tree : Tree SchedType (Outcome n × Driver n)} (performed : d.perform .create = some tree)
    {outcome : Outcome n} (yields : tree.Yields (outcome, d')) (onward : d'.ended = false) :
    ∃ s', d' = ⟨s', d.parked, false⟩ ∧ s'.Sound d.parked ∧ Begun d.scheduler s' := by
  obtain rfl := Option.some.inj performed
  by_cases left : d.scheduler.dynamicThreads = []
  · rw [createThread_eq_none left] at yields
    obtain ⟨_, rfl⟩ := Prod.mk.inj yields
    cases onward
  · obtain ⟨th, s', ran, soundAfter, begun⟩ := sound.scheduler.create left
    rw [ran] at yields
    obtain ⟨_, rfl⟩ := Prod.mk.inj yields
    exact ⟨s', rfl, soundAfter, begun⟩

/-- One call. -/
theorem Sound.step {d d' : Driver n} (sound : d.Sound) {call : Call n}
    {tree : Tree SchedType (Outcome n × Driver n)} (performed : d.perform call = some tree)
    {outcome : Outcome n} (yields : tree.Yields (outcome, d')) (onward : d'.ended = false) :
    d'.Sound := by
  cases call with
  | sched yield =>
      obtain rfl := Option.some.inj performed
      exact sound_of_resumed sound.scheduler (fun _ => sound.ready) yields onward
  | park isTimed allowSpuriousWakeup =>
      obtain rfl := Option.some.inj performed
      obtain ⟨alive, s', ran, soundParked, thread, _, _, _, finished, nobody, _⟩ :=
        sound.scheduler.park sound.current isTimed allowSpuriousWakeup
      rw [ran] at yields
      cases alive with
      | false =>
          obtain ⟨_, rfl⟩ := Prod.mk.inj yields
          cases onward
      | true =>
          apply sound_of_resumed _ _ yields onward
          · rwa [thread]
          · intro _
            rw [thread, ne_eq, finished]
            exact ⟨sound.ready.1, nobody⟩
  | unpark th =>
      simp only [perform] at performed
      split_ifs at performed with member
      obtain rfl := Option.some.inj performed
      obtain ⟨s', ran, soundAfter, thread, dynamic, _, finished, priorities⟩ :=
        sound.scheduler.unpark member
      rw [ran] at yields
      obtain ⟨_, rfl⟩ := Prod.mk.inj yields
      refine ⟨soundAfter, ?_⟩
      simp only [thread]
      apply sound.scheduler.running_of_fewer soundAfter sound.current (Finset.erase_subset _ _)
      · simp [dynamic]
      · exact (finished _).mp
      · intro y
        rw [priorities]
  | create =>
      obtain ⟨s', rfl, soundAfter, begun⟩ := sound.created performed yields onward
      refine ⟨soundAfter, ?_⟩
      simp only [begun.thread]
      apply sound.scheduler.running_of_fewer soundAfter sound.current (Finset.Subset.refl _)
      · exact begun.dynamicThreads
      · exact (begun.finished _).mp
      · intro y
        rw [begun.yieldPriority]
  | finish =>
      obtain rfl := Option.some.inj performed
      obtain ⟨result, s', ran, _, _, passes⟩ := sound.scheduler.finish sound.current
      rw [ran] at yields
      cases result with
      | last | deadlock =>
          obtain ⟨_, rfl⟩ := Prod.mk.inj yields
          cases onward
      | normal =>
          exact sound_of_resumed (passes rfl).sound (fun some => absurd rfl some) yields onward

/-- The driver at the beginning of an iteration. -/
def Begins {others : Nat} (totalDynamicThreads : Nat) (d : Driver (others + 1)) : Prop :=
  ∃ s, (iterationBegin totalDynamicThreads).Yields (some s) ∧ d = ⟨s, ∅, false⟩

/-- Whatever threads have called, the next call finds the scheduler in order. -/
theorem sound_of_run {others totalDynamicThreads : Nat} (static : totalDynamicThreads ≤ others)
    {d₀ d : Driver (others + 1)} (begins : Begins totalDynamicThreads d₀)
    {events : List (Event (others + 1))} (run : (calls (others + 1)).Steps d₀ events d)
    (onward : d.ended = false) : d.Sound := by
  revert onward
  apply run.invariant
  · intro _
    obtain ⟨s, yields, rfl⟩ := begins
    obtain ⟨_, same, sound, running⟩ := yields_iterationBegin static yields
    obtain rfl := Option.some.inj same
    exact ⟨sound, running⟩
  · intro before event after sound _ step onward
    obtain ⟨running, _, tree, performed, yields⟩ := step_iff.mp step
    exact (sound running).step performed yields onward

/-! ### What the calls come to -/

/-- Something other than a yield keeps the thread from going on. -/
def Held (d : Driver n) (th : Fin n) : Prop :=
  th ∈ d.parked ∨ th ∈ d.scheduler.dynamicThreads ∨ (d.scheduler.threads th).state = .finished

theorem held_iff {d : Driver n} {th : Fin n} :
    0 < d.scheduler.holds d.parked th ↔ d.Held th := by
  simp only [holds, Held]
  constructor
  · intro positive
    by_contra none
    push Not at none
    simp [none.1, none.2.1, none.2.2] at positive
  · intro held
    split_ifs <;> first | omega | simp_all

theorem othersHeld_iff {d : Driver n} : d.scheduler.OthersHeld d.parked ↔
    (∀ th, th ≠ d.scheduler.thread → d.Held th) ∧ d.scheduler.timedThreads = [] := by
  simp only [OthersHeld, held_iff]

/-- A parked thread is blocked once, and once more for each thread it waits for. -/
theorem blockCount_of_parked (sound : s.Sound parked) {th : Fin n} (member : th ∈ parked) :
    (s.threads th).blockCount = 1 + (s.waits th).card := by
  have count := sound.counted.count th
  have notDynamic : th ∉ s.dynamicThreads := fun unborn => sound.begun th unborn member
  have notFinished : (s.threads th).state ≠ .finished :=
    fun ended => (sound.alive th ended).1 member
  simp only [holds, member, notDynamic, notFinished, if_true, if_false] at count
  omega

/-- A parked thread can go on by itself if it waits for nobody. -/
theorem blockCount_eq_one_iff (sound : s.Sound parked) {th : Fin n} (member : th ∈ parked) :
    (s.threads th).blockCount = 1 ↔ s.waits th = ∅ := by
  rw [blockCount_of_parked sound member, ← Finset.card_eq_zero]
  omega

/-- Nobody waits for a thread when all yields are over. -/
theorem waits_of_calm (calm : ∀ y, (s.threads y).yieldPriority = 0) (th : Fin n) :
    s.waits th = ∅ := by
  simp [waits, calm]

/-- A thread that runs can call the scheduler without any harm. -/
theorem not_unverified_sched {d d' : Driver n} (sound : d.Sound) :
    ¬ (resume d.parked d.scheduler yield).Yields (.unverified, d') := by
  intro yields
  obtain ⟨s', soundAfter, kept, yielded, outcomes⟩ :=
    yields_resume sound.scheduler fun (_ : yield ≠ 0) => sound.ready
  rcases (outcomes _ _).mp yields with ⟨idle, stuck, _⟩ | ⟨_, _, _, _, other, _⟩
  · have held := (sound.scheduler.free_iff.mp sound.current).1
    have notRunning : (s'.threads d.scheduler.thread).state ≠ .running := by
      rw [ne_eq, ← soundAfter.counted.running, idle]
      exact List.not_mem_nil
    rw [ne_eq, soundAfter.free_iff, holds_kept kept, held] at notRunning
    refine notRunning ⟨rfl, Finset.eq_empty_iff_forall_notMem.mpr fun y member => ?_⟩
    have waiting : (s'.threads y).yieldPriority d.scheduler.thread ≠ 0 := by
      simpa [waits] using member
    rcases yielded.others with ⟨calm, _⟩ | ⟨busy, others⟩
    · simp [calm] at waiting
    · by_cases plain : yield = 0
      · by_cases isOwn : y = d.scheduler.thread
        · subst isOwn
          exact waiting (soundAfter.counted.own _)
        · rw [others y _ isOwn, plain, if_neg fun both => Nat.not_lt_zero _ both.2.2.1] at waiting
          have member := waits_of_priority waiting
          simp [sound.ready.2] at member
      · exact busy plain idle
  · cases other

/-- A thread can park without any harm as well: if that leaves no thread that runs, all
yields are over, and whoever parks with a timeout can go on. -/
theorem not_unverified_park {d d' : Driver n} (sound : d.Sound) {isTimed allowSpurious : Bool}
    {tree : Tree SchedType (Outcome n × Driver n)}
    (performed : d.perform (.park isTimed allowSpurious) = some tree) :
    ¬ tree.Yields (.unverified, d') := by
  intro yields
  obtain rfl := Option.some.inj performed
  obtain ⟨alive, s', ran, soundParked, thread, verdict, timed, dynamic, finished, nobody, _⟩ :=
    sound.scheduler.park sound.current isTimed allowSpurious
  rw [ran] at yields
  cases alive with
  | false => cases (Prod.mk.inj yields).1
  | true =>
      have yields : (resume (insert s'.thread d.parked) s' 1).Yields (.unverified, d') := yields
      rw [thread] at yields
      obtain ⟨s'', soundAfter, kept, yielded, outcomes⟩ :=
        yields_resume soundParked fun (_ : (1 : Nat) ≠ 0) => by
          rw [thread, ne_eq, finished]
          exact ⟨sound.ready.1, nobody⟩
      rcases (outcomes _ _).mp yields with ⟨idle, stuck, _⟩ | ⟨_, _, _, _, other, _⟩
      · rcases yielded.others with ⟨calm, _⟩ | ⟨busy, _⟩
        · rcases stuck with none | ⟨th, member, blocked⟩
          · -- then there was a deadlock
            rw [kept.timedThreads, timed] at none
            have plain : isTimed = false ∧ d.scheduler.timedThreads = [] := by
              cases isTimed with
              | false => exact ⟨rfl, none⟩
              | true => simp at none
            refine absurd (verdict.mpr ⟨⟨fun th other => ?_, plain.2⟩, plain.1⟩) (by simp)
            have blocked : th ∉ s''.runningThreads := by
              simp [idle]
            rw [soundAfter.counted.running_iff calm, holds_kept kept] at blocked
            have same : s'.holds (insert d.scheduler.thread d.parked) th =
                d.scheduler.holds d.parked th := by
              simp only [holds, Finset.mem_insert, other, false_or, dynamic, finished]
            have positive := holds_nonneg d.scheduler d.parked th
            simp only [Pi.zero_apply] at positive
            omega
          · apply blocked
            rw [blockCount_eq_one_iff soundAfter (soundAfter.timed th member)]
            exact waits_of_calm calm th
        · exact busy one_ne_zero idle
      · cases other

/-- The end of the current thread strands the others: none of them could run, and one
that waits for a timeout also waits for another thread after a yield. -/
def Strands (d : Driver n) : Prop :=
  (∀ th, th ≠ d.scheduler.thread → d.Held th ∨ ∃ y, y ≠ d.scheduler.thread ∧
    (d.scheduler.threads y).yieldPriority th ≠ 0) ∧
  ∃ th ∈ d.scheduler.timedThreads, ∃ y, y ≠ d.scheduler.thread ∧
    (d.scheduler.threads y).yieldPriority th ≠ 0

/-- When nobody waits for the current thread, its scheduling point leaves no thread to
choose exactly if none runs and not all waits with a timeout can end. -/
theorem unverified_resume_iff (sound : s.Sound parked)
    (nobody : (s.threads s.thread).yieldPriority = 0) :
    (∃ d', (resume parked s 0).Yields (.unverified, d')) ↔
      s.runningThreads = [] ∧ (s.timedThreads = [] ∨
        ∃ th ∈ s.timedThreads, (s.waits th).Nonempty) := by
  have settled : s.settleYields 0 = some s := by
    have none : (s.threads s.thread).totalYieldPriority = 0 := by
      rw [sound.counted.total, nobody]
      simp
    simp [settleYields, Scheduler.pass, none, nobody]
  have waiting : (∃ th ∈ s.timedThreads, (s.threads th).blockCount ≠ 1) ↔
      ∃ th ∈ s.timedThreads, (s.waits th).Nonempty := by
    apply exists_congr
    intro th
    apply and_congr_right
    intro member
    rw [ne_eq, blockCount_eq_one_iff sound (sound.timed th member), Finset.nonempty_iff_ne_empty]
  simp only [resume, schedule, Scheduler.scheduleImpl, settled, Tree.yields_bind, Tree.yields_done,
    sound.yields_pick, waiting]
  constructor
  · rintro ⟨_, _, ⟨_, ⟨idle, stuck, rfl⟩ | ⟨th, reason, s', picks, rfl⟩, rfl⟩, same⟩
    · exact ⟨idle, stuck⟩
    · have running := (sound.picks picks).2.1
      simp [running] at same
  · rintro ⟨idle, stuck⟩
    exact ⟨_, _, ⟨none, .inl ⟨idle, stuck, rfl⟩, rfl⟩, rfl⟩

/-- Who is stranded if the current thread ends and nobody gives up a wait. -/
theorem idle_iff_of_passes {d : Driver n} {s' : Scheduler n}
    (after : d.scheduler.Passes d.parked s')
    (rows : ∀ y, (s'.threads y).yieldPriority =
      if y = d.scheduler.thread then 0 else (d.scheduler.threads y).yieldPriority)
    (dynamic : s'.dynamicThreads = d.scheduler.dynamicThreads) :
    (∀ th, (s'.waits th).Nonempty ↔ ∃ y, y ≠ d.scheduler.thread ∧
      (d.scheduler.threads y).yieldPriority th ≠ 0) ∧
    (s'.runningThreads = [] ↔ ∀ th, th ≠ d.scheduler.thread → d.Held th ∨
      ∃ y, y ≠ d.scheduler.thread ∧ (d.scheduler.threads y).yieldPriority th ≠ 0) := by
  have awaits : ∀ th, (s'.waits th).Nonempty ↔ ∃ y, y ≠ d.scheduler.thread ∧
      (d.scheduler.threads y).yieldPriority th ≠ 0 := by
    intro th
    simp only [Finset.Nonempty, waits, Finset.mem_filter, Finset.mem_univ, true_and, rows]
    apply exists_congr
    intro y
    by_cases isOwn : y = d.scheduler.thread
    · simp [isOwn]
    · simp [isOwn]
  refine ⟨awaits, ?_⟩
  rw [List.eq_nil_iff_forall_not_mem]
  apply forall_congr'
  intro th
  rw [after.sound.counted.running]
  by_cases isOwn : th = d.scheduler.thread
  · subst isOwn
    have ended := (after.finished d.scheduler.thread).mpr (.inr rfl)
    simp [ended]
  · have same : s'.holds d.parked th = d.scheduler.holds d.parked th := by
      simp only [holds, dynamic, after.finished, isOwn, or_false]
    have positive := holds_nonneg d.scheduler d.parked th
    simp only [Pi.zero_apply] at positive
    rw [after.sound.free_iff, same, not_and_or, ← ne_eq (s'.waits th),
      ← Finset.nonempty_iff_ne_empty, awaits, ← held_iff]
    simp only [ne_eq, isOwn, not_false_eq_true, forall_const]
    apply or_congr_left
    omega

/-- Exactly then the end of the current thread leaves a thread that cannot be chosen. -/
theorem unverified_finish_iff {d : Driver n} (sound : d.Sound)
    {tree : Tree SchedType (Outcome n × Driver n)} (performed : d.perform .finish = some tree) :
    (∃ d', tree.Yields (.unverified, d')) ↔ d.Strands := by
  obtain rfl := Option.some.inj performed
  obtain ⟨result, s', ran, last, deadlock, passes⟩ := sound.scheduler.finish sound.current
  rw [ran]
  -- a thread that waits for a timeout is neither finished nor in a deadlock
  have normal : d.Strands → result = .normal := by
    rintro ⟨_, th, member, _⟩
    have parked := sound.scheduler.timed th member
    have apart : th ≠ d.scheduler.thread := by
      rintro rfl
      have held := (sound.scheduler.free_iff.mp sound.current).1
      have positive := held_iff.mpr (.inl parked)
      omega
    have alive : (d.scheduler.threads th).state ≠ .finished := fun ended =>
      (sound.scheduler.alive th ended).1 parked
    cases result with
    | normal => rfl
    | last => exact absurd (last.mp rfl th apart) alive
    | deadlock =>
        have none := (deadlock.mp rfl).2.1.2
        simp [none] at member
  cases result with
  | last =>
      constructor
      · rintro ⟨_, yields⟩
        cases (Prod.mk.inj yields).1
      · intro strands
        cases normal strands
  | deadlock =>
      constructor
      · rintro ⟨_, yields⟩
        cases (Prod.mk.inj yields).1
      · intro strands
        cases normal strands
  | normal =>
      have after := passes rfl
      have nobody : (s'.threads s'.thread).yieldPriority = 0 := by
        rw [after.thread]
        rcases after.rows with ⟨calm, _⟩ | ⟨rows, _⟩
        · exact calm _
        · rw [rows, if_pos rfl]
      have resumed := unverified_resume_iff after.sound nobody
      rw [after.timedThreads] at resumed
      apply resumed.trans
      rcases after.rows with ⟨_, _, none, busy⟩ | ⟨rows, dynamic, busy⟩
      · -- waits are given up only if some thread runs then and none waits for a timeout
        rw [after.timedThreads] at none
        constructor
        · rintro ⟨idle, _⟩
          exact absurd idle busy
        · rintro ⟨_, th, member, _⟩
          simp [none] at member
      · obtain ⟨awaits, idle⟩ := idle_iff_of_passes after rows dynamic
        rw [Strands, ← idle]
        apply and_congr_right
        intro none
        have timed := busy.resolve_left (not_not.mpr none)
        rw [after.timedThreads] at timed
        simp only [timed, false_or, awaits]

/-- A choice of a thread is no deadlock. -/
theorem not_deadlock_resume {d' : Driver n} :
    ¬ (resume parked s yield).Yields (.deadlock, d') := by
  simp only [resume, Tree.yields_bind, Tree.yields_done]
  rintro ⟨scheduled, _, same⟩
  cases scheduled with
  | none => cases (Prod.mk.inj same).1
  | some picked => cases (Prod.mk.inj same).1

instance (d : Driver n) (th : Fin n) : Decidable (d.Held th) :=
  inferInstanceAs (Decidable (_ ∨ _ ∨ _))

instance (d : Driver n) : Decidable d.Strands :=
  inferInstanceAs (Decidable (_ ∧ _))

/-- Who goes on at a scheduling point. -/
theorem Sound.resumed_iff {d : Driver n} (sound : d.Sound) (onward : d.ended = false)
    {th : Fin n} {reason : UnparkReason} :
    (∃ d', (calls n).Step d ⟨d.scheduler.thread, .sched 0, .resumed th reason⟩ d') ↔
      (∀ y, (d.scheduler.threads y).yieldPriority th ≤ if y = d.scheduler.thread then 1 else 0) ∧
        match reason with
        | .normal => ¬ d.Held th
        | .timeout => th ∈ d.scheduler.timedThreads
        | .spurious => th ∈ d.scheduler.spuriousThreads := by
  obtain ⟨s', soundAfter, kept, yielded, outcomes⟩ :=
    yields_resume sound.scheduler fun (_ : (0 : Nat) ≠ 0) => sound.ready
  have step : (∃ d', (calls n).Step d
      ⟨d.scheduler.thread, .sched 0, .resumed th reason⟩ d') ↔ ∃ s'', s'.Picks th reason s'' := by
    constructor
    · rintro ⟨d', step⟩
      obtain ⟨_, _, tree, performed, yields⟩ := step_iff.mp step
      obtain rfl := Option.some.inj performed
      rcases (outcomes _ _).mp yields with ⟨_, _, other, _⟩ | ⟨_, _, s'', picks, same, _⟩
      · cases other
      · cases same
        exact ⟨s'', picks⟩
    · rintro ⟨s'', picks⟩
      refine ⟨⟨{ s'' with thread := th }, d.parked.erase th, false⟩, ?_⟩
      apply step_iff.mpr
      refine ⟨onward, rfl, resume d.parked d.scheduler 0, rfl, (outcomes _ _).mpr ?_⟩
      exact .inr ⟨th, reason, s'', picks, rfl, rfl⟩
  -- the scheduling point ends a round for those that wait for the caller
  have calm : ∀ u, s'.waits u = ∅ ↔ ∀ y, (d.scheduler.threads y).yieldPriority u ≤
      if y = d.scheduler.thread then 1 else 0 := by
    intro u
    rw [Finset.eq_empty_iff_forall_notMem]
    apply forall_congr'
    intro y
    by_cases isOwn : y = d.scheduler.thread
    · subst isOwn
      have round := yielded.plain rfl u
      simp only [waits, Finset.mem_filter, Finset.mem_univ, true_and, not_not, if_true]
      omega
    · rcases yielded.others with ⟨_, _, some⟩ | ⟨_, rows⟩
      · exact absurd rfl some
      · have same := rows y u isOwn
        rw [if_neg fun both => Nat.not_lt_zero _ both.2.2.1] at same
        simp only [waits, Finset.mem_filter, Finset.mem_univ, true_and, not_not, same, isOwn,
          if_false, Nat.le_zero]
  have busy : s'.runningThreads ≠ [] := by
    apply List.ne_nil_of_mem (a := d.scheduler.thread)
    rw [soundAfter.counted.running, soundAfter.free_iff, holds_kept kept]
    refine ⟨(sound.scheduler.free_iff.mp sound.current).1, (calm _).mpr fun y => ?_⟩
    have none : (d.scheduler.threads y).yieldPriority d.scheduler.thread = 0 := by
      by_contra some
      have member := waits_of_priority some
      simp [sound.ready.2] at member
    omega
  rw [step, ← calm]
  cases reason with
  | normal =>
      have positive := holds_nonneg d.scheduler d.parked th
      simp only [Pi.zero_apply] at positive
      simp only [Picks, exists_eq_right, soundAfter.counted.running, soundAfter.free_iff,
        holds_kept kept, ← held_iff]
      rw [and_comm]
      exact and_congr_right fun _ => by omega
  | timeout =>
      simp only [Picks, kept.timedThreads]
      constructor
      · rintro ⟨s'', member, once, _⟩
        have parked := sound.scheduler.timed th member
        exact ⟨(blockCount_eq_one_iff soundAfter parked).mp once, member⟩
      · rintro ⟨nobody, member⟩
        have parked := sound.scheduler.timed th member
        obtain ⟨s'', ran, _⟩ := soundAfter.unpark parked
        exact ⟨s'', member, (blockCount_eq_one_iff soundAfter parked).mpr nobody, ran⟩
  | spurious =>
      simp only [Picks, kept.spuriousThreads]
      constructor
      · rintro ⟨s'', _, member, once, _⟩
        have parked := sound.scheduler.spurious th member
        exact ⟨(blockCount_eq_one_iff soundAfter parked).mp once, member⟩
      · rintro ⟨nobody, member⟩
        have parked := sound.scheduler.spurious th member
        obtain ⟨s'', ran, _⟩ := soundAfter.unpark parked
        exact ⟨s'', busy, member, (blockCount_eq_one_iff soundAfter parked).mpr nobody, ran⟩

section Runs

variable {others totalDynamicThreads : Nat} {d₀ d : Driver (others + 1)}
  {events : List (Event (others + 1))} {call : Call (others + 1)}
  {tree : Tree SchedType (Outcome (others + 1) × Driver (others + 1))}

end Runs

end Driver

end LockFree.Relacy
