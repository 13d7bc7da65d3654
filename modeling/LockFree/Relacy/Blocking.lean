import LockFree.Relacy.Scheduler
import Mathlib.Algebra.BigOperators.Group.Finset.Piecewise
import Mathlib.Algebra.Order.BigOperators.Group.Finset

/-!
# What blocks threads

`Counted` says that `block_count_` counts the reasons why a thread does not run. What
`block_thread`, `unblock_thread`, the end of the wait for a thread and `yield_priority`
do is said once here, in terms of the reasons they add and take away.
-/

namespace LockFree.Relacy

namespace Scheduler

variable {n : Nat}

/-! ### What blocks threads -/

/-- The threads that a thread waits for after a yield. -/
def waits (s : Scheduler n) (th : Fin n) : Finset (Fin n) :=
  Finset.univ.filter fun y => (s.threads y).yieldPriority th ≠ 0

/-- One more reason. -/
def Holds.also (holds : Holds n) (th : Fin n) : Holds n := Function.update holds th (holds th + 1)

/-- Every thread is blocked as often as it has reasons, and runs if there are none. -/
structure Counted (holds : Holds n) (s : Scheduler n) : Prop where
  count : ∀ th, (s.threads th).blockCount = holds th + (s.waits th).card
  running : ∀ th, th ∈ s.runningThreads ↔ (s.threads th).state = .running
  free : ∀ th, (s.threads th).state = .running ↔ (s.threads th).blockCount = 0
  nodup : s.runningThreads.Nodup
  total : ∀ y, (s.threads y).totalYieldPriority = ∑ th, (s.threads y).yieldPriority th
  own : ∀ y, (s.threads y).yieldPriority y = 0
  finished : ∀ th, (s.threads th).state = .finished → s.waits th = ∅

/-- The counts are about the data of the threads and the list of those that run only. -/
theorem Counted.congr {holds : Holds n} {s s' : Scheduler n} (counted : Counted holds s)
    (threads : s'.threads = s.threads) (running : s'.runningThreads = s.runningThreads) :
    Counted holds s' := by
  obtain ⟨threads', thread, runningThreads, finishedThreadCount, timed, spurious, dynamic⟩ := s'
  subst threads running
  exact ⟨counted.count, counted.running, counted.free, counted.nodup, counted.total, counted.own,
    counted.finished⟩

/-- What scheduling leaves alone. -/
structure Kept (s s' : Scheduler n) : Prop where
  thread : s'.thread = s.thread
  finishedThreadCount : s'.finishedThreadCount = s.finishedThreadCount
  timedThreads : s'.timedThreads = s.timedThreads
  spuriousThreads : s'.spuriousThreads = s.spuriousThreads
  dynamicThreads : s'.dynamicThreads = s.dynamicThreads
  finished : ∀ th, (s'.threads th).state = .finished ↔ (s.threads th).state = .finished

/-- What blocking and unblocking leave alone. -/
structure Same (s s' : Scheduler n) : Prop extends Kept s s' where
  yieldSchedCount : ∀ th, (s'.threads th).yieldSchedCount = (s.threads th).yieldSchedCount

theorem Kept.refl (s : Scheduler n) : Kept s s :=
  ⟨rfl, rfl, rfl, rfl, rfl, fun _ => Iff.rfl⟩

theorem Kept.trans {s s' s'' : Scheduler n} (first : Kept s s') (second : Kept s' s'') :
    Kept s s'' where
  thread := second.thread.trans first.thread
  finishedThreadCount := second.finishedThreadCount.trans first.finishedThreadCount
  timedThreads := second.timedThreads.trans first.timedThreads
  spuriousThreads := second.spuriousThreads.trans first.spuriousThreads
  dynamicThreads := second.dynamicThreads.trans first.dynamicThreads
  finished th := (second.finished th).trans (first.finished th)

theorem Same.refl (s : Scheduler n) : Same s s := ⟨.refl s, fun _ => rfl⟩

theorem Same.trans {s s' s'' : Scheduler n} (first : Same s s') (second : Same s' s'') :
    Same s s'' :=
  ⟨first.toKept.trans second.toKept,
    fun th => (second.yieldSchedCount th).trans (first.yieldSchedCount th)⟩

@[simp] theorem setThread_threads (s : Scheduler n) (th u : Fin n) (t : SchedulerThread n) :
    (s.setThread th t).threads u = if u = th then t else s.threads u := by
  simp [setThread, Function.update_apply]

@[simp] theorem setThread_runningThreads (s : Scheduler n) (th : Fin n) (t : SchedulerThread n) :
    (s.setThread th t).runningThreads = s.runningThreads := rfl

@[simp] theorem setThread_dynamicThreads (s : Scheduler n) (th : Fin n) (t : SchedulerThread n) :
    (s.setThread th t).dynamicThreads = s.dynamicThreads := rfl

@[simp] theorem setThread_thread (s : Scheduler n) (th : Fin n) (t : SchedulerThread n) :
    (s.setThread th t).thread = s.thread := rfl

/-- Only the data of a thread and the list of the running ones change. -/
theorem kept_setThread {s : Scheduler n} {th : Fin n} {running : List (Fin n)}
    {t : SchedulerThread n} (finished : t.state = .finished ↔ (s.threads th).state = .finished) :
    Kept s ({ s with runningThreads := running }.setThread th t) := by
  refine ⟨rfl, rfl, rfl, rfl, rfl, fun u => ?_⟩
  by_cases isOwn : u = th
  · subst isOwn
    simpa using finished
  · simp [isOwn]

theorem same_setThread {s : Scheduler n} {th : Fin n} {running : List (Fin n)}
    {t : SchedulerThread n} (finished : t.state = .finished ↔ (s.threads th).state = .finished)
    (yieldSchedCount : t.yieldSchedCount = (s.threads th).yieldSchedCount) :
    Same s ({ s with runningThreads := running }.setThread th t) := by
  refine ⟨kept_setThread finished, fun u => ?_⟩
  by_cases isOwn : u = th
  · subst isOwn
    simpa using yieldSchedCount
  · simp [isOwn]

theorem Holds.also_apply (holds : Holds n) (th u : Fin n) :
    holds.also th u = if u = th then holds u + 1 else holds u := by
  by_cases same : u = th
  · subst same
    simp [Holds.also]
  · simp [Holds.also, same]

end Scheduler

/-- A loop that keeps an invariant of what it has been through comes to its end. -/
theorem exists_foldlM {Item State : Type} (body : State → Item → Option State) (items : List Item)
    (Inv : List Item → State → Prop) {s : State} (start : Inv [] s)
    (keeps : ∀ done item rest s, items = done ++ item :: rest → Inv done s →
      ∃ s', body s item = some s' ∧ Inv (done ++ [item]) s') :
    ∃ s', items.foldlM body s = some s' ∧ Inv items s' := by
  suffices onward : ∀ rest done s, items = done ++ rest → Inv done s →
      ∃ s', rest.foldlM body s = some s' ∧ Inv items s' from onward items [] s rfl start
  intro rest
  induction rest with
  | nil =>
      intro done s parts inv
      rw [List.append_nil] at parts
      exact ⟨s, rfl, parts ▸ inv⟩
  | cons item rest inductionHypothesis =>
      intro done s parts inv
      obtain ⟨next, ran, invNext⟩ := keeps done item rest s parts inv
      obtain ⟨last, ranRest, invLast⟩ := inductionHypothesis (done ++ [item]) next
        (by rw [parts, List.append_assoc, List.singleton_append]) invNext
      refine ⟨last, ?_, invLast⟩
      rw [List.foldlM_cons, ran]
      exact ranRest

namespace Scheduler

variable {n : Nat} {holds : Holds n} {s : Scheduler n} {th : Fin n}

/-! ### Blocking and unblocking -/

theorem waits_congr {s s' : Scheduler n} {th : Fin n}
    (same : ∀ y, (s'.threads y).yieldPriority th = (s.threads y).yieldPriority th) :
    s'.waits th = s.waits th := by
  simp only [waits, same]

/-- A blocked thread has a reason. -/
theorem Counted.state_blocked (counted : Counted holds s)
    (reason : 0 < holds th + (s.waits th).card) (unfinished : (s.threads th).state ≠ .finished) :
    (s.threads th).state = .blocked := by
  cases state : (s.threads th).state with
  | blocked => rfl
  | finished => exact absurd state unfinished
  | running =>
      have free := (counted.free th).mp state
      have count := counted.count th
      omega

/-- What a thread with other reasons has to look like. -/
theorem Counted.setThread (counted : Counted holds s) {holds' : Holds n} {t : SchedulerThread n}
    {running : List (Fin n)} (others : ∀ u, u ≠ th → holds' u = holds u)
    (yieldPriority : t.yieldPriority = (s.threads th).yieldPriority)
    (total : t.totalYieldPriority = (s.threads th).totalYieldPriority)
    (count : t.blockCount = holds' th + (s.waits th).card)
    (free : t.state = .running ↔ t.blockCount = 0)
    (finished : t.state = .finished → s.waits th = ∅) (nodup : running.Nodup)
    (members : ∀ u, u ∈ running ↔ if u = th then t.state = .running else u ∈ s.runningThreads) :
    Counted holds' ({ s with runningThreads := running }.setThread th t) := by
  have waits : ∀ u, ({ s with runningThreads := running }.setThread th t).waits u = s.waits u := by
    intro u
    apply waits_congr
    intro y
    by_cases isOwn : y = th
    · simp [isOwn, yieldPriority]
    · simp [isOwn]
  constructor
  · intro u
    rw [waits]
    by_cases isOwn : u = th
    · subst isOwn
      simpa using count
    · simpa [isOwn, others u isOwn] using counted.count u
  · intro u
    by_cases isOwn : u = th
    · simp [members, isOwn]
    · simp [members, isOwn, counted.running u]
  · intro u
    by_cases isOwn : u = th
    · simpa [isOwn] using free
    · simp [isOwn, counted.free u]
  · exact nodup
  · intro y
    by_cases isOwn : y = th
    · simp [isOwn, yieldPriority, total, counted.total th]
    · simp [isOwn, counted.total y]
  · intro y
    by_cases isOwn : y = th
    · simp [isOwn, yieldPriority, counted.own th]
    · simp [isOwn, counted.own y]
  · intro u ended
    rw [waits]
    by_cases isOwn : u = th
    · subst isOwn
      exact finished (by simpa using ended)
    · exact counted.finished u (by simpa [isOwn] using ended)

theorem priorities_setThread {running : List (Fin n)} {t : SchedulerThread n}
    (kept : t.yieldPriority = (s.threads th).yieldPriority) (y : Fin n) :
    (({ s with runningThreads := running }.setThread th t).threads y).yieldPriority =
      (s.threads y).yieldPriority := by
  by_cases isOwn : y = th
  · simp [isOwn, kept]
  · simp [isOwn]

theorem unblockThread_of_last (blocked : (s.threads th).state = .blocked)
    (last : (s.threads th).blockCount = 1) :
    s.unblockThread th = some ({ s with runningThreads := s.runningThreads ++ [th] }.setThread th
      { s.threads th with blockCount := 0, state := .running }) := by
  simp [unblockThread, blocked, last]

theorem unblockThread_of_more (blocked : (s.threads th).state = .blocked)
    (more : 1 < (s.threads th).blockCount) :
    s.unblockThread th =
      some (s.setThread th { s.threads th with blockCount := (s.threads th).blockCount - 1 }) := by
  have left : (s.threads th).blockCount - 1 ≠ 0 := by omega
  simp [unblockThread, blocked, left]

/-- A thread with one reason less is blocked once less. -/
theorem Counted.unblock (counted : Counted (holds.also th) s) (held : 0 ≤ holds th)
    (unfinished : (s.threads th).state ≠ .finished) :
    ∃ s', s.unblockThread th = some s' ∧ Counted holds s' ∧ Same s s' ∧
      ∀ y, (s'.threads y).yieldPriority = (s.threads y).yieldPriority := by
  have more : holds.also th th = holds th + 1 := by
    simp [Holds.also]
  have others : ∀ u, u ≠ th → holds u = holds.also th u := by
    intro u apart
    rw [Holds.also_apply, if_neg apart]
  have blocked := counted.state_blocked (by omega) unfinished
  have count := counted.count th
  have absent : th ∉ s.runningThreads := by
    rw [counted.running th, blocked]
    simp
  by_cases last : (s.threads th).blockCount = 1
  · refine ⟨_, unblockThread_of_last blocked last, ?_, ?_, priorities_setThread rfl⟩
    · apply counted.setThread others
      · rfl
      · rfl
      · simp only
        omega
      · simp
      · simp
      · rw [← List.concat_eq_append]
        exact counted.nodup.concat absent
      · intro u
        by_cases isOwn : u = th
        · simp [isOwn]
        · simp [isOwn]
    · exact same_setThread (by simp [blocked]) rfl
  · have more : 1 < (s.threads th).blockCount := by
      omega
    refine ⟨_, unblockThread_of_more blocked more, ?_, same_setThread Iff.rfl rfl,
      priorities_setThread rfl⟩
    apply counted.setThread others
    · rfl
    · rfl
    · simp only
      omega
    · simp only [blocked]
      simp
      omega
    · simp [blocked]
    · exact counted.nodup
    · intro u
      by_cases isOwn : u = th
      · simp [isOwn, counted.running]
      · simp [isOwn]

/-- A row of priorities changes at one place. -/
theorem Counted.setPriority (counted : Counted holds s) {y : Fin n} (apart : th ≠ y)
    {priority total : Nat} {holds' : Holds n} (others : ∀ u, u ≠ th → holds' u = holds u)
    (unfinished : (s.threads th).state = .finished → priority = 0)
    (count : holds th + ((if (s.threads y).yieldPriority th = 0 then 0 else 1) : Nat) =
      holds' th + ((if priority = 0 then 0 else 1) : Nat))
    (sum : total + (s.threads y).yieldPriority th =
      (s.threads y).totalYieldPriority + priority) :
    Counted holds' (s.setThread y { s.threads y with
      totalYieldPriority := total
      yieldPriority := Function.update (s.threads y).yieldPriority th priority }) := by
  have waitsOther : ∀ u, u ≠ th → (s.setThread y { s.threads y with
      totalYieldPriority := total
      yieldPriority := Function.update (s.threads y).yieldPriority th priority }).waits u =
        s.waits u := by
    intro u other
    apply waits_congr
    intro z
    by_cases isOwn : z = y
    · simp [isOwn, other]
    · simp [isOwn]
  have waitsOwn : (s.setThread y { s.threads y with
      totalYieldPriority := total
      yieldPriority := Function.update (s.threads y).yieldPriority th priority }).waits th =
        if priority = 0 then (s.waits th).erase y else insert y (s.waits th) := by
    ext z
    by_cases isOwn : z = y
    · subst isOwn
      by_cases zero : priority = 0 <;> simp [waits, zero]
    · by_cases zero : priority = 0 <;> simp [waits, zero, isOwn]
  have member : y ∈ s.waits th ↔ (s.threads y).yieldPriority th ≠ 0 := by
    simp [waits]
  have card : (if priority = 0 then (s.waits th).erase y else insert y (s.waits th)).card +
      (if (s.threads y).yieldPriority th = 0 then 0 else 1) =
        (s.waits th).card + (if priority = 0 then 0 else 1) := by
    by_cases waiting : (s.threads y).yieldPriority th = 0
    · have absent : y ∉ s.waits th := by simp [member, waiting]
      by_cases zero : priority = 0
      · simp [waiting, zero, absent]
      · simp [waiting, zero, absent]
    · have present : y ∈ s.waits th := member.mpr waiting
      have positive := Finset.card_pos.mpr ⟨y, present⟩
      by_cases zero : priority = 0
      · simp only [waiting, zero, if_true, if_false, Finset.card_erase_of_mem present]
        omega
      · simp [waiting, zero, present]
  constructor
  · intro u
    have counts := counted.count u
    by_cases isOwn : u = th
    · subst isOwn
      rw [waitsOwn]
      simp only [setThread_threads, if_neg apart]
      omega
    · rw [waitsOther u isOwn, others u isOwn]
      by_cases same : u = y
      · simpa [same] using counts
      · simpa [same] using counts
  · intro u
    by_cases same : u = y
    · simp [same, counted.running]
    · simp [same, counted.running]
  · intro u
    by_cases same : u = y
    · simp [same, counted.free]
    · simp [same, counted.free]
  · exact counted.nodup
  · intro z
    by_cases same : z = y
    · subst same
      have before := counted.total z
      have rest :=
        Finset.sum_update_of_mem (Finset.mem_univ th) (s.threads z).yieldPriority priority
      have whole :=
        Finset.add_sum_erase Finset.univ (s.threads z).yieldPriority (Finset.mem_univ th)
      rw [Finset.sdiff_singleton_eq_erase] at rest
      simp only [setThread_threads, if_true]
      omega
    · simp [same, counted.total z]
  · intro z
    by_cases same : z = y
    · simp [same, apart.symm, counted.own]
    · simp [same, counted.own]
  · intro u ended
    have endedBefore : (s.threads u).state = .finished := by
      by_cases same : u = y
      · simpa [same] using ended
      · simpa [same] using ended
    by_cases isOwn : u = th
    · subst isOwn
      rw [waitsOwn, if_pos (unfinished endedBefore), counted.finished u endedBefore]
      rfl
    · rw [waitsOther u isOwn]
      exact counted.finished u endedBefore

/-- Changes of a row of priorities leave the rest of the scheduler alone. -/
theorem same_setPriority {y : Fin n} {total : Nat} {priorities : Fin n → Nat} :
    Same s (s.setThread y { s.threads y with
      totalYieldPriority := total, yieldPriority := priorities }) :=
  same_setThread Iff.rfl rfl

theorem waits_of_priority {y : Fin n} (waiting : (s.threads y).yieldPriority th ≠ 0) :
    y ∈ s.waits th := by
  simp [waits, waiting]

theorem Counted.unfinished_of_priority (counted : Counted holds s) {y : Fin n}
    (waiting : (s.threads y).yieldPriority th ≠ 0) : (s.threads th).state ≠ .finished := by
  intro ended
  have none := counted.finished th ended
  have member := waits_of_priority waiting
  simp [none] at member

theorem Counted.priority_le_total (counted : Counted holds s) (y th : Fin n) :
    (s.threads y).yieldPriority th ≤ (s.threads y).totalYieldPriority := by
  rw [counted.total y]
  exact Finset.single_le_sum (fun _ _ => Nat.zero_le _) (Finset.mem_univ th)

/-- A thread no longer waits for another one. -/
theorem Counted.releaseFrom (counted : Counted holds s) (held : 0 ≤ holds) (y i : Fin n) :
    ∃ s', Scheduler.releaseFrom y s i = some s' ∧ Counted holds s' ∧ Same s s' ∧
      ∀ z, (s'.threads z).yieldPriority =
        if z = y then Function.update (s.threads y).yieldPriority i 0
        else (s.threads z).yieldPriority := by
  by_cases waiting : (s.threads y).yieldPriority i = 0
  · refine ⟨s, by simp [Scheduler.releaseFrom, waiting], counted, .refl s, fun z => ?_⟩
    by_cases same : z = y
    · subst same
      rw [if_pos rfl, ← waiting, Function.update_eq_self]
    · rw [if_neg same]
  · have apart : i ≠ y := by
      rintro rfl
      exact waiting (counted.own i)
    have below := counted.priority_le_total y i
    have reset : Counted (holds.also i) (s.setThread y { s.threads y with
        totalYieldPriority := (s.threads y).totalYieldPriority - (s.threads y).yieldPriority i
        yieldPriority := Function.update (s.threads y).yieldPriority i 0 }) := by
      apply counted.setPriority apart
      · intro u other
        rw [Holds.also_apply, if_neg other]
      · intro _
        rfl
      · simp [waiting, Holds.also]
      · omega
    have unfinished := counted.unfinished_of_priority waiting
    obtain ⟨s', ran, countedAfter, same, priorities⟩ := reset.unblock (held i)
      (by simpa [apart] using unfinished)
    refine ⟨s', ?_, countedAfter, same_setPriority.trans same, fun z => ?_⟩
    · simpa [Scheduler.releaseFrom, waiting] using ran
    · rw [priorities]
      by_cases isOwn : z = y
      · simp [isOwn]
      · simp [isOwn]

/-- No thread waits for a thread that is blocked, unless it starts to. -/
theorem Counted.onThreadBlock (counted : Counted holds s) (held : 0 ≤ holds) (y : Fin n) :
    ∃ s', s.onThreadBlock y = some s' ∧ Counted holds s' ∧ Same s s' ∧
      ∀ z, (s'.threads z).yieldPriority = if z = y then 0 else (s.threads z).yieldPriority := by
  by_cases none : (s.threads y).totalYieldPriority = 0
  · refine ⟨s, by simp [Scheduler.onThreadBlock, none], counted, .refl s, fun z => ?_⟩
    by_cases same : z = y
    · subst same
      rw [if_pos rfl]
      ext i
      have below := counted.priority_le_total z i
      simp only [Pi.zero_apply]
      omega
    · rw [if_neg same]
  · obtain ⟨s', ran, countedAfter, same, priorities⟩ := exists_foldlM
      (Scheduler.releaseFrom y) (List.finRange n)
      (fun done s' => Counted holds s' ∧ Same s s' ∧ ∀ z i, (s'.threads z).yieldPriority i =
        if z = y ∧ i ∈ done then 0 else (s.threads z).yieldPriority i)
      ⟨counted, .refl s, by simp⟩ (by
        intro done i rest s' _ inv
        obtain ⟨counted', same', priorities'⟩ := inv
        obtain ⟨next, ran, counted'', same'', priorities''⟩ := counted'.releaseFrom held y i
        refine ⟨next, ran, counted'', same'.trans same'', fun z j => ?_⟩
        rw [priorities'']
        by_cases isOwn : z = y
        · subst isOwn
          by_cases last : j = i
          · simp [last]
          · simp [last, priorities']
        · simp [isOwn, priorities'])
    refine ⟨s', by simpa [Scheduler.onThreadBlock, none] using ran, countedAfter, same,
      fun z => ?_⟩
    ext i
    rw [priorities]
    by_cases isOwn : z = y
    · simp [isOwn]
    · simp [isOwn]

/-- A thread with one reason more is blocked once more. -/
theorem Counted.block (counted : Counted holds s) (held : 0 ≤ holds.also th)
    (unfinished : (s.threads th).state ≠ .finished) :
    ∃ s', s.blockThread th = some s' ∧ Counted (holds.also th) s' ∧ Same s s' ∧
      ∀ z, (s'.threads z).yieldPriority =
        if z = th ∧ (s.threads th).state = .running then 0 else (s.threads z).yieldPriority := by
  have others : ∀ u, u ≠ th → holds.also th u = holds u := by
    intro u apart
    rw [Holds.also_apply, if_neg apart]
  have more : holds.also th th = holds th + 1 := by
    simp [Holds.also]
  have count := counted.count th
  by_cases free : (s.threads th).blockCount = 0
  · have running : (s.threads th).state = .running := (counted.free th).mpr free
    have member : th ∈ s.runningThreads := (counted.running th).mpr running
    have blocked : Counted (holds.also th)
        ({ s with runningThreads := s.runningThreads.erase th }.setThread th
          { s.threads th with
            blockCount := (s.threads th).blockCount + 1
            state := .blocked }) := by
      apply counted.setThread others
      · rfl
      · rfl
      · simp only
        omega
      · simp
      · simp
      · exact counted.nodup.erase th
      · intro u
        rw [counted.nodup.mem_erase_iff]
        by_cases isOwn : u = th
        · simp [isOwn]
        · simp [isOwn]
    obtain ⟨s', ran, countedAfter, same, priorities⟩ := blocked.onThreadBlock held th
    refine ⟨s', ?_, countedAfter, ?_, fun z => ?_⟩
    · simpa [blockThread, unfinished, free, member] using ran
    · refine Same.trans ?_ same
      apply same_setThread
      · simp [unfinished]
      · rfl
    · rw [priorities]
      by_cases isOwn : z = th
      · simp [isOwn, running]
      · simp [isOwn]
  · have waiting : (s.threads th).state ≠ .running := by
      rw [ne_eq, counted.free th]
      exact free
    refine ⟨s.setThread th { s.threads th with blockCount := (s.threads th).blockCount + 1 },
      by simp [blockThread, unfinished, free], ?_, same_setThread Iff.rfl rfl, fun z => ?_⟩
    · apply counted.setThread others
      · rfl
      · rfl
      · simp only
        omega
      · simp [waiting]
      · exact counted.finished th
      · exact counted.nodup
      · intro u
        by_cases isOwn : u = th
        · simp [isOwn, counted.running]
        · simp [isOwn]
    · rw [if_neg fun both => waiting both.2]
      apply priorities_setThread
      rfl

/-- No thread waits for another one any more. -/
theorem Counted.purge (counted : Counted holds s) (held : 0 ≤ holds) :
    ∃ s', s.purgeBlockedThreads = some s' ∧ Counted holds s' ∧ Same s s' ∧
      ∀ z, (s'.threads z).yieldPriority = 0 := by
  obtain ⟨s', ran, countedAfter, same, priorities⟩ := exists_foldlM
    Scheduler.onThreadBlock (List.finRange n)
    (fun done s' => Counted holds s' ∧ Same s s' ∧ ∀ z ∈ done, (s'.threads z).yieldPriority = 0)
    ⟨counted, .refl s, by simp⟩ (by
      intro done i rest s' _ inv
      obtain ⟨counted', same', priorities'⟩ := inv
      obtain ⟨next, ran, counted'', same'', priorities''⟩ := counted'.onThreadBlock held i
      refine ⟨next, ran, counted'', same'.trans same'', fun z member => ?_⟩
      rw [priorities'']
      split_ifs with isOwn
      · rfl
      · apply priorities'
        simpa [isOwn] using member)
  exact ⟨s', ran, countedAfter, same, fun z => priorities z (List.mem_finRange z)⟩

/-- A thread runs on if it gets no new reason. -/
theorem Counted.runs_on {holds' : Holds n} {s' : Scheduler n} (counted : Counted holds s)
    (counted' : Counted holds' s') (held : 0 ≤ holds th) (same : holds' th = holds th)
    (fewer : ∀ y, (s.threads y).yieldPriority th = 0 → (s'.threads y).yieldPriority th = 0)
    (running : (s.threads th).state = .running) : (s'.threads th).state = .running := by
  have count := counted.count th
  have countAfter := counted'.count th
  have free := (counted.free th).mp running
  have none : (s.waits th).card = 0 := by
    omega
  have noneAfter : s'.waits th ⊆ s.waits th := by
    intro y member
    simp only [waits, Finset.mem_filter, Finset.mem_univ, true_and] at member ⊢
    exact fun zero => member (fewer y zero)
  have card := Finset.card_le_card noneAfter
  rw [counted'.free]
  omega

/-- No thread runs but the current one. -/
def Alone (s : Scheduler n) : Prop :=
  ∀ th, th ≠ s.thread → (s.threads th).state ≠ .running

instance (s : Scheduler n) : Decidable s.Alone :=
  inferInstanceAs (Decidable (∀ _, _ → _))

/-- Without yields, a thread runs if nothing holds it. -/
theorem Counted.running_iff (counted : Counted holds s)
    (calm : ∀ z, (s.threads z).yieldPriority = 0) : th ∈ s.runningThreads ↔ holds th = 0 := by
  have none : s.waits th = ∅ := by
    simp [waits, calm]
  have count := counted.count th
  rw [none, Finset.card_empty] at count
  rw [counted.running, counted.free]
  omega

/-- There is a deadlock if something other than a yield holds every thread, and no
timeout is left. -/
theorem Counted.isDeadlock (counted : Counted holds s) (held : 0 ≤ holds) :
    ∃ dead s', s.isDeadlock = some (dead, s') ∧ Counted holds s' ∧ Same s s' ∧
      (dead = true ↔ (∀ th, 0 < holds th) ∧ s.timedThreads = []) ∧
      ((∀ z, (s'.threads z).yieldPriority = 0) ∧ s.runningThreads = [] ∧ s.timedThreads = [] ∨
        s' = s ∧ dead = false ∧ (s.runningThreads ≠ [] ∨ s.timedThreads ≠ [])) := by
  by_cases idle : s.runningThreads = [] ∧ s.timedThreads = []
  · obtain ⟨s', ran, countedAfter, same, calm⟩ := counted.purge held
    refine ⟨_, s', by rw [Scheduler.isDeadlock, if_pos idle, ran]; rfl, countedAfter, same, ?_,
      .inl ⟨calm, idle⟩⟩
    rw [decide_eq_true_eq, same.timedThreads, List.eq_nil_iff_forall_not_mem]
    have positive : ∀ th, 0 < holds th ↔ holds th ≠ 0 := fun th =>
      ⟨ne_of_gt, fun some => lt_of_le_of_ne (held th) some.symm⟩
    simp only [countedAfter.running_iff calm, positive]
  · refine ⟨false, s, by rw [Scheduler.isDeadlock, if_neg idle], counted, .refl s, ?_,
      .inr ⟨rfl, rfl, ?_⟩⟩
    · simp only [Bool.false_eq_true, false_iff, not_and]
      intro reasons
      have blocked : s.runningThreads = [] := by
        apply List.eq_nil_iff_forall_not_mem.mpr
        intro th member
        have count := counted.count th
        have free := (counted.free th).mp ((counted.running th).mp member)
        have positive := reasons th
        omega
      exact fun none => idle ⟨blocked, none⟩
    · exact not_and_or.mp idle

/-! ### Yields -/

/-- What a thread remembers of how often it has been scheduled does not matter for what
blocks threads. -/
theorem Counted.setYieldSchedCount (counted : Counted holds s) (y : Fin n) (counts : Fin n → Nat) :
    Counted holds (s.setThread y { s.threads y with yieldSchedCount := counts }) := by
  apply counted.setThread fun _ _ => rfl
  · rfl
  · rfl
  · exact counted.count y
  · exact counted.free y
  · exact counted.finished y
  · exact counted.nodup
  · intro u
    by_cases isOwn : u = y
    · simp [isOwn, counted.running]
    · simp [isOwn]

/-- A thread that waits for the current one waits for a round less. -/
theorem Counted.shortenFor (counted : Counted holds s) (held : 0 ≤ holds) (i : Fin n) :
    ∃ s', s.shortenFor i = some s' ∧ Counted holds s' ∧ Same s s' ∧
      ∀ y th, (s'.threads y).yieldPriority th =
        if y = s.thread ∧ th = i then (s.threads y).yieldPriority th - 1
        else (s.threads y).yieldPriority th := by
  by_cases waiting : (s.threads s.thread).yieldPriority i = 0
  · refine ⟨s, by simp [Scheduler.shortenFor, waiting], counted, .refl s, fun y th => ?_⟩
    split_ifs with both
    · obtain ⟨rfl, rfl⟩ := both
      omega
    · rfl
  · have apart : i ≠ s.thread := by
      intro same
      rw [same] at waiting
      exact waiting (counted.own _)
    have unfinished := counted.unfinished_of_priority waiting
    have below := counted.priority_le_total s.thread i
    have after : ∀ y th, ((s.setThread s.thread { s.threads s.thread with
          totalYieldPriority := (s.threads s.thread).totalYieldPriority - 1
          yieldPriority := Function.update (s.threads s.thread).yieldPriority i
            ((s.threads s.thread).yieldPriority i - 1) }).threads y).yieldPriority th =
        if y = s.thread ∧ th = i then (s.threads y).yieldPriority th - 1
        else (s.threads y).yieldPriority th := by
      intro y th
      by_cases isOwn : y = s.thread
      · subst isOwn
        by_cases isThread : th = i
        · simp [isThread]
        · simp [isThread]
      · simp [isOwn]
    by_cases last : (s.threads s.thread).yieldPriority i - 1 = 0
    · have reset : Counted (holds.also i) (s.setThread s.thread { s.threads s.thread with
          totalYieldPriority := (s.threads s.thread).totalYieldPriority - 1
          yieldPriority := Function.update (s.threads s.thread).yieldPriority i
            ((s.threads s.thread).yieldPriority i - 1) }) := by
        apply counted.setPriority apart
        · intro u other
          rw [Holds.also_apply, if_neg other]
        · intro _
          exact last
        · simp [waiting, last, Holds.also]
        · omega
      obtain ⟨s', ran, countedAfter, same, priorities⟩ := reset.unblock (held i)
        (by simpa [apart] using unfinished)
      refine ⟨s', ?_, countedAfter, same_setPriority.trans same, fun y th => ?_⟩
      · simpa only [Scheduler.shortenFor, if_neg waiting, if_pos last] using ran
      · rw [priorities, after]
    · refine ⟨_, by simp only [Scheduler.shortenFor, if_neg waiting, if_neg last], ?_,
        same_setPriority, after⟩
      apply counted.setPriority apart fun _ _ => rfl
      · intro ended
        exact absurd ended unfinished
      · simp [waiting, last]
      · omega

/-- Whoever waits for the current thread waits for a round less, and that the thread has
been scheduled is counted. -/
theorem Counted.passFor (counted : Counted holds s) (held : 0 ≤ holds) (i : Fin n) :
    ∃ s', s.passFor i = some s' ∧ Counted holds s' ∧ Kept s s' ∧
      (∀ y th, (s'.threads y).yieldPriority th =
        if y = s.thread ∧ th = i then (s.threads y).yieldPriority th - 1
        else (s.threads y).yieldPriority th) ∧
      ∀ y th, (s'.threads y).yieldSchedCount th =
        if y = s.thread ∧ th = i then (s.threads y).yieldSchedCount th + 1
        else (s.threads y).yieldSchedCount th := by
  obtain ⟨middle, ran, countedMiddle, same, priorities⟩ := counted.shortenFor held i
  refine ⟨middle.setThread middle.thread { middle.threads middle.thread with
      yieldSchedCount := Function.update (middle.threads middle.thread).yieldSchedCount i
        ((middle.threads middle.thread).yieldSchedCount i + 1) },
    by simp only [Scheduler.passFor, ran, Option.map_some],
    countedMiddle.setYieldSchedCount _ _, same.toKept.trans (kept_setThread Iff.rfl), ?_, ?_⟩
  · intro y th
    rw [← priorities]
    by_cases isOwn : y = middle.thread
    · simp [isOwn]
    · simp [isOwn]
  · intro y th
    rw [same.thread, ← same.yieldSchedCount]
    by_cases isOwn : y = s.thread
    · subst isOwn
      by_cases isThread : th = i
      · simp [isThread]
      · simp [isThread]
    · simp [isOwn]

/-- After the first loop of `schedule_impl`, whoever waited for the current thread waits
for a round less. -/
theorem Counted.pass (counted : Counted holds s) (held : 0 ≤ holds) :
    ∃ s', s.pass = some s' ∧ Counted holds s' ∧ Kept s s' ∧
      (∀ y th, (s'.threads y).yieldPriority th =
        if y = s.thread then (s.threads y).yieldPriority th - 1
        else (s.threads y).yieldPriority th) ∧
      ∀ y th, (s'.threads y).yieldSchedCount th =
        if y = s.thread ∧ (s.threads y).totalYieldPriority ≠ 0 then
          (s.threads y).yieldSchedCount th + 1
        else (s.threads y).yieldSchedCount th := by
  by_cases none : (s.threads s.thread).totalYieldPriority = 0
  · refine ⟨s, by simp [Scheduler.pass, none], counted, .refl s, fun y th => ?_, fun y th => ?_⟩
    · split_ifs with isOwn
      · subst isOwn
        have below := counted.priority_le_total s.thread th
        omega
      · rfl
    · rw [if_neg]
      rintro ⟨rfl, some⟩
      exact some none
  · obtain ⟨s', ran, countedAfter, kept, priorities, counts⟩ := exists_foldlM
      Scheduler.passFor (List.finRange n)
      (fun done s' => Counted holds s' ∧ Kept s s' ∧
        (∀ y th, (s'.threads y).yieldPriority th =
          if y = s.thread ∧ th ∈ done then (s.threads y).yieldPriority th - 1
          else (s.threads y).yieldPriority th) ∧
        ∀ y th, (s'.threads y).yieldSchedCount th =
          if y = s.thread ∧ th ∈ done then (s.threads y).yieldSchedCount th + 1
          else (s.threads y).yieldSchedCount th)
      ⟨counted, .refl s, by simp, by simp⟩ (by
        intro done i rest s' parts inv
        obtain ⟨counted', kept', priorities', counts'⟩ := inv
        obtain ⟨next, ran, counted'', kept'', priorities'', counts''⟩ := counted'.passFor held i
        have fresh : i ∉ done := by
          have nodup := List.nodup_finRange n
          rw [parts, List.nodup_append] at nodup
          exact fun member => nodup.2.2 i member i (List.mem_cons_self ..) rfl
        refine ⟨next, ran, counted'', kept'.trans kept'', fun y th => ?_, fun y th => ?_⟩
        · rw [priorities'', priorities', kept'.thread]
          by_cases isOwn : y = s.thread
          · by_cases last : th = i
            · simp [isOwn, last, fresh]
            · simp [isOwn, last]
          · simp [isOwn]
        · rw [counts'', counts', kept'.thread]
          by_cases isOwn : y = s.thread
          · by_cases last : th = i
            · simp [isOwn, last, fresh]
            · simp [isOwn, last]
          · simp [isOwn])
    refine ⟨s', by simpa [Scheduler.pass, none] using ran, countedAfter, kept, fun y th => ?_,
      fun y th => ?_⟩
    · simpa using priorities y th
    · rw [counts]
      by_cases isOwn : y = s.thread
      · simp [isOwn, none]
      · simp [isOwn]

/-- A thread that yields waits for this thread, unless that one is finished or its
`yield_sched_count_` is high enough: since the last yield it has come to that many
scheduling points while some thread waited for it. -/
def Awaits (s : Scheduler n) (yield : Nat) (i : Fin n) : Prop :=
  s.thread ≠ i ∧ (s.threads i).yieldSchedCount s.thread < yield ∧ (s.threads i).state ≠ .finished

instance (s : Scheduler n) (yield : Nat) (i : Fin n) : Decidable (s.Awaits yield i) :=
  inferInstanceAs (Decidable (_ ∧ _ ∧ _))

/-- Nobody waits for the current thread longer than before. -/
def Shorter (s s' : Scheduler n) : Prop :=
  ∀ th, (s'.threads s.thread).yieldPriority th ≤ (s.threads s.thread).yieldPriority th

/-- The current thread is blocked once more if it has to wait. -/
theorem Counted.waitFor (counted : Counted holds s) (held : 0 ≤ holds)
    (unfinished : (s.threads s.thread).state ≠ .finished) {yield : Nat} (positive : yield ≠ 0)
    {i : Fin n} (fresh : (s.threads i).yieldPriority s.thread = 0) :
    ∃ s', Scheduler.waitFor yield s i = some s' ∧ Counted holds s' ∧ Same s s' ∧ Shorter s s' ∧
      ∀ y th, y ≠ s.thread → (s'.threads y).yieldPriority th =
        if y = i ∧ th = s.thread ∧ s.Awaits yield i then yield
        else (s.threads y).yieldPriority th := by
  by_cases awaits : s.Awaits yield i
  · have apart : s.thread ≠ i := awaits.1
    -- for a moment the thread is blocked once too few
    have waiting : Counted (Function.update holds s.thread (holds s.thread - 1))
        (s.setThread i { s.threads i with
          totalYieldPriority := (s.threads i).totalYieldPriority + yield
          yieldPriority := Function.update (s.threads i).yieldPriority s.thread yield }) := by
      apply counted.setPriority apart
      · intro u other
        exact Function.update_of_ne other _ _
      · intro ended
        exact absurd ended unfinished
      · simp [fresh, positive]
      · omega
    have also : Holds.also (Function.update holds s.thread (holds s.thread - 1)) s.thread =
        holds := by
      simp [Holds.also]
    have positiveAfter : 0 ≤ Holds.also (Function.update holds s.thread (holds s.thread - 1))
        s.thread := by
      rwa [also]
    obtain ⟨s', ran, countedAfter, same, priorities⟩ :=
      waiting.block positiveAfter (by simpa [apart] using unfinished)
    rw [also] at countedAfter
    refine ⟨s', ?_, countedAfter, same_setPriority.trans same, fun th => ?_, fun y th other => ?_⟩
    · rw [Scheduler.waitFor, if_pos (show _ ∧ _ ∧ _ from awaits)]
      exact ran
    · rw [priorities]
      by_cases running : (s.threads s.thread).state = .running
      · simp [apart, running]
      · simp [apart, running]
    · rw [priorities, if_neg fun both => other both.1]
      by_cases isOther : y = i
      · subst isOther
        by_cases isThread : th = s.thread
        · simp [isThread, awaits]
        · simp [isThread]
      · simp [isOther]
  · refine ⟨s, ?_, counted, .refl s, fun _ => Nat.le_refl _, fun y th _ => ?_⟩
    · rw [Scheduler.waitFor, if_neg (show ¬ (_ ∧ _ ∧ _) from awaits)]
    · rw [if_neg fun all => awaits all.2.2]

/-- The body of the loop of `yield_priority`. -/
theorem Counted.yieldTo (counted : Counted holds s) (held : 0 ≤ holds)
    (unfinished : (s.threads s.thread).state ≠ .finished) {yield : Nat} (positive : yield ≠ 0)
    {i : Fin n} (fresh : (s.threads i).yieldPriority s.thread = 0) :
    ∃ s', Scheduler.yieldTo yield s i = some s' ∧ Counted holds s' ∧ Kept s s' ∧ Shorter s s' ∧
      (∀ y th, y ≠ s.thread → (s'.threads y).yieldPriority th =
        if y = i ∧ th = s.thread ∧ s.Awaits yield i then yield
        else (s.threads y).yieldPriority th) ∧
      ∀ y th, (s'.threads y).yieldSchedCount th =
        if y = i ∧ th = s.thread then 0 else (s.threads y).yieldSchedCount th := by
  obtain ⟨middle, ran, countedMiddle, same, shorter, priorities⟩ :=
    counted.waitFor held unfinished positive fresh
  refine ⟨middle.setThread i { middle.threads i with
      yieldSchedCount := Function.update (middle.threads i).yieldSchedCount middle.thread 0 },
    by simp [Scheduler.yieldTo, fresh, ran],
    countedMiddle.setYieldSchedCount _ _, same.toKept.trans (kept_setThread Iff.rfl), ?_, ?_, ?_⟩
  · intro th
    refine Nat.le_trans (Nat.le_of_eq ?_) (shorter th)
    by_cases isOwn : s.thread = i
    · simp [isOwn]
    · simp [isOwn]
  · intro y th other
    rw [← priorities y th other]
    by_cases isOwn : y = i
    · simp [isOwn]
    · simp [isOwn]
  · intro y th
    rw [← same.yieldSchedCount, same.thread]
    by_cases isOwn : y = i
    · subst isOwn
      by_cases isThread : th = s.thread
      · simp [isThread]
      · simp [isThread]
    · simp [isOwn]

/-- What a yield does: the current thread waits for all others that have not been
scheduled often enough, unless nobody could go on then. -/
theorem Counted.yieldPriority (counted : Counted holds s) (held : 0 ≤ holds)
    (unfinished : (s.threads s.thread).state ≠ .finished) {yield : Nat} (positive : yield ≠ 0)
    (fresh : ∀ y, (s.threads y).yieldPriority s.thread = 0) :
    ∃ s', s.yieldPriority yield = some s' ∧ Counted holds s' ∧ Kept s s' ∧ Shorter s s' ∧
      (∀ y th, (s'.threads y).yieldSchedCount th =
        if th = s.thread then 0 else (s.threads y).yieldSchedCount th) ∧
      ((∀ y, (s'.threads y).yieldPriority = 0) ∧ s.Alone ∨
        s'.runningThreads ≠ [] ∧ ∀ y th, y ≠ s.thread → (s'.threads y).yieldPriority th =
          if th = s.thread ∧ s.Awaits yield y then yield
          else (s.threads y).yieldPriority th) := by
  obtain ⟨s', ran, countedAfter, kept, shorter, priorities, counts⟩ := exists_foldlM
    (Scheduler.yieldTo yield) (List.finRange n)
    (fun done s' => Counted holds s' ∧ Kept s s' ∧ Shorter s s' ∧
      (∀ y th, y ≠ s.thread → (s'.threads y).yieldPriority th =
        if y ∈ done ∧ th = s.thread ∧ s.Awaits yield y then yield
        else (s.threads y).yieldPriority th) ∧
      ∀ y th, (s'.threads y).yieldSchedCount th =
        if y ∈ done ∧ th = s.thread then 0 else (s.threads y).yieldSchedCount th)
    ⟨counted, .refl s, fun _ => Nat.le_refl _, by simp, by simp⟩ (by
      intro done i rest s' parts inv
      obtain ⟨counted', kept', shorter', priorities', counts'⟩ := inv
      have absent : i ∉ done := by
        have nodup := List.nodup_finRange n
        rw [parts, List.nodup_append] at nodup
        exact fun member => nodup.2.2 i member i (List.mem_cons_self ..) rfl
      have unfinished' : (s'.threads s'.thread).state ≠ .finished := by
        rw [kept'.thread, ne_eq, kept'.finished]
        exact unfinished
      have fresh' : (s'.threads i).yieldPriority s'.thread = 0 := by
        rw [kept'.thread]
        by_cases isOwn : i = s.thread
        · rw [isOwn]
          exact counted'.own _
        · rw [priorities' i _ isOwn, if_neg fun both => absent both.1]
          exact fresh i
      have awaits : s'.Awaits yield i ↔ s.Awaits yield i := by
        rw [Awaits, Awaits, kept'.thread, counts', if_neg fun both => absent both.1,
          ne_eq (_ : ThreadState), kept'.finished]
      obtain ⟨next, ran, counted'', kept'', shorter'', priorities'', counts''⟩ :=
        counted'.yieldTo held unfinished' positive fresh'
      refine ⟨next, ran, counted'', kept'.trans kept'', fun th => ?_, fun y th other => ?_,
        fun y th => ?_⟩
      · have last := shorter'' th
        rw [kept'.thread] at last
        exact Nat.le_trans last (shorter' th)
      · rw [priorities'' y th (by rwa [kept'.thread]), priorities' y th other, kept'.thread]
        simp only [awaits]
        by_cases isLast : y = i
        · subst isLast
          simp [absent]
        · simp [isLast]
      · rw [counts'', counts', kept'.thread]
        by_cases isLast : y = i
        · subst isLast
          simp [absent]
        · simp [isLast])
  have counts : ∀ y th, (s'.threads y).yieldSchedCount th =
      if th = s.thread then 0 else (s.threads y).yieldSchedCount th := by
    intro y th
    simpa using counts y th
  by_cases idle : s'.runningThreads = []
  · obtain ⟨s'', ranPurge, counted'', same, calm⟩ := countedAfter.purge held
    refine ⟨s'', ?_, counted'', kept.trans same.toKept, fun th => ?_, fun y th => ?_,
      .inl ⟨calm, fun th other running => ?_⟩⟩
    · simp [Scheduler.yieldPriority, positive, ran, idle, ranPurge]
    · rw [calm]
      exact Nat.zero_le _
    · rw [same.yieldSchedCount, counts]
    · have runs := counted.runs_on countedAfter (held th) rfl (fun y zero => by
        by_cases isOwn : y = s.thread
        · have below := shorter th
          rw [← isOwn, zero] at below
          exact Nat.le_zero.mp below
        · rw [priorities y th isOwn, if_neg fun all => other all.2.1, zero]) running
      rw [← countedAfter.running, idle] at runs
      exact List.not_mem_nil runs
  · refine ⟨s', ?_, countedAfter, kept, shorter, counts, .inr ⟨idle, fun y th other => ?_⟩⟩
    · simp [Scheduler.yieldPriority, positive, ran, idle]
    · simpa using priorities y th other

end Scheduler

end LockFree.Relacy
