import LockFree.Relacy.Blocking

/-!
# Parking, the choice of a thread, and the end of threads

What the operations of `scheduler` do while some threads are parked, some are not
created yet and some are finished. `Sound` says that nothing else holds a thread, and
every operation keeps it.
-/

namespace LockFree.Relacy

open Search

namespace Scheduler

variable {n : Nat} {s s' : Scheduler n} {th : Fin n} {parked : Finset (Fin n)}

/-! ### What holds threads -/

theorem holds_nonneg (s : Scheduler n) (parked : Finset (Fin n)) : 0 ≤ s.holds parked := by
  intro th
  simp only [holds, Pi.zero_apply]
  split_ifs <;> omega

theorem holds_kept (kept : Kept s s') : s'.holds parked = s.holds parked := by
  ext th
  simp only [holds, kept.dynamicThreads, kept.finished]

/-- What holds of the scheduler whenever a thread calls it. -/
structure Sound (s : Scheduler n) (parked : Finset (Fin n)) : Prop where
  counted : Counted (s.holds parked) s
  timedNodup : s.timedThreads.Nodup
  spuriousNodup : s.spuriousThreads.Nodup
  dynamicNodup : s.dynamicThreads.Nodup
  timed : ∀ th ∈ s.timedThreads, th ∈ parked
  spurious : ∀ th ∈ s.spuriousThreads, th ∈ parked
  alive : ∀ th, (s.threads th).state = .finished → th ∉ parked ∧ th ∉ s.dynamicThreads
  begun : ∀ th ∈ s.dynamicThreads, th ∉ parked
  finishedThreadCount : s.finishedThreadCount =
    (Finset.univ.filter fun th => (s.threads th).state = .finished).card

/-- The scheduler stays in order when no more changes than the threads still to be
created, if those are neither finished nor parked. -/
theorem Sound.setDynamic (sound : s.Sound parked) {dynamic : List (Fin n)}
    (kept : Kept { s with dynamicThreads := dynamic } s') (counted : Counted (s'.holds parked) s')
    (nodup : dynamic.Nodup)
    (fresh : ∀ th ∈ dynamic, (s.threads th).state ≠ .finished ∧ th ∉ parked) :
    s'.Sound parked where
  counted := counted
  timedNodup := by rw [kept.timedThreads]; exact sound.timedNodup
  spuriousNodup := by rw [kept.spuriousThreads]; exact sound.spuriousNodup
  dynamicNodup := by rwa [kept.dynamicThreads]
  timed := by rw [kept.timedThreads]; exact sound.timed
  spurious := by rw [kept.spuriousThreads]; exact sound.spurious
  alive th ended := by
    have endedBefore := (kept.finished th).mp ended
    rw [kept.dynamicThreads]
    exact ⟨(sound.alive th endedBefore).1, fun member => (fresh th member).1 endedBefore⟩
  begun th member := by
    rw [kept.dynamicThreads] at member
    exact (fresh th member).2
  finishedThreadCount := by
    rw [kept.finishedThreadCount]
    simp only [kept.finished]
    exact sound.finishedThreadCount

theorem Sound.kept (sound : s.Sound parked) (counted : Counted (s.holds parked) s')
    (kept : Kept s s') : s'.Sound parked := by
  rw [← holds_kept kept] at counted
  apply sound.setDynamic kept counted sound.dynamicNodup
  intro th member
  exact ⟨fun ended => (sound.alive th ended).2 member, sound.begun th member⟩

/-- It does not matter which thread is the current one. -/
theorem Sound.switch (sound : s.Sound parked) (th : Fin n) :
    Sound { s with thread := th } parked where
  counted := sound.counted.congr rfl rfl
  timedNodup := sound.timedNodup
  spuriousNodup := sound.spuriousNodup
  dynamicNodup := sound.dynamicNodup
  timed := sound.timed
  spurious := sound.spurious
  alive := sound.alive
  begun := sound.begun
  finishedThreadCount := sound.finishedThreadCount

/-- A thread that runs is not held, and waits for nobody. -/
theorem Sound.free_iff (sound : s.Sound parked) :
    (s.threads th).state = .running ↔ s.holds parked th = 0 ∧ s.waits th = ∅ := by
  have count := sound.counted.count th
  have held := holds_nonneg s parked th
  rw [sound.counted.free, ← Finset.card_eq_zero]
  simp only [Pi.zero_apply] at held
  omega

/-- A thread runs on while no reason is added. -/
theorem Sound.running_of_fewer (sound : s.Sound parked) {parked' : Finset (Fin n)}
    (sound' : s'.Sound parked') (running : (s.threads th).state = .running)
    (fewerParked : parked' ⊆ parked)
    (fewerDynamic : ∀ u ∈ s'.dynamicThreads, u ∈ s.dynamicThreads)
    (finished : (s'.threads th).state = .finished → (s.threads th).state = .finished)
    (priorities : ∀ y, (s'.threads y).yieldPriority th = (s.threads y).yieldPriority th) :
    (s'.threads th).state = .running := by
  obtain ⟨held, nobody⟩ := sound.free_iff.mp running
  rw [sound'.free_iff, waits_congr priorities]
  refine ⟨?_, nobody⟩
  have notFinished : (s'.threads th).state ≠ .finished := fun ended => by
    simp [finished ended] at running
  have notParked : th ∉ parked := by
    intro member
    simp only [holds, member, if_true] at held
    split_ifs at held <;> omega
  have notDynamic : th ∉ s.dynamicThreads := by
    intro member
    simp only [holds, member, if_true] at held
    split_ifs at held <;> omega
  simp only [holds, notFinished, if_false, if_neg fun member => notParked (fewerParked member),
    if_neg fun member => notDynamic (fewerDynamic th member)]
  rfl

/-! ### Parking -/

/-- A parked thread goes on, if nothing else blocks it. -/
theorem Sound.unpark (sound : s.Sound parked) (member : th ∈ parked) :
    ∃ s', s.unparkThread th = some s' ∧ s'.Sound (parked.erase th) ∧
      s'.thread = s.thread ∧ s'.dynamicThreads = s.dynamicThreads ∧
      s'.timedThreads = s.timedThreads.erase th ∧
      (∀ u, (s'.threads u).state = .finished ↔ (s.threads u).state = .finished) ∧
      ∀ y, (s'.threads y).yieldPriority = (s.threads y).yieldPriority := by
  have unfinished : (s.threads th).state ≠ .finished := fun ended =>
    (sound.alive th ended).1 member
  have also : s.holds parked = (s.holds (parked.erase th)).also th := by
    ext u
    rw [Holds.also_apply]
    by_cases isOwn : u = th
    · subst isOwn
      simp only [holds, member, if_true, Finset.notMem_erase, if_false]
      omega
    · simp [holds, isOwn]
  have counted := sound.counted
  rw [also] at counted
  obtain ⟨s', ran, countedAfter, same, priorities⟩ :=
    counted.unblock (holds_nonneg _ _ th) unfinished
  refine ⟨{ s' with
      spuriousThreads := s'.spuriousThreads.erase th
      timedThreads := s'.timedThreads.erase th }, by rw [unparkThread, ran]; rfl, ?_, same.thread,
    same.dynamicThreads, by rw [same.timedThreads], same.finished, priorities⟩
  have sameHolds : s'.holds (parked.erase th) = s.holds (parked.erase th) := holds_kept same.toKept
  refine ⟨?_, ?_, ?_, ?_, ?_, ?_, ?_, ?_, ?_⟩
  · rw [← sameHolds] at countedAfter
    exact countedAfter.congr rfl rfl
  · rw [same.timedThreads]
    exact sound.timedNodup.erase th
  · rw [same.spuriousThreads]
    exact sound.spuriousNodup.erase th
  · rw [same.dynamicThreads]
    exact sound.dynamicNodup
  · intro u member
    rw [same.timedThreads, sound.timedNodup.mem_erase_iff] at member
    exact Finset.mem_erase.mpr ⟨member.1, sound.timed u member.2⟩
  · intro u member
    rw [same.spuriousThreads, sound.spuriousNodup.mem_erase_iff] at member
    exact Finset.mem_erase.mpr ⟨member.1, sound.spurious u member.2⟩
  · intro u ended
    have before := sound.alive u ((same.finished u).mp ended)
    rw [same.dynamicThreads]
    exact ⟨fun member => before.1 (Finset.mem_of_mem_erase member), before.2⟩
  · intro u member isParked
    rw [same.dynamicThreads] at member
    exact sound.begun u member (Finset.mem_of_mem_erase isParked)
  · rw [same.finishedThreadCount, sound.finishedThreadCount]
    simp only [same.finished]

/-! ### The choice of a thread -/

/-- A parked thread that nothing else blocks runs when its wait ends. -/
theorem Sound.wakes (sound : s.Sound parked) (member : th ∈ parked)
    (alone : (s.threads th).blockCount = 1) :
    ∃ s', s.unparkThread th = some s' ∧ (s'.threads th).state = .running := by
  obtain ⟨s', ran, soundAfter, _, dynamic, _, finished, priorities⟩ := sound.unpark member
  refine ⟨s', ran, soundAfter.free_iff.mpr ?_⟩
  have count := sound.counted.count th
  simp only [holds, member, if_true, alone] at count
  constructor
  · simp only [holds, Finset.notMem_erase, if_false, dynamic, finished]
    split_ifs at count ⊢ <;> omega
  · have none : s.waits th = ∅ := by
      rw [← Finset.card_eq_zero]
      split_ifs at count <;> omega
    rw [waits_congr fun y => congrFun (priorities y) th]
    exact none

/-- What `endWait` answers. -/
theorem Sound.endWait (sound : s.Sound parked) {threads : List (Fin n)}
    (inside : ∀ th ∈ threads, th ∈ parked) (reason : UnparkReason) (index : Nat) :
    (∃ th s', threads[index]? = some th ∧ (s.threads th).blockCount = 1 ∧
      s.unparkThread th = some s' ∧ s.endWait threads reason index = some (some (th, reason), s')) ∨
    ((∀ th, threads[index]? = some th → (s.threads th).blockCount ≠ 1) ∧
      s.endWait threads reason index = some (none, s)) := by
  cases found : threads[index]? with
  | none => exact .inr ⟨by simp, by simp [Scheduler.endWait, found]⟩
  | some th =>
      by_cases alone : (s.threads th).blockCount = 1
      · obtain ⟨s', ran, running⟩ := sound.wakes (inside th (List.mem_of_getElem? found)) alone
        exact .inl ⟨th, s', rfl, alone, ran,
          by simp [Scheduler.endWait, found, alone, ran, running]⟩
      · exact .inr ⟨by simp [alone], by simp [Scheduler.endWait, found, alone]⟩

/-- The thread may be the next one. -/
def Picks (s : Scheduler n) : Fin n → UnparkReason → Scheduler n → Prop
  | th, .normal, s' => th ∈ s.runningThreads ∧ s' = s
  | th, .timeout, s' => th ∈ s.timedThreads ∧ (s.threads th).blockCount = 1 ∧
      s.unparkThread th = some s'
  | th, .spurious, s' => s.runningThreads ≠ [] ∧ th ∈ s.spuriousThreads ∧
      (s.threads th).blockCount = 1 ∧ s.unparkThread th = some s'

/-- Every running thread can be chosen. -/
theorem yields_pickRunning (busy : s.runningThreads ≠ [])
    {picked : Option (Fin n × UnparkReason × Scheduler n)} :
    s.pickRunning.Yields picked ↔ ∃ th ∈ s.runningThreads, picked = some (th, .normal, s) := by
  simp only [pickRunning, Tree.yields_bind, Tree.yields_done, yields_chooseThread busy]
  constructor
  · rintro ⟨_, ⟨th, member, rfl⟩, rfl⟩
    exact ⟨th, member, rfl⟩
  · rintro ⟨th, member, rfl⟩
    exact ⟨some th, ⟨th, member, rfl⟩, rfl⟩

/-- What comes of an offer. -/
theorem Sound.yields_offer (sound : s.Sound parked) {threads : List (Fin n)}
    (inside : ∀ th ∈ threads, th ∈ parked) {reason : UnparkReason} {others : Nat}
    {otherwise : Scheduler n → Tree SchedType (Option (Fin n × UnparkReason × Scheduler n))}
    {picked : Option (Fin n × UnparkReason × Scheduler n)} :
    (s.offer threads reason others otherwise).Yields picked ↔
      (∃ index ≤ others, ∃ th s', threads[index]? = some th ∧ (s.threads th).blockCount = 1 ∧
        s.unparkThread th = some s' ∧ picked = some (th, reason, s')) ∨
      (∃ index ≤ others, ∀ th, threads[index]? = some th → (s.threads th).blockCount ≠ 1) ∧
        (otherwise s).Yields picked := by
  simp only [offer, Tree.yields_ask, Nat.lt_succ_iff]
  constructor
  · rintro ⟨index, bound, yields⟩
    rcases sound.endWait inside reason index with ⟨th, s', found, alone, ran, ends⟩ | ⟨busy, ends⟩
    · rw [ends] at yields
      exact .inl ⟨index, bound, th, s', found, alone, ran, Eq.symm yields⟩
    · rw [ends] at yields
      exact .inr ⟨⟨index, bound, busy⟩, yields⟩
  · rintro (⟨index, bound, th, s', found, alone, ran, rfl⟩ | ⟨⟨index, bound, busy⟩, yields⟩)
    · rcases sound.endWait inside reason index with ⟨_, _, found', _, ran', ends⟩ | ⟨busy, _⟩
      · obtain rfl := Option.some.inj (found.symm.trans found')
        obtain rfl := Option.some.inj (ran.symm.trans ran')
        exact ⟨index, bound, by rw [ends]; rfl⟩
      · exact absurd alone (busy th found)
    · rcases sound.endWait inside reason index with ⟨th, _, found, alone, _, _⟩ | ⟨_, ends⟩
      · exact absurd alone (busy th found)
      · exact ⟨index, bound, by rw [ends]; exact yields⟩

/-- A thread of the list can be named, if the limit allows for all of them. -/
theorem exists_index {threads : List (Fin n)} {others : Nat} (all : threads.length ≤ others + 1)
    {p : Fin n → Prop} :
    (∃ index ≤ others, ∃ th, threads[index]? = some th ∧ p th) ↔ ∃ th ∈ threads, p th := by
  constructor
  · rintro ⟨index, _, th, found, holds⟩
    exact ⟨th, List.mem_of_getElem? found, holds⟩
  · rintro ⟨th, member, holds⟩
    obtain ⟨index, found⟩ := List.mem_iff_getElem?.mp member
    have inside := (List.getElem?_eq_some_iff.mp found).1
    exact ⟨index, by omega, th, found, holds⟩

/-- If a thread runs, an offer can be declined. -/
theorem Sound.yields_offer_all (sound : s.Sound parked) {threads : List (Fin n)}
    (inside : ∀ th ∈ threads, th ∈ parked) {reason : UnparkReason}
    {otherwise : Scheduler n → Tree SchedType (Option (Fin n × UnparkReason × Scheduler n))}
    {picked : Option (Fin n × UnparkReason × Scheduler n)} :
    (s.offer threads reason threads.length otherwise).Yields picked ↔
      (∃ th ∈ threads, (s.threads th).blockCount = 1 ∧
        ∃ s', s.unparkThread th = some s' ∧ picked = some (th, reason, s')) ∨
      (otherwise s).Yields picked := by
  rw [sound.yields_offer inside, ← exists_index (Nat.le_succ _)]
  have declined : ∃ index ≤ threads.length, ∀ th, threads[index]? = some th →
      (s.threads th).blockCount ≠ 1 := ⟨threads.length, Nat.le_refl _, by simp⟩
  simp only [declined, true_and]
  constructor
  · rintro (⟨index, bound, th, s', found, alone, ran, same⟩ | yields)
    · exact .inl ⟨index, bound, th, found, alone, s', ran, same⟩
    · exact .inr yields
  · rintro (⟨index, bound, th, found, alone, s', ran, same⟩ | yields)
    · exact .inl ⟨index, bound, th, s', found, alone, ran, same⟩
    · exact .inr yields

/-- A spurious wakeup is possible if some thread runs, and so is every running thread. -/
theorem Sound.yields_pickSpurious (sound : s.Sound parked)
    {picked : Option (Fin n × UnparkReason × Scheduler n)} :
    s.pickSpurious.Yields picked ↔
      s.runningThreads = [] ∧ picked = none ∨
      ∃ th reason s', reason ≠ .timeout ∧ s.Picks th reason s' ∧
        picked = some (th, reason, s') := by
  rw [pickSpurious]
  split_ifs with idle nobody
  · constructor
    · intro failed
      exact .inl ⟨idle, Eq.symm failed⟩
    · rintro (⟨_, rfl⟩ | ⟨th, reason, s', isNot, picks, _⟩)
      · rfl
      · cases reason with
        | normal => simp [Picks, idle] at picks
        | timeout => exact absurd rfl isNot
        | spurious => exact absurd idle picks.1
  · rw [yields_pickRunning idle]
    constructor
    · rintro ⟨th, member, rfl⟩
      exact .inr ⟨th, .normal, s, by simp, ⟨member, rfl⟩, rfl⟩
    · rintro (⟨none, _⟩ | ⟨th, reason, s', isNot, picks, rfl⟩)
      · exact absurd none idle
      · cases reason with
        | normal =>
            obtain ⟨member, rfl⟩ := picks
            exact ⟨th, member, rfl⟩
        | timeout => exact absurd rfl isNot
        | spurious => simp [Picks, nobody] at picks
  · rw [sound.yields_offer_all sound.spurious, yields_pickRunning idle]
    constructor
    · rintro (⟨th, member, alone, s', ran, rfl⟩ | ⟨th, member, rfl⟩)
      · exact .inr ⟨th, .spurious, s', by simp, ⟨idle, member, alone, ran⟩, rfl⟩
      · exact .inr ⟨th, .normal, s, by simp, ⟨member, rfl⟩, rfl⟩
    · rintro (⟨none, _⟩ | ⟨th, reason, s', isNot, picks, rfl⟩)
      · exact absurd none idle
      · cases reason with
        | normal =>
            obtain ⟨member, rfl⟩ := picks
            exact .inr ⟨th, member, rfl⟩
        | timeout => exact absurd rfl isNot
        | spurious =>
            obtain ⟨_, member, alone, ran⟩ := picks
            exact .inl ⟨th, member, alone, s', ran, rfl⟩

/-- Exactly those threads may be the next one, and the check that some thread runs
fails exactly if none does and the thread whose wait is to end is blocked otherwise. -/
theorem Sound.yields_pick (sound : s.Sound parked)
    {picked : Option (Fin n × UnparkReason × Scheduler n)} :
    s.pick.Yields picked ↔
      (s.runningThreads = [] ∧ (s.timedThreads = [] ∨
        ∃ th ∈ s.timedThreads, (s.threads th).blockCount ≠ 1) ∧ picked = none) ∨
      ∃ th reason s', s.Picks th reason s' ∧ picked = some (th, reason, s') := by
  by_cases nobody : s.timedThreads = []
  · rw [pick, if_pos nobody, sound.yields_pickSpurious]
    constructor
    · rintro (⟨idle, rfl⟩ | ⟨th, reason, s', _, picks, rfl⟩)
      · exact .inl ⟨idle, .inl nobody, rfl⟩
      · exact .inr ⟨th, reason, s', picks, rfl⟩
    · rintro (⟨idle, _, rfl⟩ | ⟨th, reason, s', picks, rfl⟩)
      · exact .inl ⟨idle, rfl⟩
      · refine .inr ⟨th, reason, s', ?_, picks, rfl⟩
        rintro rfl
        simp [Picks, nobody] at picks
  · have positive := List.length_pos_iff.mpr nobody
    by_cases idle : s.runningThreads = []
    · have limit : s.timedThreads.length ≤ s.timedThreads.length - 1 + 1 := by
        omega
      -- the answer names a thread in any case
      have named : (∃ index ≤ s.timedThreads.length - 1, ∀ th, s.timedThreads[index]? = some th →
          (s.threads th).blockCount ≠ 1) ↔
            ∃ th ∈ s.timedThreads, (s.threads th).blockCount ≠ 1 := by
        rw [← exists_index limit]
        constructor
        · rintro ⟨index, bound, busy⟩
          have inside : index < s.timedThreads.length := by
            omega
          have found := List.getElem?_eq_getElem inside
          exact ⟨index, bound, _, found, busy _ found⟩
        · rintro ⟨index, bound, th, found, busy⟩
          refine ⟨index, bound, fun u foundToo => ?_⟩
          obtain rfl := Option.some.inj (found.symm.trans foundToo)
          exact busy
      rw [pick, if_neg nobody, if_pos idle, sound.yields_offer sound.timed, named,
        sound.yields_pickSpurious]
      constructor
      · rintro (⟨index, bound, th, s', found, alone, ran, rfl⟩ | ⟨busy, ⟨_, rfl⟩ |
          ⟨th, reason, s', _, picks, rfl⟩⟩)
        · exact .inr ⟨th, .timeout, s', ⟨List.mem_of_getElem? found, alone, ran⟩, rfl⟩
        · exact .inl ⟨idle, .inr busy, rfl⟩
        · exact .inr ⟨th, reason, s', picks, rfl⟩
      · rintro (⟨_, none | busy, rfl⟩ | ⟨th, reason, s', picks, rfl⟩)
        · exact absurd none nobody
        · exact .inr ⟨busy, .inl ⟨idle, rfl⟩⟩
        · cases reason with
          | normal => simp [Picks, idle] at picks
          | spurious => exact absurd idle picks.1
          | timeout =>
              obtain ⟨member, alone, ran⟩ := picks
              obtain ⟨index, bound, u, found, same⟩ :=
                (exists_index limit (p := fun u => u = th)).mpr ⟨th, member, rfl⟩
              subst same
              exact .inl ⟨index, bound, u, s', found, alone, ran, rfl⟩
    · rw [pick, if_neg nobody, if_neg idle, sound.yields_offer_all sound.timed,
        sound.yields_pickSpurious]
      constructor
      · rintro (⟨th, member, alone, s', ran, rfl⟩ | ⟨none, _⟩ | ⟨th, reason, s', _, picks, rfl⟩)
        · exact .inr ⟨th, .timeout, s', ⟨member, alone, ran⟩, rfl⟩
        · exact absurd none idle
        · exact .inr ⟨th, reason, s', picks, rfl⟩
      · rintro (⟨none, _⟩ | ⟨th, reason, s', picks, rfl⟩)
        · exact absurd none idle
        · cases reason with
          | timeout =>
              obtain ⟨member, alone, ran⟩ := picks
              exact .inl ⟨th, member, alone, s', ran, rfl⟩
          | normal => exact .inr (.inr ⟨th, .normal, s', by simp, picks, rfl⟩)
          | spurious => exact .inr (.inr ⟨th, .spurious, s', by simp, picks, rfl⟩)

/-- The chosen thread runs, and is not parked any more. -/
theorem Sound.picks (sound : s.Sound parked) {reason : UnparkReason}
    (picks : s.Picks th reason s') :
    s'.Sound (parked.erase th) ∧ (s'.threads th).state = .running ∧
      (∀ u, (s'.threads u).state = .finished ↔ (s.threads u).state = .finished) ∧
      ∀ y, (s'.threads y).yieldPriority = (s.threads y).yieldPriority := by
  -- a timeout and a spurious wakeup unpark
  have unparks : th ∈ parked → (s.threads th).blockCount = 1 → s.unparkThread th = some s' →
      s'.Sound (parked.erase th) ∧ (s'.threads th).state = .running ∧
      (∀ u, (s'.threads u).state = .finished ↔ (s.threads u).state = .finished) ∧
      ∀ y, (s'.threads y).yieldPriority = (s.threads y).yieldPriority := by
    intro member alone ran
    obtain ⟨_, ran', running⟩ := sound.wakes member alone
    obtain rfl := Option.some.inj (ran.symm.trans ran')
    obtain ⟨_, ran', soundAfter, _, _, _, finished, priorities⟩ := sound.unpark member
    obtain rfl := Option.some.inj (ran.symm.trans ran')
    exact ⟨soundAfter, running, finished, priorities⟩
  cases reason with
  | timeout => exact unparks (sound.timed th picks.1) picks.2.1 picks.2.2
  | spurious => exact unparks (sound.spurious th picks.2.1) picks.2.2.1 picks.2.2.2
  | normal =>
      obtain ⟨member, rfl⟩ := picks
      have running := (sound.counted.running th).mp member
      have held := (sound.free_iff.mp running).1
      have absent : th ∉ parked := by
        intro isParked
        simp only [holds, isParked, if_true] at held
        split_ifs at held <;> omega
      rw [Finset.erase_eq_of_notMem absent]
      exact ⟨sound, running, fun _ => Iff.rfl, fun _ => rfl⟩

/-- How the priorities change before a thread is chosen. -/
structure Yielded (s : Scheduler n) (yield : Nat) (s' : Scheduler n) : Prop where
  shorter : Shorter s s'
  plain : yield = 0 → ∀ th, (s'.threads s.thread).yieldPriority th =
    (s.threads s.thread).yieldPriority th - 1
  others : ((∀ y, (s'.threads y).yieldPriority = 0) ∧ s.Alone ∧ yield ≠ 0) ∨
    (yield ≠ 0 → s'.runningThreads ≠ []) ∧ ∀ y th, y ≠ s.thread →
      (s'.threads y).yieldPriority th =
        if th = s.thread ∧ s.Awaits yield y then yield else (s.threads y).yieldPriority th

/-- Before a thread is chosen, nothing can go wrong. -/
theorem Sound.settleYields (sound : s.Sound parked) {yield : Nat}
    (ready : yield ≠ 0 → (s.threads s.thread).state ≠ .finished ∧ s.waits s.thread = ∅) :
    ∃ s', s.settleYields yield = some s' ∧ s'.Sound parked ∧ Kept s s' ∧ Yielded s yield s' := by
  have held := holds_nonneg s parked
  have sum := sound.counted.total s.thread
  obtain ⟨passed, ran, counted, kept, priorities, counts⟩ := sound.counted.pass held
  by_cases plain : yield = 0
  · subst plain
    refine ⟨passed, by simp [Scheduler.settleYields, ran, ← sum], sound.kept counted kept, kept,
      ?_, ?_, ?_⟩
    · intro th
      rw [priorities, if_pos rfl]
      exact Nat.sub_le _ _
    · intro _ th
      rw [priorities, if_pos rfl]
    · refine .inr ⟨by simp, fun y th other => ?_⟩
      rw [priorities, if_neg other, if_neg]
      rintro ⟨_, awaits⟩
      exact absurd awaits.2.1 (Nat.not_lt_zero _)
  · obtain ⟨unfinished, nobody⟩ := ready plain
    have fresh : ∀ y, (passed.threads y).yieldPriority passed.thread = 0 := by
      intro y
      have none : (s.threads y).yieldPriority s.thread = 0 := by
        by_contra some
        have member := waits_of_priority some
        simp [nobody] at member
      rw [kept.thread, priorities, none]
      simp
    have alive : (passed.threads passed.thread).state ≠ .finished := by
      rwa [kept.thread, ne_eq, kept.finished]
    obtain ⟨s', ranYield, countedAfter, keptYield, shorter, _, prioritiesYield⟩ :=
      counted.yieldPriority held alive plain fresh
    have awaits : ∀ y, y ≠ s.thread → (passed.Awaits yield y ↔ s.Awaits yield y) := by
      intro y other
      rw [Awaits, Awaits, kept.thread, counts, if_neg fun both => other both.1,
        ne_eq (_ : ThreadState), kept.finished]
    refine ⟨s', by simp [Scheduler.settleYields, ran, plain, ranYield, ← sum],
      sound.kept countedAfter (kept.trans keptYield), kept.trans keptYield, ?_, ?_, ?_⟩
    · intro th
      have last := shorter th
      rw [kept.thread, priorities, if_pos rfl] at last
      exact Nat.le_trans last (Nat.sub_le _ _)
    · intro zero
      exact absurd zero plain
    · rcases prioritiesYield with ⟨calm, alone⟩ | ⟨busy, others⟩
      · refine .inl ⟨calm, fun th other running => alone th (by rwa [kept.thread]) ?_, plain⟩
        refine sound.counted.runs_on counted (held th) rfl (fun y zero => ?_) running
        rw [priorities, zero, ite_self]
      · refine .inr ⟨fun _ => busy, fun y th other => ?_⟩
        rw [others y th (by rwa [kept.thread]), priorities, if_neg other, kept.thread]
        simp only [awaits y other]

/-! ### The end of a thread, and its start -/

/-- A thread that is not created yet begins. -/
theorem Counted.begin {dynamic rest : List (Fin n)}
    (counted : Counted ({ s with dynamicThreads := dynamic }.holds parked) s)
    (split : ∀ u, u ∈ dynamic ↔ u = th ∨ u ∈ rest) (absent : th ∉ rest)
    (unfinished : (s.threads th).state ≠ .finished) :
    ∃ s', s.unblockThread th = some s' ∧
      Counted ({ s' with dynamicThreads := rest }.holds parked) s' ∧ Same s s' ∧
      ∀ y, (s'.threads y).yieldPriority = (s.threads y).yieldPriority := by
  have also : ({ s with dynamicThreads := dynamic }.holds parked : Holds n) =
      ({ s with dynamicThreads := rest }.holds parked : Holds n).also th := by
    ext u
    rw [Holds.also_apply]
    by_cases isOwn : u = th
    · subst isOwn
      simp only [holds, split, true_or, if_true, absent, if_false]
      omega
    · simp [holds, split, isOwn]
  rw [also] at counted
  obtain ⟨s', ran, countedAfter, same, priorities⟩ :=
    counted.unblock (holds_nonneg _ _ th) unfinished
  refine ⟨s', ran, ?_, same, priorities⟩
  have sameHolds : ({ s' with dynamicThreads := rest }.holds parked : Holds n) =
      { s with dynamicThreads := rest }.holds parked := by
    ext u
    simp only [holds, same.finished]
  rwa [sameHolds]

/-- What does not change when threads begin. -/
structure Begun (s s' : Scheduler n) : Prop where
  thread : s'.thread = s.thread
  timedThreads : s'.timedThreads = s.timedThreads
  dynamicThreads : ∀ th ∈ s'.dynamicThreads, th ∈ s.dynamicThreads
  finished : ∀ th, (s'.threads th).state = .finished ↔ (s.threads th).state = .finished
  yieldPriority : ∀ y, (s'.threads y).yieldPriority = (s.threads y).yieldPriority

/-- A thread is created. -/
theorem Sound.create (sound : s.Sound parked) (left : s.dynamicThreads ≠ []) :
    ∃ th s', s.createThread = some (th, s') ∧ s'.Sound parked ∧ Begun s s' := by
  have parts := List.dropLast_append_getLast left
  generalize s.dynamicThreads.getLast left = th at parts
  have nodup := sound.dynamicNodup
  rw [← parts, List.nodup_append] at nodup
  have split : ∀ u, u ∈ s.dynamicThreads ↔ u = th ∨ u ∈ s.dynamicThreads.dropLast := by
    intro u
    conv_lhs => rw [← parts]
    simp [or_comm]
  have absent : th ∉ s.dynamicThreads.dropLast := fun member =>
    nodup.2.2 th member th (List.mem_singleton_self th) rfl
  have unfinished : (s.threads th).state ≠ .finished := fun ended =>
    (sound.alive th ended).2 ((split th).mpr (.inl rfl))
  have counted : Counted ({ { s with dynamicThreads := s.dynamicThreads.dropLast } with
      dynamicThreads := s.dynamicThreads }.holds parked)
      { s with dynamicThreads := s.dynamicThreads.dropLast } := sound.counted.congr rfl rfl
  obtain ⟨s', ran, countedAfter, same, priorities⟩ := counted.begin split absent unfinished
  have last : s.dynamicThreads.getLast? = some th := by
    rw [← parts]
    simp
  have dynamic : s'.dynamicThreads = s.dynamicThreads.dropLast := same.dynamicThreads
  have fewer : ∀ th ∈ s'.dynamicThreads, th ∈ s.dynamicThreads := by
    intro u member
    rw [dynamic] at member
    exact (split u).mpr (.inr member)
  refine ⟨th, s', by rw [createThread, last]; simp only [ran, Option.map_some], ?_,
    ⟨same.thread, same.timedThreads, fewer, same.finished, priorities⟩⟩
  rw [← dynamic] at countedAfter
  apply sound.setDynamic same.toKept countedAfter nodup.1
  intro u member
  have before := (split u).mpr (.inr member)
  exact ⟨fun ended => (sound.alive u ended).2 before, sound.begun u before⟩

/-- All threads begin that have not been created. -/
theorem Sound.createAll (sound : s.Sound parked) :
    ∃ s', s.dynamicThreads.reverse.foldlM unblockThread { s with dynamicThreads := [] } = some s' ∧
      s'.Sound parked ∧ s'.dynamicThreads = [] ∧ Begun s s' := by
  have nodup : s.dynamicThreads.reverse.Nodup := List.nodup_reverse.mpr sound.dynamicNodup
  obtain ⟨s', ran, countedAfter, same, priorities⟩ := exists_foldlM
    unblockThread s.dynamicThreads.reverse
    (fun done s' => Counted ({ s' with
        dynamicThreads := s.dynamicThreads.reverse.drop done.length }.holds parked) s' ∧
      Same { s with dynamicThreads := [] } s' ∧
      ∀ y, (s'.threads y).yieldPriority = (s.threads y).yieldPriority)
    (s := { s with dynamicThreads := [] }) ⟨by
      have sameHolds :
          ({ s with dynamicThreads := s.dynamicThreads.reverse }.holds parked : Holds n)
          = s.holds parked := by
        ext u
        simp [holds]
      simp only [List.length_nil, List.drop_zero]
      rw [sameHolds]
      exact sound.counted.congr rfl rfl, .refl _, fun _ => rfl⟩ (by
      intro done th rest s' parts inv
      obtain ⟨counted', same', priorities'⟩ := inv
      have remaining : s.dynamicThreads.reverse.drop done.length = th :: rest := by
        rw [parts, List.drop_left]
      have after : s.dynamicThreads.reverse.drop (done ++ [th]).length = rest := by
        rw [parts, List.length_append, ← List.drop_drop, List.drop_left]
        rfl
      rw [parts, List.nodup_append] at nodup
      have absent : th ∉ rest := (List.nodup_cons.mp nodup.2.1).1
      have member : th ∈ s.dynamicThreads := by
        rw [← List.mem_reverse, parts]
        simp
      have unfinished : (s'.threads th).state ≠ .finished := fun ended =>
        (sound.alive th ((same'.finished th).mp ended)).2 member
      rw [remaining] at counted'
      obtain ⟨next, ran, countedNext, sameNext, prioritiesNext⟩ :=
        counted'.begin (by simp) absent unfinished
      refine ⟨next, ran, ?_, same'.trans sameNext, fun y => ?_⟩
      · rw [after]
        exact countedNext
      · rw [prioritiesNext, priorities'])
  have dynamic : s'.dynamicThreads = [] := same.dynamicThreads
  refine ⟨s', ran, ?_, dynamic,
    ⟨same.thread, same.timedThreads, by simp [dynamic], same.finished, priorities⟩⟩
  rw [List.drop_length, ← dynamic] at countedAfter
  exact sound.setDynamic same.toKept countedAfter List.nodup_nil (by simp)

/-- Whether nothing but a yield keeps the other threads from going on, and no timeout is
left. -/
def OthersHeld (s : Scheduler n) (parked : Finset (Fin n)) : Prop :=
  (∀ th, th ≠ s.thread → 0 < s.holds parked th) ∧ s.timedThreads = []

/-- The current thread parks. -/
theorem Sound.park (sound : s.Sound parked) (running : (s.threads s.thread).state = .running)
    (isTimed allowSpuriousWakeup : Bool) :
    ∃ alive s', s.parkCurrentThread isTimed allowSpuriousWakeup = some (alive, s') ∧
      s'.Sound (insert s.thread parked) ∧ s'.thread = s.thread ∧
      (alive = false ↔ s.OthersHeld parked ∧ isTimed = false) ∧
      s'.timedThreads = (if isTimed then s.timedThreads ++ [s.thread] else s.timedThreads) ∧
      s'.dynamicThreads = s.dynamicThreads ∧
      (∀ th, (s'.threads th).state = .finished ↔ (s.threads th).state = .finished) ∧
      s'.waits s.thread = ∅ ∧
      ((∀ y, (s'.threads y).yieldPriority = 0) ∧ s.Alone ∨
        ∀ y, (s'.threads y).yieldPriority =
          if y = s.thread then 0 else (s.threads y).yieldPriority) := by
  obtain ⟨held, nobody⟩ := sound.free_iff.mp running
  have absent : s.thread ∉ parked := by
    intro member
    simp only [holds, member, if_true] at held
    split_ifs at held <;> omega
  have unfinished : (s.threads s.thread).state ≠ .finished := by
    simp [running]
  -- the lists of the parked threads
  generalize timedIs : (if isTimed then s.timedThreads ++ [s.thread] else s.timedThreads) = timed
  generalize spuriousIs :
    (if allowSpuriousWakeup then s.spuriousThreads ++ [s.thread] else s.spuriousThreads) = spurious
  have extended : ∀ {threads extended : List (Fin n)} {flag : Bool}, threads.Nodup →
      (∀ th ∈ threads, th ∈ parked) → (if flag then threads ++ [s.thread] else threads) = extended →
      extended.Nodup ∧ ∀ th ∈ extended, th ∈ insert s.thread parked := by
    rintro threads extended (_ | _) nodup inside rfl
    · exact ⟨nodup, fun th member => Finset.mem_insert_of_mem (inside th member)⟩
    · refine ⟨?_, fun th member => ?_⟩
      · rw [if_pos rfl, ← List.concat_eq_append]
        exact nodup.concat fun member => absent (inside _ member)
      · rcases List.mem_append.mp member with earlier | last
        · exact Finset.mem_insert_of_mem (inside th earlier)
        · rw [List.mem_singleton.mp last]
          exact Finset.mem_insert_self _ _
  obtain ⟨timedNodup, timedInside⟩ := extended sound.timedNodup sound.timed timedIs
  obtain ⟨spuriousNodup, spuriousInside⟩ := extended sound.spuriousNodup sound.spurious spuriousIs
  have short : ∀ {threads : List (Fin n)}, threads.Nodup → ¬ n < threads.length := by
    intro threads nodup
    have bound := nodup.length_le_card
    rw [Fintype.card_fin] at bound
    omega
  -- the thread is blocked
  have counted : Counted (s.holds parked)
      { s with timedThreads := timed, spuriousThreads := spurious } :=
    sound.counted.congr rfl rfl
  have also : (s.holds parked).also s.thread = s.holds (insert s.thread parked) := by
    ext u
    rw [Holds.also_apply]
    by_cases isOwn : u = s.thread
    · subst isOwn
      simp only [holds, absent, if_true, if_false, Finset.mem_insert_self]
      omega
    · simp [holds, isOwn]
  have positive := holds_nonneg s (insert s.thread parked)
  obtain ⟨blocked, ranBlock, countedBlock, sameBlock, prioritiesBlock⟩ :=
    counted.block (by rwa [also]) unfinished
  rw [also] at countedBlock
  obtain ⟨dead, s', ranDead, countedAfter, sameAfter, verdict, priorities⟩ :=
    countedBlock.isDeadlock positive
  have thread : s'.thread = s.thread := sameAfter.thread.trans sameBlock.thread
  have timedAfter : s'.timedThreads = timed := sameAfter.timedThreads.trans sameBlock.timedThreads
  have spuriousAfter : s'.spuriousThreads = spurious :=
    sameAfter.spuriousThreads.trans sameBlock.spuriousThreads
  have dynamicAfter : s'.dynamicThreads = s.dynamicThreads :=
    sameAfter.dynamicThreads.trans sameBlock.dynamicThreads
  have finished : ∀ th, (s'.threads th).state = .finished ↔ (s.threads th).state = .finished :=
    fun th => (sameAfter.finished th).trans (sameBlock.finished th)
  have rows : (∀ y, (s'.threads y).yieldPriority = 0) ∧ s.Alone ∨
      ∀ y, (s'.threads y).yieldPriority =
        if y = s.thread then 0 else (s.threads y).yieldPriority := by
    rcases priorities with ⟨calm, idle, _⟩ | ⟨rfl, _⟩
    · refine .inl ⟨calm, fun th other running => ?_⟩
      have runs := sound.counted.runs_on countedBlock (holds_nonneg s parked th)
        (by rw [← also, Holds.also_apply, if_neg other]) (fun y zero => by
          rw [prioritiesBlock]
          split_ifs
          · rfl
          · exact zero) running
      rw [← countedBlock.running, idle] at runs
      exact List.not_mem_nil runs
    · refine .inr fun y => ?_
      rw [prioritiesBlock]
      simp [running]
  refine ⟨!dead, s', ?_, ⟨?_, ?_, ?_, ?_, ?_, ?_, ?_, ?_, ?_⟩, thread, ?_, timedAfter, dynamicAfter,
    finished, ?_, rows⟩
  · simp only [parkCurrentThread, timedIs, spuriousIs, short timedNodup, short spuriousNodup,
      or_self, if_false, ranBlock, ranDead, bind, Option.bind]
  · have sameHolds : s'.holds (insert s.thread parked) = s.holds (insert s.thread parked) := by
      ext u
      simp only [holds, dynamicAfter, finished]
    rwa [sameHolds]
  · rwa [timedAfter]
  · rwa [spuriousAfter]
  · rw [dynamicAfter]
    exact sound.dynamicNodup
  · rwa [timedAfter]
  · rwa [spuriousAfter]
  · intro th ended
    have before := sound.alive th ((finished th).mp ended)
    rw [dynamicAfter, Finset.mem_insert]
    refine ⟨?_, before.2⟩
    rintro (rfl | member)
    · exact unfinished ((finished _).mp ended)
    · exact before.1 member
  · intro th unborn member
    rw [dynamicAfter] at unborn
    rcases Finset.mem_insert.mp member with rfl | member
    · simp only [holds, unborn, if_true] at held
      split_ifs at held
      omega
    · exact sound.begun th unborn member
  · rw [sameAfter.finishedThreadCount, sameBlock.finishedThreadCount]
    simp only [finished]
    exact sound.finishedThreadCount
  · rw [Bool.not_eq_false', verdict, sameBlock.timedThreads]
    have others : (∀ th, 0 < s.holds (insert s.thread parked) th) ↔
        ∀ th, th ≠ s.thread → 0 < s.holds parked th := by
      rw [← also]
      constructor
      · intro all th other
        have one := all th
        rwa [Holds.also_apply, if_neg other] at one
      · intro all th
        rw [Holds.also_apply]
        by_cases isOwn : th = s.thread
        · rw [if_pos isOwn, isOwn, held]
          omega
        · rw [if_neg isOwn]
          exact all th isOwn
    rw [others, OthersHeld, ← timedIs]
    cases isTimed with
    | false => simp
    | true => simp
  · rw [← Finset.subset_empty, ← nobody]
    intro y member
    simp only [waits, Finset.mem_filter, Finset.mem_univ, true_and] at member ⊢
    rcases rows with ⟨calm, _⟩ | rows
    · simp [calm] at member
    · rw [rows] at member
      split_ifs at member with isOwn
      · simp at member
      · exact member

/-- A thread whose end the others can go on after. -/
structure Passes (s : Scheduler n) (parked : Finset (Fin n)) (s' : Scheduler n) : Prop where
  sound : s'.Sound parked
  thread : s'.thread = s.thread
  timedThreads : s'.timedThreads = s.timedThreads
  dynamicThreads : ∀ th ∈ s'.dynamicThreads, th ∈ s.dynamicThreads
  finished : ∀ th, (s'.threads th).state = .finished ↔
    (s.threads th).state = .finished ∨ th = s.thread
  rows : (∀ y, (s'.threads y).yieldPriority = 0) ∧ s.Alone ∧ s'.timedThreads = [] ∧
      s'.runningThreads ≠ [] ∨
    (∀ y, (s'.threads y).yieldPriority =
      if y = s.thread then 0 else (s.threads y).yieldPriority) ∧
      s'.dynamicThreads = s.dynamicThreads ∧ (s'.runningThreads ≠ [] ∨ s'.timedThreads ≠ [])

/-- The current thread as `thread_finished` leaves it, before it looks for a deadlock. -/
theorem Sound.ends (sound : s.Sound parked) (running : (s.threads s.thread).state = .running) :
    ∃ s', s.threadFinished = finishResult 2 s' ∧ s'.Sound parked ∧ s'.thread = s.thread ∧
      s'.timedThreads = s.timedThreads ∧ s'.dynamicThreads = s.dynamicThreads ∧
      (∀ th, (s'.threads th).state = .finished ↔
        (s.threads th).state = .finished ∨ th = s.thread) ∧
      ∀ y, (s'.threads y).yieldPriority =
        if y = s.thread then 0 else (s.threads y).yieldPriority := by
  obtain ⟨held, nobody⟩ := sound.free_iff.mp running
  have unfinished : (s.threads s.thread).state ≠ .finished := by
    simp [running]
  have positive : 0 ≤ (s.holds parked).also s.thread := by
    intro u
    have before := holds_nonneg s parked u
    rw [Holds.also_apply]
    simp only [Pi.zero_apply] at before ⊢
    split_ifs <;> omega
  obtain ⟨b, ran, counted, same, priorities⟩ := sound.counted.block positive unfinished
  have alone : b.waits b.thread = ∅ := by
    rw [← Finset.subset_empty, ← nobody, same.thread]
    intro y member
    simp only [waits, Finset.mem_filter, Finset.mem_univ, true_and, priorities] at member ⊢
    split_ifs at member with isOwn
    · simp at member
    · exact member
  have rows : ∀ y, ((b.setThread b.thread { b.threads b.thread with
      state := .finished }).threads y).yieldPriority =
        if y = s.thread then 0 else (s.threads y).yieldPriority := by
    intro y
    rw [same.thread]
    by_cases isOwn : y = s.thread
    · simp [isOwn, priorities, running]
    · simp [isOwn, priorities]
  have finished : ∀ th, ((b.setThread b.thread { b.threads b.thread with
      state := .finished }).threads th).state = .finished ↔
        (s.threads th).state = .finished ∨ th = s.thread := by
    intro th
    rw [same.thread]
    by_cases isOwn : th = s.thread
    · simp [isOwn]
    · simp [isOwn, same.finished]
  refine ⟨{ b.setThread b.thread { b.threads b.thread with state := .finished } with
      finishedThreadCount := b.finishedThreadCount + 1 }, ?_, ⟨?_, ?_, ?_, ?_, ?_, ?_, ?_, ?_, ?_⟩,
    same.thread, same.timedThreads, same.dynamicThreads, finished, rows⟩
  · simp [threadFinished, running, ran]
  · have sameHolds : ({ b.setThread b.thread { b.threads b.thread with state := .finished } with
        finishedThreadCount := b.finishedThreadCount + 1 }.holds parked : Holds n) =
          (s.holds parked).also s.thread := by
      ext u
      rw [Holds.also_apply]
      simp only [holds, finished]
      by_cases isOwn : u = s.thread
      · subst isOwn
        simp [unfinished, same.dynamicThreads]
      · simp [isOwn, same.dynamicThreads]
    rw [sameHolds]
    have blocked : (b.threads b.thread).state ≠ .running := by
      have count := counted.count b.thread
      rw [same.thread, Holds.also_apply, if_pos rfl, held] at count
      rw [same.thread, ne_eq, counted.free]
      omega
    have replaced : Counted ((s.holds parked).also s.thread)
        (b.setThread b.thread { b.threads b.thread with state := .finished }) := by
      apply counted.setThread fun _ _ => rfl
      · rfl
      · rfl
      · exact counted.count b.thread
      · have free := counted.free b.thread
        simp only [reduceCtorEq, false_iff]
        exact fun zero => blocked (free.mpr zero)
      · exact fun _ => alone
      · exact counted.nodup
      · intro u
        by_cases isOwn : u = b.thread
        · simp [isOwn, counted.running, blocked]
        · simp [isOwn]
    exact ⟨replaced.count, replaced.running, replaced.free, replaced.nodup, replaced.total,
      replaced.own, replaced.finished⟩
  · have nodup := sound.timedNodup
    rw [← same.timedThreads] at nodup
    exact nodup
  · have nodup := sound.spuriousNodup
    rw [← same.spuriousThreads] at nodup
    exact nodup
  · have nodup := sound.dynamicNodup
    rw [← same.dynamicThreads] at nodup
    exact nodup
  · have inside := sound.timed
    rw [← same.timedThreads] at inside
    exact inside
  · have inside := sound.spurious
    rw [← same.spuriousThreads] at inside
    exact inside
  · intro th ended
    have alive := sound.alive th
    rw [← same.dynamicThreads] at alive
    rcases (finished th).mp ended with before | rfl
    · exact alive before
    · -- what runs is not held
      simp only [holds] at held
      constructor
      · intro member
        rw [if_pos member] at held
        split_ifs at held <;> omega
      · intro member
        have member : s.thread ∈ b.dynamicThreads := member
        rw [same.dynamicThreads] at member
        rw [if_pos member] at held
        split_ifs at held <;> omega
  · have begun := sound.begun
    rw [← same.dynamicThreads] at begun
    exact begun
  · have grown : (Finset.univ.filter fun th => ((b.setThread b.thread { b.threads b.thread with
        state := .finished }).threads th).state = .finished) =
          insert s.thread (Finset.univ.filter fun th => (s.threads th).state = .finished) := by
      ext th
      rw [Finset.mem_filter, finished]
      simp [or_comm]
    refine Eq.trans ?_ (congrArg Finset.card grown).symm
    rw [Finset.card_insert_of_notMem (by simp [running])]
    rw [← sound.finishedThreadCount, ← same.finishedThreadCount]

/-- The end of the current thread: it is the last one, or there is a deadlock, or the
others go on. -/
theorem Sound.finish (sound : s.Sound parked) (running : (s.threads s.thread).state = .running) :
    ∃ result s', s.threadFinished = some (result, s') ∧
      (result = .last ↔ ∀ th, th ≠ s.thread → (s.threads th).state = .finished) ∧
      (result = .deadlock ↔ (∃ th, th ≠ s.thread ∧ (s.threads th).state ≠ .finished) ∧
        s.OthersHeld parked ∧ s.dynamicThreads = []) ∧
      (result = .normal → s.Passes parked s') := by
  obtain ⟨e, same, sound', thread, timed, dynamic, finished, rows⟩ := sound.ends running
  have positive := holds_nonneg e parked
  -- who is held after the end of the thread
  have heldOthers : (∀ th, 0 < e.holds parked th) ↔
      ∀ th, th ≠ s.thread → 0 < s.holds parked th := by
    have holdsIs : ∀ th,
        e.holds parked th = s.holds parked th + if th = s.thread then 1 else 0 := by
      intro th
      by_cases isOwn : th = s.thread
      · subst isOwn
        simp [holds, dynamic, finished, running]
      · simp [holds, dynamic, finished, isOwn]
    have before := holds_nonneg s parked
    constructor
    · intro all th other
      have one := all th
      rwa [holdsIs, if_neg other, add_zero] at one
    · intro all th
      rw [holdsIs]
      by_cases isOwn : th = s.thread
      · have one := before th
        simp only [Pi.zero_apply] at one
        rw [if_pos isOwn]
        omega
      · rw [if_neg isOwn, add_zero]
        exact all th isOwn
  have alone : e.runningThreads = [] → s.Alone := by
    intro idle th other running
    have runs := sound.counted.runs_on sound'.counted (holds_nonneg s parked th) (by
      simp only [holds, dynamic, finished, other, or_false]) (fun y zero => by
        rw [rows]
        split_ifs
        · rfl
        · exact zero) running
    rw [← sound'.counted.running, idle] at runs
    exact List.not_mem_nil runs
  have allFinished : e.finishedThreadCount = n ↔
      ∀ th, th ≠ s.thread → (s.threads th).state = .finished := by
    have card : e.finishedThreadCount = n ↔ ∀ th, (e.threads th).state = .finished := by
      have full := Finset.card_eq_iff_eq_univ
        (Finset.univ.filter fun th => (e.threads th).state = .finished)
      rw [Fintype.card_fin] at full
      rw [sound'.finishedThreadCount, full, Finset.filter_eq_self]
      simp
    rw [card]
    constructor
    · intro all th other
      exact ((finished th).mp (all th)).resolve_right other
    · intro all th
      by_cases isOwn : th = s.thread
      · exact (finished th).mpr (.inr isOwn)
      · exact (finished th).mpr (.inl (all th isOwn))
  rw [same, finishResult]
  by_cases last : e.finishedThreadCount = n
  · have all := allFinished.mp last
    refine ⟨.last, e, by rw [if_pos last], by simpa using fun th other => all th other, ?_, by simp⟩
    simp only [reduceCtorEq, false_iff]
    rintro ⟨⟨th, other, alive⟩, _⟩
    exact alive (allFinished.mp last th other)
  · have notLast := fun all => last (allFinished.mpr all)
    have alive : ∃ th, th ≠ s.thread ∧ (s.threads th).state ≠ .finished := by
      by_contra none
      push Not at none
      exact notLast none
    obtain ⟨dead, d, ran, counted, sameDead, verdict, priorities⟩ :=
      sound'.counted.isDeadlock positive
    have soundDead := sound'.kept counted sameDead.toKept
    rw [heldOthers, timed] at verdict
    rw [if_neg last, ran]
    cases dead with
    | false =>
        refine ⟨.normal, d, rfl, by simpa using notLast, ?_, fun _ => ?_⟩
        · simp only [Bool.false_eq_true, false_iff] at verdict
          simp only [reduceCtorEq, false_iff]
          rintro ⟨_, held, _⟩
          exact verdict held
        · refine ⟨soundDead, sameDead.thread.trans thread, sameDead.timedThreads.trans timed,
            by simp [sameDead.dynamicThreads, dynamic],
            fun th => (sameDead.finished th).trans (finished th), ?_⟩
          rcases priorities with ⟨calm, idle, none⟩ | ⟨rfl, _, busy⟩
          · refine .inl ⟨calm, alone idle, sameDead.timedThreads.trans none, ?_⟩
            -- some thread is not held, and runs now
            by_contra idleAfter
            simp only [Bool.false_eq_true, false_iff, not_and] at verdict
            refine verdict (heldOthers.mp fun th => ?_) (timed.symm.trans none)
            have one := positive th
            have blocked : th ∉ d.runningThreads := by
              simp [idleAfter]
            rw [counted.running_iff calm] at blocked
            simp only [Pi.zero_apply] at one
            omega
          · exact .inr ⟨rows, dynamic, busy⟩
    | true =>
        have held := verdict.mp rfl
        by_cases none : d.dynamicThreads = []
        · refine ⟨.deadlock, d, by simp [none], by simpa using notLast, ?_, by simp⟩
          have noneBefore : s.dynamicThreads = [] := by
            rw [← dynamic, ← sameDead.dynamicThreads, none]
          simp only [true_iff]
          exact ⟨alive, held, noneBefore⟩
        · obtain ⟨c, ranCreate, soundCreate, emptied, begun⟩ := soundDead.createAll
          have calm : ∀ y, (c.threads y).yieldPriority = 0 := by
            intro y
            rw [begun.yieldPriority]
            rcases priorities with ⟨calm, _⟩ | ⟨_, alive, _⟩
            · exact calm y
            · cases alive
          -- the threads that have begun run
          have busy : c.runningThreads ≠ [] := by
            obtain ⟨th, member⟩ := List.exists_mem_of_ne_nil _ none
            have first : th ∈ c.runningThreads := by
              rw [soundCreate.counted.running_iff calm]
              have notParked := soundDead.begun th member
              have notFinished : (c.threads th).state ≠ .finished := fun ended =>
                (soundDead.alive th ((begun.finished th).mp ended)).2 member
              simp [holds, notParked, emptied, notFinished]
            exact List.ne_nil_of_mem first
          have notLastAfter : c.finishedThreadCount ≠ n := by
            rw [soundCreate.finishedThreadCount]
            simp only [begun.finished, sameDead.finished]
            rwa [← sound'.finishedThreadCount]
          refine ⟨.normal, c, ?_, by simpa using notLast, ?_, fun _ => ?_⟩
          · have some : d.dynamicThreads.isEmpty = false := by
              simpa using none
            simp only [Option.bind_eq_bind, Option.bind_some, some, ranCreate, finishResult,
              notLastAfter, Scheduler.isDeadlock, busy, false_and, Bool.false_eq_true, if_true,
              if_false]
          · simp only [reduceCtorEq, false_iff]
            rintro ⟨_, _, noneBefore⟩
            exact none (by rw [sameDead.dynamicThreads, dynamic, noneBefore])
          · refine ⟨soundCreate, begun.thread.trans (sameDead.thread.trans thread),
              begun.timedThreads.trans (sameDead.timedThreads.trans timed), by simp [emptied],
              fun th => (begun.finished th).trans ((sameDead.finished th).trans (finished th)),
              .inl ⟨calm, ?_, ?_, busy⟩⟩
            · rcases priorities with ⟨_, idle, _⟩ | ⟨_, alive, _⟩
              · exact alone idle
              · cases alive
            · rw [begun.timedThreads, sameDead.timedThreads, timed]
              exact held.2

/-! ### The beginning of an iteration -/

/-- A thread that others create is put aside. -/
theorem Sound.putAside (sound : s.Sound ∅) (absent : th ∉ s.dynamicThreads)
    (unfinished : (s.threads th).state ≠ .finished) :
    ∃ s', s.putAside th = some s' ∧ s'.Sound ∅ ∧ s'.dynamicThreads = s.dynamicThreads ++ [th] ∧
      (∀ u, (s'.threads u).state = .finished ↔ (s.threads u).state = .finished) ∧
      ∀ y, (s.threads y).yieldPriority = 0 → (s'.threads y).yieldPriority = 0 := by
  have counted : Counted (s.holds ∅) { s with dynamicThreads := s.dynamicThreads ++ [th] } :=
    sound.counted.congr rfl rfl
  have also : (s.holds ∅).also th =
      ({ s with dynamicThreads := s.dynamicThreads ++ [th] }.holds ∅ : Holds n) := by
    ext u
    rw [Holds.also_apply]
    by_cases isOwn : u = th
    · subst isOwn
      simp [holds, absent, unfinished]
    · simp [holds, isOwn]
  obtain ⟨s', ran, countedAfter, same, priorities⟩ :=
    counted.block (by rw [also]; exact holds_nonneg _ _) unfinished
  have dynamic : s'.dynamicThreads = s.dynamicThreads ++ [th] := same.dynamicThreads
  have nodup : (s.dynamicThreads ++ [th]).Nodup := by
    rw [← List.concat_eq_append]
    exact sound.dynamicNodup.concat absent
  rw [also, ← holds_kept same.toKept] at countedAfter
  refine ⟨s', ran, sound.setDynamic same.toKept countedAfter nodup fun u member => ?_, dynamic,
    same.finished, fun y zero => ?_⟩
  · refine ⟨fun ended => ?_, Finset.notMem_empty u⟩
    rcases List.mem_append.mp member with earlier | last
    · exact (sound.alive u ended).2 earlier
    · rw [List.mem_singleton] at last
      subst last
      exact unfinished ended
  · rw [priorities, zero, ite_self]

/-- An iteration begins with a thread that nobody has to create. -/
theorem yields_iterationBegin {others : Nat} {totalDynamicThreads : Nat}
    (static : totalDynamicThreads ≤ others) {begun : Option (Scheduler (others + 1))}
    (yields : (iterationBegin totalDynamicThreads).Yields begun) :
    ∃ s, begun = some s ∧ s.Sound ∅ ∧ (s.threads s.thread).state = .running := by
  have nodup : ((List.finRange (others + 1)).drop (others + 1 - totalDynamicThreads)).Nodup :=
    (List.nodup_finRange _).sublist (List.drop_sublist _ _)
  obtain ⟨s, ran, sound, dynamic, calm, unfinished⟩ := exists_foldlM
    Scheduler.putAside ((List.finRange (others + 1)).drop (others + 1 - totalDynamicThreads))
    (fun done s => s.Sound ∅ ∧ s.dynamicThreads = done ∧ (∀ y, (s.threads y).yieldPriority = 0) ∧
      ∀ th, (s.threads th).state ≠ .finished)
    (s := ⟨fun _ => .reset, 0, List.finRange (others + 1), 0, [], [], []⟩) (by
      refine ⟨⟨⟨?_, ?_, ?_, List.nodup_finRange _, ?_, ?_, ?_⟩, ?_, ?_, ?_, ?_, ?_, ?_, ?_, ?_⟩,
        rfl, fun _ => rfl, ?_⟩ <;> simp [SchedulerThread.reset, holds, waits]) (by
      intro done th rest s parts inv
      obtain ⟨sound, dynamic, calm, unfinished⟩ := inv
      rw [parts, List.nodup_append] at nodup
      have absent : th ∉ s.dynamicThreads := by
        rw [dynamic]
        exact fun member => nodup.2.2 th member th (List.mem_cons_self ..) rfl
      obtain ⟨s', ran, soundAfter, dynamicAfter, finished, zero⟩ :=
        sound.putAside absent (unfinished th)
      refine ⟨s', ran, soundAfter, by rw [dynamicAfter, dynamic], fun y => zero y (calm y),
        fun u => ?_⟩
      rw [ne_eq, finished]
      exact unfinished u)
  -- the first thread runs
  have first : (0 : Fin (others + 1)) ∈ s.runningThreads := by
    rw [sound.counted.running_iff calm]
    have absent : (0 : Fin (others + 1)) ∉
        (List.finRange (others + 1)).drop (others + 1 - totalDynamicThreads) := by
      intro member
      obtain ⟨i, found⟩ := List.mem_iff_getElem?.mp member
      rw [List.getElem?_drop] at found
      obtain ⟨inside, same⟩ := List.getElem?_eq_some_iff.mp found
      rw [List.getElem_finRange] at same
      have zero := congrArg Fin.val same
      simp at zero
      omega
    simp [holds, dynamic, absent, unfinished]
  simp only [iterationBegin, ran, Tree.yields_bind, Tree.yields_done,
    yields_randThread (List.ne_nil_of_mem first)] at yields
  obtain ⟨_, ⟨th, member, rfl⟩, rfl⟩ := yields
  exact ⟨{ s with thread := th }, rfl, sound.switch th, (sound.counted.running th).mp member⟩

end Scheduler

end LockFree.Relacy
