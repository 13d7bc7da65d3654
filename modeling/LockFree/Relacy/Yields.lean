import LockFree.Relacy.Calls

/-!
# Yields

A thread that yields waits for the other threads: `yield_priority_` holds for how many
rounds. What a call does to these rounds is said for one step, and from it for runs: a
thread that yields gives way to the others, and it goes on when they have had their rounds.
-/

namespace LockFree.Relacy

namespace Driver

open Search Scheduler

variable {n : Nat} {s : Scheduler n} {parked : Finset (Fin n)} {yield : Nat}

/-- The thread that makes the call yields, parks or finishes. -/
def blocks : Call n → Bool
  | .sched yield => yield ≠ 0
  | .park .. | .finish => true
  | .unpark _ | .create => false

/-- The thread passes a scheduling point. -/
def Event.Passes (event : Event n) (y : Fin n) : Prop :=
  event.caller = y ∧ event.call = .sched 0

instance (event : Event n) (y : Fin n) : Decidable (event.Passes y) :=
  inferInstanceAs (Decidable (_ ∧ _))

/-- If the call blocks a thread, that is not this one, and another one runs. -/
def Event.LeavesOne (event : Event n) (d : Driver n) (y : Fin n) : Prop :=
  blocks event.call = true → event.caller ≠ y ∧ ¬ d.scheduler.Alone

instance (event : Event n) (d : Driver n) (y : Fin n) : Decidable (event.LeavesOne d y) :=
  inferInstanceAs (Decidable (_ → _ ∧ ¬ _))

/-- A thread that waits for another one waits on, unless that one passes a scheduling
point or blocks, or the last thread that runs blocks. -/
theorem Sound.waits_on {d d' : Driver n} (sound : d.Sound) {event : Event n}
    (step : (calls n).Step d event d') (onward : d'.ended = false) (y th : Fin n) :
    (d.scheduler.threads y).yieldPriority th ≤
        (d'.scheduler.threads y).yieldPriority th + (if event.Passes y then 1 else 0) ∨
      blocks event.call = true ∧ (event.caller = y ∨ d.scheduler.Alone) := by
  obtain ⟨_, caller, tree, performed, yields⟩ := step_iff.mp step
  obtain ⟨caller', call, outcome⟩ := event
  subst caller
  -- the rows of the threads that do not make the call
  have others : ∀ {s s' : Scheduler n} {yield : Nat}, s.thread = d.scheduler.thread →
      s.waits s.thread = ∅ → y ≠ d.scheduler.thread → Yielded s yield s' →
      (s.Alone ∧ yield ≠ 0) ∨
        (s.threads y).yieldPriority th ≤ (s'.threads y).yieldPriority th := by
    intro s s' yield thread nobody other yielded
    rcases yielded.others with ⟨_, alone, some⟩ | ⟨_, rows⟩
    · exact .inl ⟨alone, some⟩
    · right
      rw [rows y th (by rwa [thread])]
      split_ifs with both
      · have none : (s.threads y).yieldPriority th = 0 := by
          by_contra some
          have member := waits_of_priority some
          rw [both.1, nobody] at member
          simp at member
        omega
      · exact Nat.le_refl _
  -- whoever runs now has run before the current thread was blocked
  have before : ∀ {s : Scheduler n} {holds' : Holds n}, s.thread = d.scheduler.thread →
      Counted holds' s → (∀ y, (s.threads y).yieldPriority =
        if y = d.scheduler.thread then 0 else (d.scheduler.threads y).yieldPriority) →
      (∀ u, u ≠ d.scheduler.thread → holds' u = d.scheduler.holds d.parked u) → s.Alone →
      d.scheduler.Alone := by
    intro s holds' thread counted rows held alone u other running
    refine alone u (by rwa [thread]) ?_
    refine sound.scheduler.counted.runs_on counted (holds_nonneg _ _ u) (held u other)
      (fun z zero => ?_) running
    rw [rows]
    split_ifs
    · rfl
    · exact zero
  cases call with
  | sched yield =>
      obtain rfl := Option.some.inj performed
      obtain ⟨s', yielded, rows⟩ :=
        rows_of_resumed sound.scheduler (fun _ => sound.ready) yields onward
      rw [rows]
      by_cases isOwn : y = d.scheduler.thread
      · subst isOwn
        by_cases plain : yield = 0
        · left
          subst plain
          rw [yielded.plain rfl th, if_pos ⟨rfl, rfl⟩]
          omega
        · exact .inr ⟨by simp [blocks, plain], .inl rfl⟩
      · rcases others rfl sound.ready.2 isOwn yielded with ⟨alone, some⟩ | longer
        · exact .inr ⟨by simp [blocks, some], .inr alone⟩
        · exact .inl (Nat.le_add_right_of_le longer)
  | park isTimed allowSpurious =>
      by_cases isOwn : y = d.scheduler.thread
      · exact .inr ⟨rfl, .inl isOwn.symm⟩
      · obtain rfl := Option.some.inj performed
        obtain ⟨alive, s', ran, soundParked, thread, _, _, dynamic, finished, nobody, rowsParked⟩ :=
          sound.scheduler.park sound.current isTimed allowSpurious
        rw [ran] at yields
        cases alive with
        | false =>
            obtain ⟨_, rfl⟩ := Prod.mk.inj yields
            cases onward
        | true =>
            have yields : (resume (insert s'.thread d.parked) s' 1).Yields (outcome, d') := yields
            rw [thread] at yields
            obtain ⟨s'', yielded, rows⟩ := rows_of_resumed soundParked (fun _ => by
              rw [thread, ne_eq, finished]
              exact ⟨sound.ready.1, nobody⟩) yields onward
            rw [rows]
            rcases rowsParked with ⟨_, alone⟩ | rowsParked
            · exact .inr ⟨rfl, .inr alone⟩
            · rcases others thread (by rwa [thread]) isOwn yielded with ⟨alone, _⟩ | longer
              · refine .inr ⟨rfl, .inr (before thread soundParked.counted rowsParked ?_ alone)⟩
                intro u other
                simp only [holds, Finset.mem_insert, other, false_or, dynamic, finished]
              · rw [rowsParked, if_neg isOwn] at longer
                exact .inl (Nat.le_add_right_of_le longer)
  | unpark u =>
      simp only [perform] at performed
      split_ifs at performed with member
      obtain rfl := Option.some.inj performed
      obtain ⟨s', ran, _, _, _, _, _, priorities⟩ := sound.scheduler.unpark member
      rw [ran] at yields
      obtain ⟨_, rfl⟩ := Prod.mk.inj yields
      left
      simp [priorities]
  | create =>
      obtain ⟨s', rfl, _, begun⟩ := sound.created performed yields onward
      left
      simp [begun.yieldPriority]
  | finish =>
      by_cases isOwn : y = d.scheduler.thread
      · exact .inr ⟨rfl, .inl isOwn.symm⟩
      · obtain rfl := Option.some.inj performed
        obtain ⟨result, s', ran, _, _, passes⟩ := sound.scheduler.finish sound.current
        rw [ran] at yields
        cases result with
        | last | deadlock =>
            obtain ⟨_, rfl⟩ := Prod.mk.inj yields
            cases onward
        | normal =>
            have after := passes rfl
            have thread := after.thread
            have ended : (s'.threads s'.thread).state = .finished := by
              rw [thread, after.finished]
              exact .inr rfl
            obtain ⟨s'', yielded, rows⟩ := rows_of_resumed after.sound
              (fun (some : (0 : Nat) ≠ 0) => absurd rfl some) yields onward
            rw [rows]
            rcases after.rows with ⟨_, alone, _⟩ | ⟨rowsFinished, dynamic, _⟩
            · exact .inr ⟨rfl, .inr alone⟩
            · rcases others thread (after.sound.counted.finished _ ended) isOwn yielded with
                ⟨alone, _⟩ | longer
              · refine .inr ⟨rfl, .inr (before thread after.sound.counted rowsFinished ?_ alone)⟩
                intro u other
                simp only [holds, dynamic, after.finished, other, or_false]
              · rw [rowsFinished, if_neg isOwn] at longer
                exact .inl (Nat.le_add_right_of_le longer)

/-- A choice creates no thread. -/
theorem dynamicThreads_of_picks (sound : s.Sound parked) {th : Fin n} {reason : UnparkReason}
    {s' : Scheduler n} (picks : s.Picks th reason s') : s'.dynamicThreads = s.dynamicThreads := by
  have unparks : th ∈ parked → s.unparkThread th = some s' →
      s'.dynamicThreads = s.dynamicThreads := by
    intro member ran
    obtain ⟨_, ran', _, _, dynamic, _⟩ := sound.unpark member
    obtain rfl := Option.some.inj (ran.symm.trans ran')
    exact dynamic
  cases reason with
  | normal => rw [picks.2]
  | timeout => exact unparks (sound.timed th picks.1) picks.2.2
  | spurious => exact unparks (sound.spurious th picks.2.1) picks.2.2.2

/-- What a thread that is not held needs to be held no more than before. -/
theorem Held.mono {d d' : Driver n} {th : Fin n} (held : d'.Held th)
    (parked : th ∈ d'.parked → th ∈ d.parked)
    (dynamic : th ∈ d'.scheduler.dynamicThreads → th ∈ d.scheduler.dynamicThreads)
    (finished : (d'.scheduler.threads th).state = .finished →
      (d.scheduler.threads th).state = .finished) : d.Held th := by
  rcases held with isParked | unborn | ended
  · exact .inl (parked isParked)
  · exact .inr (.inl (dynamic unborn))
  · exact .inr (.inr (finished ended))

/-- The thread that goes on next finds no other one held that was not. -/
theorem held_of_resumed (sound : s.Sound parked)
    (ready : yield ≠ 0 → (s.threads s.thread).state ≠ .finished ∧ s.waits s.thread = ∅)
    {outcome : Outcome n} {d' : Driver n} (yields : (resume parked s yield).Yields (outcome, d'))
    (onward : d'.ended = false) {th : Fin n} (held : d'.Held th) :
    (⟨s, parked, false⟩ : Driver n).Held th := by
  obtain ⟨s', soundAfter, kept, _, outcomes⟩ := yields_resume sound ready
  rcases (outcomes outcome d').mp yields with ⟨_, _, _, rfl⟩ | ⟨u, reason, s'', picks, _, rfl⟩
  · cases onward
  · apply held.mono
    · exact Finset.mem_of_mem_erase
    · simp [dynamicThreads_of_picks soundAfter picks, kept.dynamicThreads]
    · intro ended
      exact (kept.finished th).mp (((soundAfter.picks picks).2.2.1 th).mp ended)

/-- A thread is held only by what it does itself: by parking or by its end. -/
theorem Sound.held_of_step {d d' : Driver n} (sound : d.Sound) {event : Event n}
    (step : (calls n).Step d event d') (onward : d'.ended = false) {th : Fin n}
    (passive : event.caller ≠ th ∨ ∃ yield, event.call = .sched yield) (held : d'.Held th) :
    d.Held th := by
  obtain ⟨_, caller, tree, performed, yields⟩ := step_iff.mp step
  obtain ⟨caller', call, outcome⟩ := event
  subst caller
  cases call with
  | sched yield =>
      obtain rfl := Option.some.inj performed
      exact (held_of_resumed sound.scheduler (fun _ => sound.ready) yields onward held).mono
        id id id
  | park isTimed allowSpurious =>
      have other : d.scheduler.thread ≠ th := passive.resolve_right (by simp)
      obtain rfl := Option.some.inj performed
      obtain ⟨alive, s', ran, soundParked, thread, _, _, dynamic, finished, nobody, _⟩ :=
        sound.scheduler.park sound.current isTimed allowSpurious
      rw [ran] at yields
      cases alive with
      | false =>
          obtain ⟨_, rfl⟩ := Prod.mk.inj yields
          cases onward
      | true =>
          have yields : (resume (insert s'.thread d.parked) s' 1).Yields (outcome, d') := yields
          rw [thread] at yields
          have before := held_of_resumed soundParked (fun _ => by
            rw [thread, ne_eq, finished]
            exact ⟨sound.ready.1, nobody⟩) yields onward held
          apply before.mono
          · simp [other.symm]
          · simp [dynamic]
          · exact (finished th).mp
  | unpark u =>
      simp only [perform] at performed
      split_ifs at performed with member
      obtain rfl := Option.some.inj performed
      obtain ⟨s', ran, _, _, dynamic, _, finished, _⟩ := sound.scheduler.unpark member
      rw [ran] at yields
      obtain ⟨_, rfl⟩ := Prod.mk.inj yields
      apply held.mono
      · exact Finset.mem_of_mem_erase
      · simp [dynamic]
      · exact (finished th).mp
  | create =>
      obtain ⟨s', rfl, _, begun⟩ := sound.created performed yields onward
      apply held.mono
      · exact id
      · exact begun.dynamicThreads th
      · exact (begun.finished th).mp
  | finish =>
      have other : d.scheduler.thread ≠ th := passive.resolve_right (by simp)
      obtain rfl := Option.some.inj performed
      obtain ⟨result, s', ran, _, _, passes⟩ := sound.scheduler.finish sound.current
      rw [ran] at yields
      cases result with
      | last | deadlock =>
          obtain ⟨_, rfl⟩ := Prod.mk.inj yields
          cases onward
      | normal =>
          have after := passes rfl
          have before :=
            held_of_resumed after.sound (fun some => absurd rfl some) yields onward held
          apply before.mono
          · exact id
          · exact after.dynamicThreads th
          · intro ended
            exact ((after.finished th).mp ended).resolve_right other.symm

/-- Nobody waits longer for another thread before the next one is chosen, but the thread
that yields. -/
theorem priority_le_of_yielded {s' : Scheduler n} (yielded : s.Yielded yield s') {th : Fin n}
    (other : s.thread ≠ th) (y : Fin n) :
    (s'.threads y).yieldPriority th ≤ (s.threads y).yieldPriority th := by
  by_cases isOwn : y = s.thread
  · subst isOwn
    exact yielded.shorter th
  · rcases yielded.others with ⟨calm, _⟩ | ⟨_, rows⟩
    · simp [calm]
    · rw [rows y th isOwn, if_neg fun both => other both.1.symm]

/-- A thread that does not make the call waits no longer than before, and one round less
for a thread that passes a scheduling point. -/
theorem Sound.waits_less {d d' : Driver n} (sound : d.Sound) {event : Event n}
    (step : (calls n).Step d event d') (onward : d'.ended = false) {th : Fin n}
    (other : event.caller ≠ th) (y : Fin n) :
    (d'.scheduler.threads y).yieldPriority th ≤
      (d.scheduler.threads y).yieldPriority th - (if event.Passes y then 1 else 0) := by
  obtain ⟨_, caller, tree, performed, yields⟩ := step_iff.mp step
  obtain ⟨caller', call, outcome⟩ := event
  subst caller
  -- the end of a thread and parking give up waits for it
  have fewer : ∀ {s : Scheduler n}, ((∀ y, (s.threads y).yieldPriority = 0) ∨
      ∀ y, (s.threads y).yieldPriority =
        if y = d.scheduler.thread then 0 else (d.scheduler.threads y).yieldPriority) →
      (s.threads y).yieldPriority th ≤ (d.scheduler.threads y).yieldPriority th := by
    rintro s (calm | rows)
    · simp [calm]
    · rw [rows]
      split_ifs
      · exact Nat.zero_le _
      · exact Nat.le_refl _
  cases call with
  | sched yield =>
      obtain rfl := Option.some.inj performed
      obtain ⟨s', yielded, rows⟩ :=
        rows_of_resumed sound.scheduler (fun _ => sound.ready) yields onward
      rw [rows]
      split_ifs with passes
      · obtain ⟨rfl, same⟩ := passes
        cases same
        exact (yielded.plain rfl th).le
      · exact priority_le_of_yielded yielded other y
  | park isTimed allowSpurious =>
      rw [if_neg fun passes => by cases passes.2]
      obtain rfl := Option.some.inj performed
      obtain ⟨alive, s', ran, soundParked, thread, _, _, dynamic, finished, nobody, rowsParked⟩ :=
        sound.scheduler.park sound.current isTimed allowSpurious
      rw [ran] at yields
      cases alive with
      | false =>
          obtain ⟨_, rfl⟩ := Prod.mk.inj yields
          cases onward
      | true =>
          have yields : (resume (insert s'.thread d.parked) s' 1).Yields (outcome, d') := yields
          rw [thread] at yields
          obtain ⟨s'', yielded, rows⟩ := rows_of_resumed soundParked (fun _ => by
            rw [thread, ne_eq, finished]
            exact ⟨sound.ready.1, nobody⟩) yields onward
          rw [rows]
          apply (priority_le_of_yielded yielded (by rwa [thread]) y).trans
          exact fewer (rowsParked.imp_left And.left)
  | unpark u =>
      rw [if_neg fun passes => by cases passes.2]
      simp only [perform] at performed
      split_ifs at performed with member
      obtain rfl := Option.some.inj performed
      obtain ⟨s', ran, _, _, _, _, _, priorities⟩ := sound.scheduler.unpark member
      rw [ran] at yields
      obtain ⟨_, rfl⟩ := Prod.mk.inj yields
      simp [priorities]
  | create =>
      rw [if_neg fun passes => by cases passes.2]
      obtain ⟨s', rfl, _, begun⟩ := sound.created performed yields onward
      simp [begun.yieldPriority]
  | finish =>
      rw [if_neg fun passes => by cases passes.2]
      obtain rfl := Option.some.inj performed
      obtain ⟨result, s', ran, _, _, passes⟩ := sound.scheduler.finish sound.current
      rw [ran] at yields
      cases result with
      | last | deadlock =>
          obtain ⟨_, rfl⟩ := Prod.mk.inj yields
          cases onward
      | normal =>
          have after := passes rfl
          obtain ⟨s'', yielded, rows⟩ := rows_of_resumed after.sound
            (fun (some : (0 : Nat) ≠ 0) => absurd rfl some) yields onward
          rw [rows]
          apply (priority_le_of_yielded yielded (by rwa [after.thread]) y).trans
          exact fewer (after.rows.imp And.left And.left)

section Runs

variable {others totalDynamicThreads : Nat} {d₀ d : Driver (others + 1)}
  {events : List (Event (others + 1))}

/-- What a wait for another thread loses in a run is what that thread has passed of
scheduling points. -/
theorem priority_le_of_run (static : totalDynamicThreads ≤ others)
    (begins : Begins totalDynamicThreads d₀) (run : (calls (others + 1)).Steps d₀ events d)
    {y : Fin (others + 1)} {later : List (Event (others + 1))} {d' : Driver (others + 1)}
    (further : (calls (others + 1)).StepsWhere (fun between event => event.LeavesOne between y)
      d later d')
    (onward : d'.ended = false) (th : Fin (others + 1)) :
    d.ended = false ∧ (d.scheduler.threads y).yieldPriority th ≤
      (d'.scheduler.threads y).yieldPriority th + later.countP fun event => event.Passes y := by
  induction further with
  | refl => exact ⟨onward, by simp⟩
  | @step earlier between event after prior transition admitted inductionHypothesis =>
      obtain ⟨running, wait⟩ := inductionHypothesis (step_iff.mp transition).1
      have sound := sound_of_run static begins (run.trans prior.steps) (step_iff.mp transition).1
      refine ⟨running, ?_⟩
      rcases sound.waits_on transition onward y th with shorter | blocked
      · rw [List.countP_append, List.countP_singleton]
        simp only [decide_eq_true_eq]
        omega
      · exact absurd blocked.2 (not_or.mpr (admitted blocked.1))

/-- A thread that makes no call waits for fewer rounds the more scheduling points the
others pass, and nothing holds it. -/
theorem waits_less_of_run (static : totalDynamicThreads ≤ others)
    (begins : Begins totalDynamicThreads d₀) (run : (calls (others + 1)).Steps d₀ events d)
    {th : Fin (others + 1)} {later : List (Event (others + 1))} {d' : Driver (others + 1)}
    (further : (calls (others + 1)).StepsWhere (fun _ event => event.caller ≠ th) d later d')
    (onward : d'.ended = false) :
    d.ended = false ∧ (d'.Held th → d.Held th) ∧
      ∀ y, (d'.scheduler.threads y).yieldPriority th ≤
        (d.scheduler.threads y).yieldPriority th - later.countP fun event => event.Passes y := by
  induction further with
  | refl => exact ⟨onward, id, fun y => by simp⟩
  | @step earlier between event after prior transition admitted inductionHypothesis =>
      obtain ⟨running, held, waits⟩ := inductionHypothesis (step_iff.mp transition).1
      have sound := sound_of_run static begins (run.trans prior.steps) (step_iff.mp transition).1
      refine ⟨running, ?_, fun y => ?_⟩
      · intro after
        exact held (sound.held_of_step transition onward (.inl admitted) after)
      · have less := sound.waits_less transition onward admitted y
        have before := waits y
        rw [List.countP_append, List.countP_singleton]
        simp only [decide_eq_true_eq]
        omega

end Runs

end Driver

end LockFree.Relacy
