import LockFree.Aba.Fixed.Exceptions

/-!
# Progress of the reference-counted stack

A thread compares `head` with the value it last read. Only a successful
compare-exchange of another thread makes that value outdated, and a failure that
is not spurious brings it up to date. So the outdated threads pay for the
failures, and at most all other threads become outdated when one succeeds.

No run takes steps for ever without spurious failures: a call that takes effect
lowers the number of calls to come, a failure the number of outdated threads,
and any other step the work left at the positions of the threads.
-/

namespace LockFree.Aba.Fixed

open Memory Linearization

variable {Tid T : Type}

/-- The value of `head` a call has read last, while it still compares with it. -/
def Pc.seen (heap : Heap Addr (Option T)) : Pc T → Option (Option Addr)
  | .assign _ _ loaded => some loaded
  | .publish _ newNode => some (heap.next newNode)
  | .test oldHead => some oldHead
  | .exchange oldHead _ => some (some oldHead)
  | _ => none

/-- What thread `t` has seen of `head`. -/
def State.seen (s : State Tid T) (t : Tid) : Option (Option Addr) :=
  (s.threads t).pc.seen s.heap

/-- A successful compare-exchange. -/
def Event.succeeds : Event Tid T → Bool
  | .published _ _ | .unlinked _ _ => true
  | _ => false

/-- A read of `head` by a call: its load, or a failed compare-exchange. -/
def Event.reads (t : Tid) : Event Tid T → Prop
  | .loaded u _ | .exchangeFailed u _ => u = t
  | _ => False

/-- The number of failed compare-exchanges. -/
def failures (events : List (Event Tid T)) : Nat :=
  events.countP fun event => event matches .exchangeFailed _ _

/-- The number of compare-exchanges that failed spuriously. -/
def spuriousFailures (events : List (Event Tid T)) : Nat :=
  events.countP fun event => event matches .exchangeFailed _ true

/-- The value thread `t` has seen is the current one. -/
def UpToDate (s : State Tid T) (t : Tid) : Prop := ∀ value, s.seen t = some value → value = s.head

variable [DecidableEq Tid] [Fintype Tid] {s s' : State Tid T} {event : Event Tid T} {t u : Tid}
  {values values' : List T}

omit [Fintype Tid] in
/-- `head` changes by a successful compare-exchange only. -/
theorem Effect.head_eq (effect : Effect s event s') (fails : event.succeeds = false) :
    s'.head = s.head := by
  cases effect <;> first | rfl | cases fails

omit [DecidableEq Tid] in
/-- The other threads have seen what they had seen. -/
theorem Kept.seen (kept : Kept s t s' values') (other : u ≠ t) :
    s'.seen u = s.seen u := by
  unfold State.seen
  rw [kept.frame.others u other]
  cases pc : (s.threads u).pc with
  | publish data n =>
      rcases kept.frame.views u other n (by simp [Thread.refs, pc]) with same | ⟨_, same, _⟩
      · simp only [Pc.seen, Heap.next_eq_view, same]
      · simp only [Pc.seen, same]
  | _ => rfl

/-- A thread has seen nothing after its step, or the value `head` has then, or
what it had seen before. -/
theorem Effect.seen (effect : Effect s event s') (kept : Kept s event.thread s' values') :
    s'.seen event.thread = none ∨ s'.seen event.thread = some s'.head ∨
      s'.seen event.thread = s.seen event.thread ∧ event.succeeds = false := by
  cases effect with
  | @called t call =>
      cases call <;> exact .inl (by simp [State.seen, Event.thread, Pc.seen, Call.entry])
  | loadedPush | loadedPop => exact .inr (.inl (by simp [State.seen, Event.thread, Pc.seen]))
  | loadedScan =>
      rcases Option.eq_none_or_eq_some s.head with top | ⟨a, top⟩ <;>
        exact .inl (by simp [State.seen, Event.thread, Pc.seen, top])
  | @assigned t data n loaded content previous heap ready pc found views =>
      refine .inr (.inr ⟨?_, rfl⟩)
      simp [State.seen, Event.thread, Pc.seen, pc, Heap.next_eq_view, views]
  | @pushFailed t data n content expected heap spurious ready pc found views =>
      refine .inr (.inl ?_)
      simp [State.seen, Event.thread, Pc.seen, pc, Heap.next_eq_view, views]
  | readNext ready pc =>
      exact .inr (.inr ⟨by simp [State.seen, Event.thread, Pc.seen, pc], rfl⟩)
  | popFailed => exact .inr (.inl (by simp [State.seen, Event.thread, Pc.seen]))
  | @released t a rest destroyed heap waiting effect =>
      refine .inr (.inr ⟨?_, rfl⟩)
      simp only [State.seen, Event.thread, put_threads_self, put_heap]
      cases pc : (s.threads t).pc with
      | publish data n =>
          have live : n ∈ heap := kept.inv.exact.live_of_root
            (mem_roots_of_refs (t := t) (by simp [Thread.refs, pc]))
          simp only [Pc.seen, Heap.next_eq_view, effect.view_of_mem live]
      | _ => rfl
  | _ => exact .inl (by simp [State.seen, Event.thread, Pc.seen])

/-- A thread stays up to date until another one succeeds. -/
theorem UpToDate.step (upToDate : UpToDate s t) (effect : Effect s event s')
    (kept : Kept s event.thread s' values')
    (own_ : event.succeeds = true → event.thread = t) : UpToDate s' t := by
  intro value seen
  by_cases stepped : t = event.thread
  · subst stepped
    rcases effect.seen kept with none_ | current | ⟨same, fails⟩
    · rw [none_] at seen
      cases seen
    · rw [current] at seen
      exact (Option.some.inj seen).symm
    · rw [effect.head_eq fails]
      exact upToDate value (same ▸ seen)
  · have fails : event.succeeds = false := by
      by_contra succeeds
      exact stepped (own_ (by simpa using succeeds)).symm
    rw [effect.head_eq fails]
    exact upToDate value (kept.seen stepped ▸ seen)

omit [Fintype Tid] in
/-- A read brings its thread up to date. -/
theorem Effect.reads (effect : Effect s event s') (reads : event.reads t) : UpToDate s' t := by
  cases effect with
  | loadedPush | loadedPop | popFailed =>
      obtain rfl := reads
      simp [UpToDate, State.seen, Pc.seen]
  | loadedScan =>
      obtain rfl := reads
      rcases Option.eq_none_or_eq_some s.head with top | ⟨a, top⟩ <;>
        simp [UpToDate, State.seen, Pc.seen, top]
  | pushFailed ready pc found views =>
      obtain rfl := reads
      simp [UpToDate, State.seen, Pc.seen, pc, Heap.next_eq_view, views]
  | _ => exact reads.elim

omit [Fintype Tid] in
/-- A failure that is not spurious is one of a thread that is not up to date. -/
theorem Effect.fails (effect : Effect s event s') (failed : event = .exchangeFailed t false) :
    ∃ value, s.seen t = some value ∧ value ≠ s.head := by
  cases effect with
  | @pushFailed u data n content expected heap spurious ready pc found views flag =>
      cases failed
      refine ⟨expected, ?_, fun same => by simp [same] at flag⟩
      simp [State.seen, pc, Pc.seen, Heap.next_eq_view, found]
  | @popFailed u a next heap spurious ready pc views flag =>
      cases failed
      refine ⟨some a, ?_, fun same => by simp [same] at flag⟩
      simp [State.seen, pc, Pc.seen]
  | _ => cases failed

/-- A thread that has read `head` and finds it changed has been overtaken by
another thread's success. -/
theorem success_between {throws : Throws} {events : List (Event Tid T)} {read : Event Tid T}
    {middle : State Tid T} (inv : Inv s values) (first : (machine throws).Step s read middle)
    (reads : read.reads t) (run : (machine throws).Steps middle events s')
    (outdated : ¬ UpToDate s' t) :
    ∃ success ∈ events, success.succeeds = true ∧ success.thread ≠ t := by
  obtain ⟨_, effect, _, _, kept⟩ := inv.step first
  by_contra none_
  push Not at none_
  apply outdated
  clear outdated
  induction run with
  | refl => exact effect.reads reads
  | step prior transition _ inductionHypothesis =>
      obtain ⟨⟨_, invCurrent⟩, _⟩ := kept.inv.steps prior
      obtain ⟨_, effectCurrent, _, _, keptCurrent⟩ := invCurrent.step transition
      refine (inductionHypothesis fun event member =>
        none_ event (List.mem_append_left _ member)).step effectCurrent keptCurrent ?_
      exact none_ _ (List.mem_append_right _ (List.mem_singleton_self _))

/-! ### Counting failures -/

/-- The threads that are not up to date. -/
noncomputable def State.outdated (s : State Tid T) : Finset Tid :=
  open Classical in Finset.univ.filter fun t => ¬ UpToDate s t

omit [DecidableEq Tid] in
theorem mem_outdated : t ∈ s.outdated ↔ ¬ UpToDate s t := by simp [State.outdated]

/-- Without a success no thread becomes outdated. -/
theorem Effect.outdated_subset (effect : Effect s event s') (kept : Kept s event.thread s' values')
    (fails : event.succeeds = false) : s'.outdated ⊆ s.outdated := by
  intro t outdated
  rw [mem_outdated] at outdated ⊢
  exact fun upToDate => outdated (upToDate.step effect kept (by simp [fails]))

/-- The thread that succeeds is up to date, so that all others are outdated at most. -/
theorem Effect.outdated_card (effect : Effect s event s') (succeeds : event.succeeds = true) :
    s'.outdated.card ≤ Fintype.card Tid - 1 := by
  have own_ : event.thread ∉ s'.outdated := by
    rw [mem_outdated, not_not]
    cases effect with
    | published | unlinked => simp [UpToDate, State.seen, Event.thread, Pc.seen]
    | _ => cases succeeds
  rw [← Finset.card_univ, ← Finset.card_erase_of_mem (Finset.mem_univ event.thread)]
  refine Finset.card_le_card fun t outdated => ?_
  exact Finset.mem_erase.mpr ⟨fun same => own_ (same ▸ outdated), Finset.mem_univ t⟩

/-- A failure that is not spurious leaves fewer threads outdated. -/
theorem Effect.outdated_lt (effect : Effect s event s') (kept : Kept s event.thread s' values')
    (failed : event = .exchangeFailed t false) : s'.outdated.card < s.outdated.card := by
  refine Finset.card_lt_card ⟨effect.outdated_subset kept (by rw [failed]; rfl), fun sub => ?_⟩
  have before : t ∈ s.outdated := by
    obtain ⟨value, seen, different⟩ := effect.fails failed
    exact mem_outdated.mpr fun upToDate => different (upToDate value seen)
  exact mem_outdated.mp (sub before) (effect.reads (by rw [failed]; rfl))

/-- One while a call has not taken effect. -/
def Pc.open : Pc T → Nat
  | .make _ | .load _ _ | .assign _ _ _ | .publish _ _ | .popLoad | .test _ | .exchange _ _ => 1
  | _ => 0

/-- The number of calls that have not taken effect. -/
def State.toCome (s : State Tid T) : Nat :=
  ∑ t, ((s.threads t).calls.length + (s.threads t).pc.open)

/-- No step adds a call to come, and a success takes one away. -/
theorem Effect.toCome (effect : Effect s event s') (clients : ∀ u, (s.threads u).Client) :
    s'.toCome + event.succeeds.toNat ≤ s.toCome := by
  have step : ∀ {t : Tid} {thread : Thread T} {heap head} {less : Nat},
      thread.calls.length + thread.pc.open + less ≤
        (s.threads t).calls.length + (s.threads t).pc.open →
      (s.put t thread heap head).toCome + less ≤ s.toCome := by
    intro t thread heap head less own_
    have changed := sum_put (s := s) (fun thread => thread.calls.length + thread.pc.open) t thread
      heap head
    unfold State.toCome
    omega
  cases effect with
  | @called t call calls ready pc next =>
      cases call <;> exact step (by simp [pc, next, Pc.open, Call.entry, Event.succeeds])
  | loadedScan ready pc => exact absurd pc (clients _).notScanning
  | pushFailed | released => exact step (by simp [Event.succeeds])
  | made ready pc | makeFailed ready pc | loadedPush ready pc | loadedPop ready pc
  | assigned ready pc | published ready pc | foundEmpty ready pc | readNext ready pc
  | unlinked ready pc | popFailed ready pc | moved ready pc | moveFailed ready pc
  | resultMoved ready pc | resultMoveFailed ready pc | returned ready pc | popped ready pc
  | terminated ready pc =>
      exact step (by simp [pc, Pc.open, Event.succeeds])

/-! ### Termination -/

/-- The steps a call still has to take from a position when `head` stays as it is. -/
def Pc.work : Pc T → Nat
  | .make _ => 8
  | .load _ _ => 7
  | .assign _ _ _ | .popLoad => 6
  | .test _ => 5
  | .publish _ _ | .exchange _ _ | .move _ => 4
  | .returnTmp _ _ => 3
  | .leave _ => 1
  | _ => 0

/-- The work left to a thread. -/
def Thread.work (thread : Thread T) : Nat :=
  9 * thread.calls.length + thread.pc.work + thread.drops.length

/-- The work left to all threads. -/
def State.work (s : State Tid T) : Nat := ∑ t, (s.threads t).work

/-- A step without a compare-exchange lowers the work left. -/
theorem Effect.work_lt (effect : Effect s event s') (clients : ∀ u, (s.threads u).Client)
    (notSuccess : event.succeeds = false) (notFailure : ∀ t flag, event ≠ .exchangeFailed t flag) :
    s'.work < s.work := by
  have step : ∀ {t : Tid} {thread : Thread T} {heap head}, thread.work < (s.threads t).work →
      (s.put t thread heap head).work < s.work := by
    intro t thread heap head own_
    have changed := sum_put (s := s) Thread.work t thread heap head
    unfold State.work
    omega
  cases effect with
  | @called t call calls ready pc next =>
      cases call <;> exact step (by simp [Thread.work, pc, next, Pc.work, Call.entry]; omega)
  | loadedScan ready pc => exact absurd pc (clients _).notScanning
  | @popped t _ ready pc forDestructor | @terminated t _ ready pc forDestructor =>
      rw [(clients t).notDestructor] at forDestructor
      cases forDestructor
  | @assigned t data n loaded content previous heap ready pc found views =>
      refine step ?_
      cases previous <;> simp [Thread.work, pc, ready, Pc.work]
  | released waiting => exact step (by simp [Thread.work, waiting])
  | published | unlinked => cases notSuccess
  | pushFailed | popFailed => exact absurd rfl (notFailure _ _)
  | made ready pc | makeFailed ready pc | loadedPush ready pc | loadedPop ready pc
  | foundEmpty ready pc | readNext ready pc | moved ready pc | moveFailed ready pc
  | resultMoved ready pc | resultMoveFailed ready pc | returned ready pc =>
      exact step (by simp [Thread.work, pc, ready, Pc.work])

omit [Fintype Tid] in
/-- A thread that is in a call, or has calls to make, can take a step. -/
theorem exists_step {throws : Throws} (safe : s.fault = false) (client : (s.threads t).Client)
    (unfinished : ¬ ((s.threads t).quiet ∧ (s.threads t).calls = [])) :
    ∃ event s', (machine throws).Step s event s' := by
  have ofRun : ∀ {taken}, run s t = some taken → ∃ event s', (machine throws).Step s event s' :=
    fun {taken} ran => ⟨taken.1, taken.2, .run t, by rw [step_run safe, ran]⟩
  cases ready : (s.threads t).drops with
  | cons a rest => exact ofRun (run_release ready)
  | nil =>
      have position := client.notDestroying
      cases pc : (s.threads t).pc with
      | idle =>
          cases next : (s.threads t).calls with
          | nil => exact absurd ⟨⟨pc, ready⟩, next⟩ unfinished
          | cons call calls => exact ofRun (run_call ready pc next)
      | make data =>
          -- the heap is finite, so the allocator has an address left
          obtain ⟨node, fresh⟩ := Infinite.exists_notMem_finset s.heap.keys
          exact ⟨_, _, .allocate t node, step_allocate safe ready pc fun live =>
            fresh (Finmap.mem_keys.mpr live)⟩
      | load data n => exact ofRun (run_load ready pc)
      | assign data n loaded => exact ofRun (run_assign ready pc)
      | publish data n => exact ofRun (run_publish ready pc)
      | popLoad => exact ofRun (run_popLoad ready pc)
      | test oldHead => exact ofRun (run_test ready pc)
      | exchange a next => exact ofRun (run_exchange ready pc)
      | move a => exact ofRun (run_move ready pc)
      | returnTmp a tmp => exact ofRun (run_returnTmp ready pc)
      | leave result => exact ofRun (run_leave ready pc)
      | scan | gone | terminated =>
          rw [pc] at position
          cases position

omit [Fintype Tid] in
/-- A call is taken from those still to be made. -/
theorem Effect.calls (effect : Effect s event s') (u : Tid) :
    callsOf event.action.toList u + (s'.threads u).calls.length = (s.threads u).calls.length := by
  by_cases stepped : u = event.thread
  · subst stepped
    cases effect with
    | called ready pc next =>
        simp [callsOf, Event.action, Action.call?, Event.thread, next, Nat.add_comm]
    | _ => simp [callsOf, Event.action, Action.call?, Event.thread]
  · rw [(effect.thread_cases u).resolve_right stepped]
    cases effect with
    | @called t call calls ready pc next =>
        have other : t ≠ u := fun same => stepped same.symm
        simp [callsOf, Event.action, Action.call?, other]
    | _ => simp [callsOf, Event.action, Action.call?]

omit [Fintype Tid] in
/-- Only an exception from outside ends a call with `threw`. -/
theorem Effect.threw {throws : Throws} (effect : Effect s event s') (allowed : event.allowed throws)
    (threw : (s'.threads u).pc = .leave .threw) :
    (s.threads u).pc = .leave .threw ∨ throws.make = true ∨ throws.move = true := by
  rcases effect.thread_cases u with same | rfl
  · exact .inl (same ▸ threw)
  · cases effect with
    | @called t call => cases call <;> simp [Event.thread, Call.entry] at threw
    | loadedScan =>
        rcases Option.eq_none_or_eq_some s.head with top | ⟨a, top⟩ <;>
          simp [Event.thread, top] at threw
    | makeFailed => exact .inr (.inl allowed)
    | moveFailed | resultMoveFailed => exact .inr (.inr allowed)
    | pushFailed | released => exact .inl (by simpa [Event.thread] using threw)
    | _ => simp [Event.thread] at threw

/-! ### Runs -/

/-- The number of successful compare-exchanges. -/
def successes (events : List (Event Tid T)) : Nat := events.countP Event.succeeds

/-- A success pays for all other threads, a failure is paid for by its own. -/
theorem Effect.outdated_account (effect : Effect s event s')
    (kept : Kept s event.thread s' values') :
    failures [event] + s'.outdated.card ≤
      s.outdated.card + (Fintype.card Tid - 1) * successes [event] + spuriousFailures [event] := by
  have subset := fun fails => Finset.card_le_card (effect.outdated_subset kept fails)
  cases event with
  | published | unlinked =>
      have card := effect.outdated_card rfl
      simp [failures, successes, spuriousFailures, Event.succeeds]
      omega
  | exchangeFailed t spurious =>
      cases spurious with
      | true => simpa [failures, successes, spuriousFailures, Event.succeeds, Nat.add_comm] using
          subset rfl
      | false =>
          have less := effect.outdated_lt (t := t) kept rfl
          simp [failures, successes, spuriousFailures, Event.succeeds]
          omega
  | _ => simpa [failures, successes, spuriousFailures, Event.succeeds] using subset rfl

section Runs

variable {throws : Throws} {program : Tid → List (Call T)} {events : List (Event Tid T)}

/-- The steps of a run of calls. -/
theorem step_of_run (run : (machine throws).Steps (initial program) events s)
    (transition : (machine throws).Step s event s') :
    (∀ u, (s.threads u).Client) ∧ Effect s event s' ∧ event.allowed throws ∧
      ∃ values', Kept s event.thread s' values' := by
  obtain ⟨clients, values, inv, _⟩ := accounted_of_run run
  obtain ⟨values', effect, allowed, _, kept⟩ := inv.step transition
  exact ⟨clients, effect, allowed, values', kept⟩

/-- Outdated threads have been paid for by successes, and pay for failures. -/
theorem failures_add_outdated (run : (machine throws).Steps (initial program) events s) :
    failures events + s.outdated.card ≤
      (Fintype.card Tid - 1) * successes events + spuriousFailures events := by
  induction run with
  | refl =>
      have none_ : (initial program).outdated = ∅ := by
        ext t
        simp [mem_outdated, UpToDate, State.seen, initial, Pc.seen]
      simp [none_, failures, successes, spuriousFailures]
  | step prior transition _ inductionHypothesis =>
      obtain ⟨_, effect, _, _, kept⟩ := step_of_run prior transition
      have account := effect.outdated_account kept
      simp only [failures, successes, spuriousFailures, List.countP_append, Nat.mul_add] at *
      omega

/-- Every success is one of a call to come. -/
theorem successes_add_toCome (run : (machine throws).Steps (initial program) events s) :
    successes events + s.toCome ≤ ∑ t, (program t).length := by
  induction run with
  | refl => simp [successes, State.toCome, initial, Pc.open]
  | step prior transition _ inductionHypothesis =>
      obtain ⟨clients, effect, _⟩ := step_of_run prior transition
      have toCome := effect.toCome clients
      simp only [successes, List.countP_append, List.countP_singleton, Bool.toNat] at *
      grind

/-- A thread has called, or has still to call, what its program says. -/
theorem calls_add_remaining (run : (machine throws).Steps (initial program) events s) (t : Tid) :
    callsOf (events.filterMap Event.action) t + (s.threads t).calls.length =
      (program t).length := by
  induction run with
  | refl => simp [callsOf, initial]
  | step prior transition _ inductionHypothesis =>
      obtain ⟨_, effect, _⟩ := step_of_run prior transition
      have calls := effect.calls t
      rw [List.filterMap_append, callsOf_append, filterMap_single]
      omega

/-- A call that ends with `threw` has met an exception from outside. -/
theorem throws_of_threw (run : (machine throws).Steps (initial program) events s) :
    (∀ t, (s.threads t).pc = .leave .threw → throws.make = true ∨ throws.move = true) ∧
      ∀ t, .returned t .threw ∈ events → throws.make = true ∨ throws.move = true := by
  induction run with
  | refl => exact ⟨fun t threw => by simp [initial] at threw, by simp⟩
  | step prior transition _ inductionHypothesis =>
      obtain ⟨before, earlier⟩ := inductionHypothesis
      obtain ⟨_, effect, allowed, _⟩ := step_of_run prior transition
      refine ⟨fun t threw => ?_, fun t member => ?_⟩
      · rcases effect.threw allowed threw with same | may
        · exact before t same
        · exact may
      · rcases List.mem_append.mp member with old | last
        · exact earlier t old
        · obtain rfl := List.mem_singleton.mp last
          cases effect with
          | returned ready pc => exact before t pc

/-- What a step without a spurious failure lowers: the calls to come, the
outdated threads, the work left, in this order. -/
noncomputable def State.rank (s : State Tid T) : ℕ × ℕ × ℕ :=
  (s.toCome, s.outdated.card, s.work)

/-- The order of the ranks. -/
def Below : ℕ × ℕ × ℕ → ℕ × ℕ × ℕ → Prop := Prod.Lex (· < ·) (Prod.Lex (· < ·) (· < ·))

theorem below_wellFounded : WellFounded Below :=
  wellFounded_lt.prod_lex (wellFounded_lt.prod_lex wellFounded_lt)

/-- Every step but a spurious failure lowers the rank. -/
theorem rank_below (clients : ∀ u, (s.threads u).Client) (effect : Effect s event s')
    (kept : Kept s event.thread s' values') (notSpurious : ∀ t, event ≠ .exchangeFailed t true) :
    Below s'.rank s.rank := by
  have toCome := effect.toCome clients
  rcases Nat.lt_or_eq_of_le (Nat.le_of_add_right_le toCome) with less | same
  · exact .left _ _ less
  · have fails : event.succeeds = false := by
      by_contra succeeds
      rw [Bool.not_eq_false] at succeeds
      simp [succeeds] at toCome
      omega
    rw [State.rank, State.rank, same]
    refine .right _ ?_
    rcases Nat.lt_or_eq_of_le (Finset.card_le_card (effect.outdated_subset kept fails)) with
      less | same
    · exact .left _ _ less
    · rw [same]
      refine .right _ (effect.work_lt clients fails fun t flag failed => ?_)
      cases flag with
      | true => exact notSpurious t failed
      | false => exact absurd same (effect.outdated_lt kept failed).ne

/-- The retry loops cannot livelock. A thread whose compare-exchange fails other
than spuriously has been overtaken since it last read `head`; so the failures
are bounded by the calls and the spurious failures, an infinite run has
infinitely many spurious failures, and a run that cannot go on has completed all
calls, with an exception from outside only where one can occur. -/
theorem no_livelock :
    (∀ {s}, (machine throws).Steps (initial program) events s →
      ∀ {t read before between after}, read.reads t →
        events = before ++ read :: between ++ .exchangeFailed t false :: after →
        ∃ success ∈ between, success.succeeds = true ∧ success.thread ≠ t) ∧
    (∀ {s}, (machine throws).Steps (initial program) events s →
      failures events ≤
        (∑ t, (program t).length) * (Fintype.card Tid - 1) + spuriousFailures events) ∧
    (∀ (run : (machine throws).Infinite (initial program)) (from_ : Nat),
      ∃ index, from_ ≤ index ∧ ∃ t, run.eventAt index = .exchangeFailed t true) ∧
    (∀ {s}, (machine throws).Steps (initial program) events s →
      (∀ event s', ¬ (machine throws).Step s event s') →
        s.Finished ∧
        (∀ t, returnsOf (events.filterMap Event.action) t = (program t).length) ∧
        ∀ t, .returned t .threw ∈ events → throws.make = true ∨ throws.move = true) := by
  refine ⟨?_, fun {s} run => ?_, fun run from_ => ?_, fun {s} run stuck => ?_⟩
  · intro s run t read before between after reads parts
    rw [List.append_assoc] at parts
    obtain ⟨s₁, s₂, prior, first, _, rest⟩ := run.stepAt parts
    obtain ⟨s₃, s₄, middle, last, _⟩ := rest.stepAt rfl
    obtain ⟨⟨values, inv⟩, _⟩ := (inv_initial program).steps prior
    refine success_between inv first reads middle fun upToDate => ?_
    obtain ⟨_, effect, _⟩ :=
      step_of_run ((prior.trans (System.Steps.snoc .refl first)).trans middle) last
    obtain ⟨value, seen, different⟩ := effect.fails rfl
    exact different (upToDate value seen)
  · have paid := failures_add_outdated run
    have calls := Nat.mul_le_mul_left (Fintype.card Tid - 1)
      (Nat.le_of_add_right_le (successes_add_toCome run))
    rw [Nat.mul_comm (∑ t, (program t).length)]
    omega
  · refine System.Infinite.exempt_recurs below_wellFounded State.rank
      (fun event => ∃ t, event = .exchangeFailed t true)
      (fun s => ∃ events, (machine throws).Steps (initial program) events s) run
      (fun index => ⟨_, run.steps index⟩) ?_ from_
    rintro before event after ⟨events, prior⟩ transition notSpurious
    obtain ⟨clients, effect, _, _, kept⟩ := step_of_run prior transition
    exact rank_below clients effect kept fun t failed => notSpurious ⟨t, failed⟩
  · obtain ⟨clients, values, inv, _⟩ := accounted_of_run run
    have finished : s.Finished := by
      intro t
      by_contra unfinished
      obtain ⟨event, s', transition⟩ := exists_step inv.safe (clients t) unfinished
      exact stuck event s' transition
    refine ⟨finished, fun t => ?_, (throws_of_threw run).2⟩
    have calls := calls_add_remaining run t
    have busy := calls_of_run run t
    rw [(finished t).1.1, Pc.busy] at busy
    rw [(finished t).2, List.length_nil] at calls
    omega

end Runs

/-- In a run of two pushes and a pop, the pop fails once, overtaken by a push. -/
theorem no_livelock_run : ∃ (events : List (Event (Fin 2) Nat)),
    failures events = 1 ∧ spuriousFailures events = 0 ∧
      failures events ≤ (∑ t, (pushesAndPop t).length) * (Fintype.card (Fin 2) - 1) +
        spuriousFailures events := by
  obtain ⟨events, s, run, once, never⟩ :
      ∃ events s, (machine ⟨false, false⟩).Steps (initial pushesAndPop) events s ∧
        failures events = 1 ∧ spuriousFailures events = 0 :=
    System.exists_steps [.run 0, .allocate 0 7, .run 0, .run 0, .run 0, .run 0, .run 0,
      .run 0, .allocate 0 8, .run 0, .run 1, .run 1, .run 1, .run 0, .run 0, .run 0, .run 0, .run 0,
      .run 1] (by decide +kernel)
  exact ⟨events, once, never, no_livelock.2.1 run⟩

end LockFree.Aba.Fixed
