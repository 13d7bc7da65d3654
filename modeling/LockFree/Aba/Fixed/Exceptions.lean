import LockFree.Aba.Fixed.Linearizable
import LockFree.Semantics.Threads
import Mathlib.Algebra.Ring.Int.Defs

/-!
# Exceptions in the reference-counted stack

An exception of `make_shared` leaves `push` before anything is shared, and the
call takes effect as one that does nothing. A move that throws, into `tmp` or
from it into the returned object, leaves `pop` after the compare-exchange: the
value has left the stack and is not returned. An account of all values over a
run shows that one is then missing.
-/

namespace LockFree.Aba.Fixed

open Memory Linearization

variable {Tid T : Type} [DecidableEq Tid] [Fintype Tid] {s s' : State Tid T}
  {values values' : List T}

/-- The values a thread has put into the stack without having returned from the
`push`, less those it has taken out without having left the `pop`. -/
def Pc.balance : Pc T → ℤ
  | .leave .done => 1
  | .move _ | .returnTmp _ _ | .leave (.value _) => -1
  | _ => 0

/-- The number of values lost by failing moves. -/
def lost (events : List (Event Tid T)) : Nat :=
  events.countP Event.loses

/-- What a step of the machine changes in a sum over the threads, whatever it does to the
heap and to `head`. -/
theorem sum_put {M : Type} [AddCommMonoid M] (weight : Thread T → M) (t : Tid) (thread : Thread T)
    (heap : Heap Addr (Option T)) (head : Option Addr) :
    ∑ u, weight ((s.put t thread heap head).threads u) + weight (s.threads t) =
      ∑ u, weight (s.threads u) + weight thread :=
  sum_update s.threads t thread weight

/-- The values gone from the stack through a step: returned or lost ones, less
completed pushes. -/
def Event.outflow (event : Event Tid T) : ℤ :=
  match event with
  | .returned _ (.value _) | .moveFailed _ _ | .resultMoveFailed _ _ => 1
  | .returned _ .done => -1
  | _ => 0

/-- A step accounts for every value it moves. -/
theorem Effect.balance {event : Event Tid T} (effect : Effect s event s')
    (change : Change s event values values') (clients : ∀ u, (s.threads u).Client) :
    (values'.length : ℤ) + event.outflow - values.length =
      ∑ u, (s'.threads u).pc.balance - ∑ u, (s.threads u).pc.balance := by
  have step : ∀ {t : Tid} {thread : Thread T} {heap head},
      ∑ u, ((s.put t thread heap head).threads u).pc.balance - ∑ u, (s.threads u).pc.balance =
        thread.pc.balance - (s.threads t).pc.balance := by
    intro t thread heap head
    have changed := sum_put (s := s) (fun thread => thread.pc.balance) t thread heap head
    omega
  cases effect with
  | @called t call calls ready pc next =>
      cases change
      rw [step, pc]
      cases call <;> simp [Pc.balance, Call.entry, Event.outflow]
  | @published t data n content heap ready pc found views =>
      cases change with
      | published => rw [step, pc]; simp [Pc.balance, Event.outflow]
      | kept notPublished => exact absurd rfl (notPublished t n)
  | @unlinked t a next ready pc top =>
      cases change with
      | unlinked => rw [step, pc]; simp [Pc.balance, Event.outflow]
      | kept _ notUnlinked => exact absurd rfl (notUnlinked t a)
  | loadedScan ready pc views => exact absurd pc (clients _).notScanning
  | @returned t result ready pc notDestroying =>
      cases change
      rw [step, pc]
      cases result <;> simp [Pc.balance, Event.outflow]
  | pushFailed ready pc found views flag =>
      cases change
      rw [step]
      simp [Event.outflow]
  | released waiting effect =>
      cases change
      rw [step]
      simp [Event.outflow]
  | made ready pc | makeFailed ready pc | loadedPush ready pc | loadedPop ready pc
  | assigned ready pc | foundEmpty ready pc | readNext ready pc | popFailed ready pc
  | moved ready pc | moveFailed ready pc | resultMoved ready pc | resultMoveFailed ready pc =>
      cases change
      rw [step, pc]
      simp [Pc.balance, Event.outflow]
  | @popped t _ ready pc forDestructor | @terminated t _ ready pc forDestructor =>
      rw [(clients t).notDestructor] at forDestructor
      cases forDestructor

omit [DecidableEq Tid] [Fintype Tid] in
/-- Values leave the stack by being returned or lost, and enter it by completed pushes. -/
theorem sum_outflow (events : List (Event Tid T)) :
    (events.map Event.outflow).sum =
      (Aba.returned (events.filterMap Event.action)).length + lost events -
        completedPushes (events.filterMap Event.action) := by
  induction events with
  | nil => rfl
  | cons event events inductionHypothesis =>
      rw [List.map_cons, List.sum_cons, inductionHypothesis]
      cases event with
      | returned t result =>
          cases result <;>
            simp [Event.outflow, Event.loses, lost, Aba.returned, completedPushes, Event.action,
              Action.ret?, Result.value?] <;> omega
      | _ =>
          simp [Event.outflow, Event.loses, lost, Aba.returned, completedPushes, List.countP_cons,
            List.filterMap_cons, Event.action, Action.ret?, Result.value?] <;> omega

/-- The invariant, with an account of all values that have been in the stack. -/
def Accounted (events : List (Event Tid T)) (s : State Tid T) : Prop :=
  (∀ u, (s.threads u).Client) ∧ ∃ values, Inv s values ∧
    (values.length : ℤ) + (events.map Event.outflow).sum = ∑ u, (s.threads u).pc.balance

/-- Every run of calls accounts for its values. -/
theorem accounted_of_run {throws : Throws} {program : Tid → List (Call T)}
    {events : List (Event Tid T)} (run : (machine throws).Steps (initial program) events s) :
    Accounted events s := by
  refine run.traceInvariant ?_ ?_
  · refine ⟨(represents_initial program).clients, [], inv_initial program, ?_⟩
    simp [initial, Pc.balance]
  · rintro trace before event after ⟨clients, values, inv, account⟩ - transition
    obtain ⟨values', effect, _, change, kept⟩ := inv.step transition
    refine ⟨effect.client clients, values', kept.inv, ?_⟩
    have balance := effect.balance change clients
    rw [List.map_append, List.sum_append, List.map_singleton, List.sum_singleton]
    omega

/-! ### Threads without a call -/

/-- One while a thread is in a call. -/
def Pc.busy : Pc T → Nat
  | .idle => 0
  | _ => 1

omit [Fintype Tid] in
/-- A step shows a call or a return when its thread enters or leaves a call. -/
theorem Effect.busy {event : Event Tid T} (effect : Effect s event s')
    (clients : ∀ u, (s.threads u).Client) (u : Tid) :
    callsOf event.action.toList u + (s.threads u).pc.busy =
      returnsOf event.action.toList u + (s'.threads u).pc.busy := by
  have silent : ∀ {t : Tid} {thread : Thread T} {heap head},
      thread.pc.busy = (s.threads t).pc.busy →
      (s.threads u).pc.busy = ((s.put t thread heap head).threads u).pc.busy := by
    intro t thread heap head same
    by_cases stepped : u = t
    · rw [stepped, put_threads_self, same]
    · rw [put_threads_other s stepped]
  cases effect with
  | @called t call calls ready pc next =>
      by_cases stepped : u = t
      · subst stepped
        cases call <;> simp [callsOf, returnsOf, Event.action, Action.call?, Action.ret?, pc,
          Pc.busy, Call.entry]
      · rw [put_threads_other s stepped]
        simp [callsOf, returnsOf, Event.action, Action.call?, Action.ret?, Ne.symm stepped]
  | @returned t result ready pc notDestroying =>
      by_cases stepped : u = t
      · subst stepped
        simp [callsOf, returnsOf, Event.action, Action.call?, Action.ret?, pc, Pc.busy]
      · rw [put_threads_other s stepped]
        simp [callsOf, returnsOf, Event.action, Action.call?, Action.ret?, Ne.symm stepped]
  | loadedScan ready pc views => exact absurd pc (clients _).notScanning
  | @popped t _ ready pc forDestructor | @terminated t _ ready pc forDestructor =>
      rw [(clients t).notDestructor] at forDestructor
      cases forDestructor
  | pushFailed | released => exact congrArg (0 + ·) (silent rfl)
  | made ready pc | makeFailed ready pc | loadedPush ready pc | loadedPop ready pc
  | assigned ready pc | published ready pc | foundEmpty ready pc | readNext ready pc
  | unlinked ready pc | popFailed ready pc | moved ready pc | moveFailed ready pc
  | resultMoved ready pc | resultMoveFailed ready pc =>
      exact congrArg (0 + ·) (silent (by rw [pc]; rfl))

/-- A thread has made one call more than it has returned from while it is in a call. -/
theorem calls_of_run {throws : Throws} {program : Tid → List (Call T)}
    {events : List (Event Tid T)} (run : (machine throws).Steps (initial program) events s)
    (u : Tid) :
    callsOf (events.filterMap Event.action) u =
      returnsOf (events.filterMap Event.action) u + (s.threads u).pc.busy := by
  induction run with
  | refl => rfl
  | step prior transition _ inductionHypothesis =>
      obtain ⟨clients, values, inv, _⟩ := accounted_of_run prior
      obtain ⟨values', effect, _⟩ := inv.step transition
      have busy := effect.busy clients u
      rw [List.filterMap_append, callsOf_append, returnsOf_append, filterMap_single]
      omega

/-- A run is explained by a sequential stack on which calls that end in an
exception do nothing, and which holds the values stored. -/
def Explained (events : List (Event Tid T)) (s : State Tid T) : Prop :=
  ∃ marks final, Linearizes (Lifo true) [] (events.filterMap Event.action) marks final ∧
    Stores s final.object

/-- Without a failing move every run is explained. -/
theorem explained_of_moves {throws : Throws} {program : Tid → List (Call T)}
    {events : List (Event Tid T)} (run : (machine throws).Steps (initial program) events s)
    (notLost : ∀ event ∈ events, event.loses = false) : Explained events s := by
  obtain ⟨marks, values, represents, linearizes⟩ := linearizes_of_moves run notLost
  refine ⟨marks, ⟨values, s.phase⟩, linearizes.mono fun _ _ _ _ applies => ?_,
    represents.inv.stores⟩
  cases applies with
  | push => exact .push
  | pop => exact .pop
  | empty => exact .empty
  | threw => exact .threw rfl

/-- With no operation in flight, the values an explained run leaves in the stack
are as many as were pushed and not returned, so none was lost. -/
theorem lost_eq_zero {throws : Throws} {program : Tid → List (Call T)}
    {events : List (Event Tid T)} (run : (machine throws).Steps (initial program) events s)
    (quiescent : s.Quiescent) (explained : Explained events s) : lost events = 0 := by
  obtain ⟨clients, values, inv, account⟩ := accounted_of_run run
  obtain ⟨marks, final, linearizes, stores⟩ := explained
  have same : values.map some = final.object.map some := inv.stores.unique stores
  have sized : values.length = final.object.length := by
    simpa using congrArg List.length same
  have idle : ∀ t, final.phase t = .idle := by
    intro t
    have calls := calls_of_run run t
    rw [(quiescent t).1, linearizes.busy t] at calls
    cases phase : final.phase t with
    | idle => rfl
    | pending op => simp [phase, Phase.busy, Pc.busy] at calls
    | settled result => simp [phase, Phase.busy, Pc.busy] at calls
  have balanced : ∑ u, (s.threads u).pc.balance = 0 :=
    Finset.sum_eq_zero fun u _ => by rw [(quiescent u).1]; rfl
  have length := stored_length linearizes idle
  rw [balanced, sum_outflow] at account
  omega

/-- One thread pushes a value and pops it again. -/
def pushPop : Unit → List (Call Nat) := fun _ => [.push 1, .pop]

/-- The move into `tmp` throws after the value was unlinked: no operation is in
flight, nothing is stored, and the value was never returned. -/
theorem failed_move_unexplained : ∃ events s,
    (machine ⟨false, true⟩).Steps (initial pushPop) events s ∧ s.Quiescent ∧
      ¬ Explained events s := by
  obtain ⟨events, s, run, quiescent, one⟩ :
      ∃ events s, (machine ⟨false, true⟩).Steps (initial pushPop) events s ∧
        s.Quiescent ∧ lost events = 1 :=
    System.exists_steps [.run (), .allocate () 7, .run (), .run (), .run (), .run (), .run (),
      .run (), .run (), .run (), .run (), .run (), .throws (), .run (), .run ()] (by decide +kernel)
  refine ⟨events, s, run, quiescent, fun explained => ?_⟩
  rw [lost_eq_zero run quiescent explained] at one
  cases one

/-- Whether failing operations are atomic is a matter of the moves into `tmp` and
out of it: a run in which they never throw is explained in every state, and a run
in which one threw is not explained once no operation is in flight. -/
theorem failures_atomic {throws : Throws} {program : Tid → List (Call T)}
    {events : List (Event Tid T)} (run : (machine throws).Steps (initial program) events s) :
    ((∀ event ∈ events, event.loses = false) → Explained events s) ∧
      (s.Quiescent → (Explained events s ↔ ∀ event ∈ events, event.loses = false)) := by
  refine ⟨explained_of_moves run, fun quiescent => ⟨fun explained event member => ?_,
    explained_of_moves run⟩⟩
  have none_ := lost_eq_zero run quiescent explained
  simpa using List.countP_eq_zero.mp none_ event member

/-- Two threads push a value each, and each of them pops one. -/
def pushesAndPops : Fin 2 → List (Call Nat)
  | 0 => [.push 1, .pop]
  | 1 => [.push 2, .pop]

/-- An allocation fails while another thread pops the value it has pushed, and a
`pop` finds the stack empty. -/
theorem failures_atomic_run : ∃ (events : List (Event (Fin 2) Nat)) (s : State (Fin 2) Nat),
    .makeFailed 1 ∈ events ∧ .returned 1 .outOfRange ∈ events ∧
      Aba.returned (events.filterMap Event.action) = [1] ∧ Explained events s ∧
      ∀ event ∈ events, event.loses = false := by
  obtain ⟨events, s, run, quiescent, failed, empty, returned, none_⟩ :
      ∃ events s, (machine ⟨true, true⟩).Steps (initial pushesAndPops) events s ∧ s.Quiescent ∧
        .makeFailed 1 ∈ events ∧ .returned 1 .outOfRange ∈ events ∧
        Aba.returned (events.filterMap Event.action) = [1] ∧ lost events = 0 :=
    System.exists_steps (.run 0 :: .run 1 :: .allocate 0 7 :: List.replicate 4 (.run 0) ++
      .throws 1 :: List.replicate 5 (.run 0) ++ [.run 1] ++ List.replicate 5 (.run 0) ++
      List.replicate 4 (.run 1)) (by decide +kernel)
  have atomic := failures_atomic run
  have explained : Explained events s := atomic.1 fun event member => by
    simpa using List.countP_eq_zero.mp none_ event member
  exact ⟨events, s, failed, empty, returned, explained, (atomic.2 quiescent).mp explained⟩

end LockFree.Aba.Fixed
