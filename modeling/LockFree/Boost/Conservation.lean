import LockFree.Boost.Machine
import LockFree.Semantics.Threads
import Mathlib.Algebra.BigOperators.Fin
import Mathlib.Algebra.Order.BigOperators.Group.Finset
import Mathlib.Algebra.Order.Group.Multiset

/-!
# The driver loses and duplicates nothing

Every number drawn is held by a producer, in the queue, or popped, and every
number popped is counted or about to be. A consumer that has ended has found the
queue empty after `done`, when no producer runs any more.
-/

namespace LockFree.Boost

/-- The numbers a producer has drawn. -/
def Producer.drawn (iterations : Nat) : Producer → Nat
  | .loop i => i
  | .push i _ => i + 1
  | .finished => iterations

@[simp] theorem Producer.drawn_loop (iterations i : Nat) :
    (Producer.loop i).drawn iterations = i := rfl
@[simp] theorem Producer.drawn_push (iterations i : Nat) (value : Int) :
    (Producer.push i value).drawn iterations = i + 1 := rfl
@[simp] theorem Producer.drawn_finished (iterations : Nat) :
    Producer.finished.drawn iterations = iterations := rfl

/-- The number a producer has drawn and not pushed. -/
def Producer.hand : Producer → Multiset Int
  | .push _ value => {value}
  | _ => 0

@[simp] theorem Producer.hand_loop (i : Nat) : (Producer.loop i).hand = 0 := rfl
@[simp] theorem Producer.hand_push (i : Nat) (value : Int) :
    (Producer.push i value).hand = {value} := rfl
@[simp] theorem Producer.hand_finished : Producer.finished.hand = 0 := rfl

/-- A producer stays within its iterations. -/
def Producer.Within (iterations : Nat) : Producer → Prop
  | .loop i => i ≤ iterations
  | .push i _ => i < iterations
  | .finished => True

/-- One for a consumer that has popped a value and not counted it. -/
def Consumer.uncounted : Consumer → Nat
  | .countPolled | .countDrained => 1
  | _ => 0

/-- A consumer has seen `done`. -/
def Consumer.Late : Consumer → Prop
  | .drain | .countDrained | .finished => True
  | _ => False

/-- `main` has joined a producer. -/
def Main.JoinedProducer {producers : Nat} (p : Fin producers) : Main → Prop
  | .joinProducers i => p.val < i
  | _ => True

/-- `main` has joined a consumer. -/
def Main.JoinedConsumer {consumers : Nat} (c : Fin consumers) : Main → Prop
  | .joinProducers _ => False
  | .joinConsumers i => c.val < i
  | _ => True

/-- `main` has set `done`. -/
def Main.hasSetDone : Main → Bool
  | .joinProducers _ => false
  | _ => true

/-- The first numbers of a counter. -/
def numbers (count : Nat) : Multiset Int :=
  (Multiset.range count).map fun i : Nat => (i : Int) + 1

variable {queue : Queue} {producers consumers iterations : Nat}
  {s : State queue producers consumers} {events : List (Event producers consumers)}

/-- How many numbers have been drawn. -/
def State.drawn (iterations : Nat) (s : State queue producers consumers) : Nat :=
  ∑ p, (s.producer p).drawn iterations

/-- The invariant of the driver. -/
structure Inv (iterations : Nat) (events : List (Event producers consumers))
    (s : State queue producers consumers) : Prop where
  within : ∀ p, (s.producer p).Within iterations
  produced : s.producerCount = s.drawn iterations
  conserved : numbers (s.drawn iterations) =
    queue.values s.contents + ∑ p, (s.producer p).hand + (poppedValues events : Multiset Int)
  nonneg : 0 ≤ s.consumerCount
  counted : s.consumerCount + ((∑ c, (s.consumer c).uncounted : Nat) : Int) =
    (poppedValues events).length
  joinedProducers : ∀ p, s.main.JoinedProducer p → s.producer p = .finished
  done : s.done = s.main.hasSetDone
  late : ∀ c, (s.consumer c).Late → s.done = true
  emptied : ∀ c, s.consumer c = .finished → queue.values s.contents = 0
  joinedConsumers : ∀ c, s.main.JoinedConsumer c → s.consumer c = .finished

theorem numbers_succ (count : Nat) :
    numbers (count + 1) = ((count : Int) + 1) ::ₘ numbers count := by
  simp [numbers, Multiset.range_succ]

@[simp] theorem card_numbers (count : Nat) : (numbers count).card = count := by
  simp [numbers]

@[simp] theorem popped_snoc (event : Event producers consumers) :
    poppedValues (events ++ [event]) = poppedValues events ++ poppedValues [event] := by
  simp [poppedValues]

/-- Within the range of `int` a counter does not wrap around. -/
theorem increment_eq {count : Int} (nonneg : 0 ≤ count) (small : count + 1 ≤ intMax) :
    increment count = count + 1 := by
  simp only [intMax] at small
  refine Int.bmod_eq_of_le ?_ ?_
  all_goals omega

/-- Producers within their iterations have drawn at most what they may. -/
theorem sum_drawn_le {threads : Fin producers → Producer}
    (within : ∀ p, (threads p).Within iterations) :
    ∑ p, (threads p).drawn iterations ≤ producers * iterations := by
  have each : ∀ p, (threads p).drawn iterations ≤ iterations := by
    intro p
    have within := within p
    cases at_ : threads p with
    | loop i =>
        rw [at_] at within
        exact within
    | push i value =>
        rw [at_] at within
        exact Nat.succ_le_of_lt within
    | finished => exact Nat.le_refl _
  calc ∑ p, (threads p).drawn iterations ≤ ∑ _p : Fin producers, iterations :=
        Finset.sum_le_sum fun p _ => each p
    _ = producers * iterations := by simp

section Invariant

variable (inv : Inv iterations events s)

include inv

/-- No more values are popped than numbers drawn. -/
theorem Inv.popped_le : (poppedValues events).length ≤ s.drawn iterations := by
  have sizes := congrArg Multiset.card inv.conserved
  rw [card_numbers, Multiset.card_add, Multiset.coe_card] at sizes
  omega

/-- A consumer has seen `done` only when all producers have ended. -/
theorem Inv.not_late {p : Fin producers} (runs : s.producer p ≠ .finished)
    (c : Fin consumers) : ¬ (s.consumer c).Late := by
  intro late
  have done := inv.late c late
  rw [inv.done] at done
  refine runs (inv.joinedProducers p ?_)
  cases main : s.main with
  | joinProducers i => simp [main, Main.hasSetDone] at done
  | _ => exact trivial

/-! ### Producers -/

/-- All producers stay within their iterations when the one that moves does. -/
theorem Inv.within_update (t : Fin producers) {next : Producer}
    (within : next.Within iterations) (p : Fin producers) :
    (Function.update s.producer t next p).Within iterations := by
  by_cases same : p = t
  · subst same
    simpa using within
  · simpa [same] using inv.within p

/-- What a step of a producer has to establish. -/
theorem Inv.producer_moves {t : Fin producers} {next : Producer} {count : Int}
    {contents : queue.Contents} {event : Event producers consumers}
    (runs : s.producer t ≠ .finished) (within : next.Within iterations)
    (produced : count =
      (∑ p, (Function.update s.producer t next p).drawn iterations : Nat))
    (conserved : numbers (∑ p, (Function.update s.producer t next p).drawn iterations) =
      queue.values contents + ∑ p, (Function.update s.producer t next p).hand +
        (poppedValues events : Multiset Int))
    (silent : poppedValues [event] = []) :
    Inv iterations (events ++ [event]) { s with
      producerCount := count, contents, producer := Function.update s.producer t next } where
  within := inv.within_update t within
  produced := produced
  conserved := by simpa [silent, State.drawn] using conserved
  nonneg := inv.nonneg
  counted := by simpa [silent] using inv.counted
  joinedProducers p joined := by
    have finished := inv.joinedProducers p joined
    have other : p ≠ t := fun same => runs (same ▸ finished)
    simpa [other] using finished
  done := inv.done
  late := inv.late
  emptied c finished := by
    refine absurd ?_ (inv.not_late runs c)
    rw [show s.consumer c = .finished from finished]
    exact trivial
  joinedConsumers := inv.joinedConsumers

/-- A step of a producer keeps the invariant. -/
theorem Inv.producer {t : Fin producers} {answer : queue.Answer}
    {event : Event producers consumers} {after : State queue producers consumers}
    (small : (producers * iterations : Nat) ≤ intMax)
    (stepped : stepProducer iterations s t answer = some (event, after)) :
    Inv iterations (events ++ [event]) after := by
  have produced := inv.produced
  have conserved := inv.conserved
  have within := inv.within t
  unfold stepProducer at stepped
  unfold State.drawn at produced conserved
  cases at_ : s.producer t with
  | loop i =>
      rw [at_] at stepped within
      have runs : s.producer t ≠ .finished := by simp [at_]
      by_cases more : i = iterations
      · -- the loop ends
        simp only [more, ne_eq, not_true_eq_false, if_false, Option.some.injEq,
          Prod.mk.injEq] at stepped
        obtain ⟨rfl, rfl⟩ := stepped
        have drawn := sum_update s.producer t .finished (Producer.drawn iterations)
        have hands := sum_update s.producer t .finished Producer.hand
        simp only [at_, Producer.drawn_loop, Producer.drawn_finished, Producer.hand_loop,
          Producer.hand_finished, more, add_zero, Nat.add_right_cancel_iff] at drawn hands
        refine inv.producer_moves runs trivial ?_ ?_ rfl
        · rw [drawn, produced]
        · rw [drawn, hands, conserved]
      · -- the thread draws the next number
        simp only [ne_eq, more, not_false_eq_true, if_true, Option.some.injEq,
          Prod.mk.injEq] at stepped
        obtain ⟨rfl, rfl⟩ := stepped
        have below : (Producer.push i (increment s.producerCount)).Within iterations :=
          Nat.lt_of_le_of_ne within more
        have drawn := sum_update s.producer t (.push i (increment s.producerCount))
          (Producer.drawn iterations)
        have hands := sum_update s.producer t (.push i (increment s.producerCount)) Producer.hand
        simp only [at_, Producer.drawn_loop, Producer.drawn_push, Producer.hand_loop,
          Producer.hand_push, add_zero] at drawn hands
        have drawn : ∑ p, (Function.update s.producer t
            (.push i (increment s.producerCount)) p).drawn iterations =
            ∑ p, (s.producer p).drawn iterations + 1 := by omega
        have bound := sum_drawn_le (inv.within_update t below)
        have next : increment s.producerCount = s.producerCount + 1 :=
          increment_eq (by omega) (by omega)
        refine inv.producer_moves runs below ?_ ?_ rfl
        · rw [drawn, next, produced]
          push_cast
          rfl
        · rw [drawn, numbers_succ, conserved, hands, next, produced]
          simp only [← Multiset.singleton_add]
          ac_rfl
  | push i value =>
      rw [at_] at stepped within
      have runs : s.producer t ≠ .finished := by simp [at_]
      cases pushed : queue.push s.contents value answer with
      | mk done contents =>
      cases done with
      | true =>
          simp only [pushed, Option.some.injEq, Prod.mk.injEq] at stepped
          obtain ⟨rfl, rfl⟩ := stepped
          have values := queue.push_succeeds (by rw [pushed] :
            (queue.push s.contents value answer).1 = true)
          rw [pushed] at values
          have drawn := sum_update s.producer t (.loop (i + 1)) (Producer.drawn iterations)
          have hands := sum_update s.producer t (.loop (i + 1)) Producer.hand
          simp only [at_, Producer.drawn_loop, Producer.drawn_push, Producer.hand_loop,
            Producer.hand_push, add_zero, Nat.add_right_cancel_iff] at drawn hands
          refine inv.producer_moves runs (Nat.succ_le_of_lt within) ?_ ?_ rfl
          · rw [drawn, produced]
          · rw [drawn, conserved, ← hands, values]
            simp only [← Multiset.singleton_add]
            ac_rfl
      | false =>
          simp only [pushed, Option.some.injEq, Prod.mk.injEq] at stepped
          obtain ⟨rfl, rfl⟩ := stepped
          have values := queue.push_fails (by rw [pushed] :
            (queue.push s.contents value answer).1 = false)
          rw [pushed] at values
          have same : Function.update s.producer t (.push i value) = s.producer := by
            rw [← at_, Function.update_eq_self]
          have kept : Inv iterations (events ++ [.pushFailed t]) { s with
              contents, producer := Function.update s.producer t (.push i value) } :=
            inv.producer_moves runs within (by rw [same, produced])
              (by rw [same, conserved, values]) rfl
          rwa [same] at kept
  | finished => simp [at_] at stepped

/-! ### Consumers -/

/-- What a step of a consumer has to establish. -/
theorem Inv.consumer_moves {t : Fin consumers} {next : Consumer} {count : Int}
    {contents : queue.Contents} {event : Event producers consumers}
    (runs : s.consumer t ≠ .finished)
    (conserved : queue.values s.contents =
      queue.values contents + (poppedValues [event] : Multiset Int))
    (nonneg : 0 ≤ count)
    (counted : count + (next.uncounted : Int) =
      s.consumerCount + ((s.consumer t).uncounted : Int) + (poppedValues [event]).length)
    (late : next.Late → s.done = true)
    (emptied : next = .finished → queue.values contents = 0) :
    Inv iterations (events ++ [event]) { s with
      consumerCount := count, contents, consumer := Function.update s.consumer t next } where
  within := inv.within
  produced := inv.produced
  conserved := by
    have before := inv.conserved
    rw [conserved] at before
    rw [popped_snoc, ← Multiset.coe_add]
    exact before.trans (by ac_rfl)
  nonneg := nonneg
  counted := by
    have uncounted := sum_update s.consumer t next Consumer.uncounted
    have before := inv.counted
    rw [popped_snoc, List.length_append]
    dsimp only
    omega
  joinedProducers := inv.joinedProducers
  done := inv.done
  late c isLate := by
    by_cases same : c = t
    · subst same
      exact late (by simpa using isLate)
    · exact inv.late c (by simpa [same] using isLate)
  emptied c finished := by
    by_cases same : c = t
    · subst same
      exact emptied (by simpa using finished)
    · have empty := inv.emptied c (by simpa [same] using finished)
      rw [conserved] at empty
      exact (add_eq_zero.mp empty).1
  joinedConsumers c joined := by
    have finished := inv.joinedConsumers c joined
    have other : c ≠ t := fun same => runs (same ▸ finished)
    simpa [other] using finished

/-- A `pop` of a consumer that counts what it finds keeps the invariant. -/
theorem Inv.pop {t : Fin consumers} {answer : queue.Answer} {found empty : Consumer}
    (runs : s.consumer t ≠ .finished) (counts : (s.consumer t).uncounted = 0)
    (foundCounts : found.uncounted = 1) (emptyCounts : empty.uncounted = 0)
    (foundRuns : found ≠ .finished)
    (foundLate : found.Late → s.done = true) (emptyLate : empty.Late → s.done = true) :
    Inv iterations (events ++ [(popStep s t answer found empty).1])
      (popStep s t answer found empty).2 := by
  unfold popStep
  cases popped : queue.pop s.contents answer with
  | mk result contents =>
  cases result with
  | some value =>
      have values := queue.pop_succeeds (by rw [popped] :
        (queue.pop s.contents answer).1 = some value)
      rw [popped] at values
      refine inv.consumer_moves runs ?_ inv.nonneg ?_ foundLate fun finished =>
        absurd finished foundRuns
      · rw [values, ← Multiset.singleton_add, add_comm]
        rfl
      · simp [foundCounts, counts, poppedValues]
  | none =>
      have values := queue.pop_fails (by rw [popped] :
        (queue.pop s.contents answer).1 = none)
      rw [popped] at values
      refine inv.consumer_moves runs ?_ inv.nonneg ?_ emptyLate fun _ => values.2
      · rw [values.1, values.2]
        rfl
      · simp [emptyCounts, counts, poppedValues]

/-- `++consumer_count` keeps the invariant. -/
theorem Inv.count {t : Fin consumers} {next : Consumer}
    (small : (producers * iterations : Nat) ≤ intMax)
    (counts : (s.consumer t).uncounted = 1) (nextCounts : next.uncounted = 0)
    (nextRuns : next ≠ .finished) (late : next.Late → s.done = true) :
    Inv iterations (events ++ [(countStep s t next).1]) (countStep s t next).2 := by
  have runs : s.consumer t ≠ .finished := by
    intro finished
    simp [finished, Consumer.uncounted] at counts
  -- the value about to be counted is among the numbers drawn
  have one : 1 ≤ ∑ c, (s.consumer c).uncounted :=
    counts ▸ Finset.single_le_sum (f := fun c => (s.consumer c).uncounted)
      (fun _ _ => Nat.zero_le _) (Finset.mem_univ t)
  have all := inv.counted
  have popped := inv.popped_le
  have drawn : s.drawn iterations ≤ producers * iterations := sum_drawn_le inv.within
  have nonneg := inv.nonneg
  have incremented : increment s.consumerCount = s.consumerCount + 1 :=
    increment_eq nonneg (by omega)
  unfold countStep
  refine inv.consumer_moves runs (by simp [poppedValues]) ?_ ?_ late fun finished =>
    absurd finished nextRuns
  · omega
  · simp [incremented, nextCounts, counts, poppedValues]

/-- A step of a consumer keeps the invariant. -/
theorem Inv.consumer {t : Fin consumers} {answer : queue.Answer}
    {event : Event producers consumers} {after : State queue producers consumers}
    (small : (producers * iterations : Nat) ≤ intMax)
    (stepped : stepConsumer s t answer = some (event, after)) :
    Inv iterations (events ++ [event]) after := by
  have late := inv.late t
  unfold stepConsumer at stepped
  cases at_ : s.consumer t with
  | checkDone =>
      simp only [at_, Option.some.injEq, Prod.mk.injEq] at stepped
      obtain ⟨rfl, rfl⟩ := stepped
      refine inv.consumer_moves (by simp [at_]) (by simp [poppedValues]) inv.nonneg ?_ ?_ ?_
      · cases s.done <;> simp [at_, Consumer.uncounted, poppedValues]
      · cases done : s.done <;> simp [Consumer.Late]
      · cases s.done <;> simp
  | poll =>
      simp only [at_, Option.some.injEq] at stepped
      obtain ⟨rfl, rfl⟩ := Prod.ext_iff.mp stepped
      exact inv.pop (by simp [at_]) (by simp [at_, Consumer.uncounted]) rfl rfl nofun
        nofun nofun
  | countPolled =>
      simp only [at_, Option.some.injEq] at stepped
      obtain ⟨rfl, rfl⟩ := Prod.ext_iff.mp stepped
      exact inv.count small (by simp [at_, Consumer.uncounted]) rfl nofun nofun
  | drain =>
      have done := late (by simp [at_, Consumer.Late])
      simp only [at_, Option.some.injEq] at stepped
      obtain ⟨rfl, rfl⟩ := Prod.ext_iff.mp stepped
      exact inv.pop (by simp [at_]) (by simp [at_, Consumer.uncounted]) rfl rfl nofun
        (fun _ => done) fun _ => done
  | countDrained =>
      have done := late (by simp [at_, Consumer.Late])
      simp only [at_, Option.some.injEq] at stepped
      obtain ⟨rfl, rfl⟩ := Prod.ext_iff.mp stepped
      exact inv.count small (by simp [at_, Consumer.uncounted]) rfl nofun fun _ => done
  | finished => simp [at_] at stepped

/-! ### The main thread -/

/-- What a step of `main` has to establish. -/
theorem Inv.main_moves {next : Main} {done : Bool} {event : Event producers consumers}
    (silent : poppedValues [event] = []) (hasSet : done = next.hasSetDone)
    (later : s.done = true → done = true)
    (joined : ∀ p, next.JoinedProducer p → s.producer p = .finished)
    (ended : ∀ c, next.JoinedConsumer c → s.consumer c = .finished) :
    Inv iterations (events ++ [event]) { s with done, main := next } where
  within := inv.within
  produced := inv.produced
  conserved := by
    rw [popped_snoc, silent, List.append_nil]
    exact inv.conserved
  nonneg := inv.nonneg
  counted := by
    rw [popped_snoc, silent, List.append_nil]
    exact inv.counted
  joinedProducers := joined
  done := hasSet
  late c isLate := later (inv.late c isLate)
  emptied := inv.emptied
  joinedConsumers := ended

/-- A step of `main` keeps the invariant. -/
theorem Inv.main {event : Event producers consumers} {after : State queue producers consumers}
    (stepped : stepMain s = some (event, after)) :
    Inv iterations (events ++ [event]) after := by
  have joined := inv.joinedProducers
  have ended := inv.joinedConsumers
  have done := inv.done
  unfold stepMain at stepped
  cases at_ : s.main with
  | joinProducers i =>
      rw [at_] at joined done
      by_cases bound : i < producers
      · by_cases finished : s.producer ⟨i, bound⟩ = .finished
        · simp only [at_, bound, finished, dite_true, if_true, Option.some.injEq,
            Prod.mk.injEq] at stepped
          obtain ⟨rfl, rfl⟩ := stepped
          refine inv.main_moves rfl done id (fun p earlier => ?_) nofun
          rcases Nat.lt_succ_iff_lt_or_eq.mp earlier with before | same
          · exact joined p before
          · exact (Fin.ext same : p = ⟨i, bound⟩) ▸ finished
        · simp [at_, bound, finished] at stepped
      · simp only [at_, bound, dite_false, Option.some.injEq, Prod.mk.injEq] at stepped
        obtain ⟨rfl, rfl⟩ := stepped
        refine inv.main_moves rfl rfl (fun _ => rfl) (fun p _ => joined p ?_) nofun
        exact Nat.lt_of_lt_of_le p.isLt (Nat.le_of_not_lt bound)
  | joinConsumers i =>
      rw [at_] at joined ended done
      have joined : ∀ p, s.producer p = .finished := fun p => joined p trivial
      by_cases bound : i < consumers
      · by_cases finished : s.consumer ⟨i, bound⟩ = .finished
        · simp only [at_, bound, finished, dite_true, if_true, Option.some.injEq,
            Prod.mk.injEq] at stepped
          obtain ⟨rfl, rfl⟩ := stepped
          refine inv.main_moves rfl done id (fun p _ => joined p) fun c earlier => ?_
          rcases Nat.lt_succ_iff_lt_or_eq.mp earlier with before | same
          · exact ended c before
          · exact (Fin.ext same : c = ⟨i, bound⟩) ▸ finished
        · simp [at_, bound, finished] at stepped
      · simp only [at_, bound, dite_false, Option.some.injEq, Prod.mk.injEq] at stepped
        obtain ⟨rfl, rfl⟩ := stepped
        refine inv.main_moves rfl done id (fun p _ => joined p) fun c _ => ended c ?_
        exact Nat.lt_of_lt_of_le c.isLt (Nat.le_of_not_lt bound)
  | printConsumed =>
      rw [at_] at joined ended done
      simp only [at_, Option.some.injEq, Prod.mk.injEq] at stepped
      obtain ⟨rfl, rfl⟩ := stepped
      exact inv.main_moves rfl done id joined ended
  | finished => simp [at_] at stepped

end Invariant

/-- The invariant holds when all threads are started. -/
theorem inv_initial : Inv iterations [] (initial queue producers consumers) where
  within _ := Nat.zero_le _
  produced := by simp [initial, State.drawn]
  conserved := by simp [initial, State.drawn, numbers, queue.values_initial, poppedValues]
  nonneg := Int.le_refl 0
  counted := by simp [initial, Consumer.uncounted, poppedValues]
  joinedProducers p joined := absurd joined (Nat.not_lt_zero _)
  done := rfl
  late := nofun
  emptied := nofun
  joinedConsumers := nofun

/-- The invariant holds throughout a run. -/
theorem inv_run (small : (producers * iterations : Nat) ≤ intMax)
    (run : (machine queue producers consumers iterations).Steps
      (initial queue producers consumers) events s) : Inv iterations events s := by
  refine run.traceInvariant inv_initial fun inv _ transition => ?_
  obtain ⟨choice, stepped⟩ := transition
  cases choice with
  | producer t answer => exact inv.producer small stepped
  | consumer t answer => exact inv.consumer small stepped
  | main => exact inv.main stepped

/-- Once all threads are joined, all numbers have been popped and counted. -/
theorem Inv.joined (inv : Inv iterations events s) (someConsumer : 0 < consumers)
    (atPrints : s.main.AtPrints consumers) :
    s.producerCount = (producers * iterations : Nat) ∧
      s.consumerCount = (producers * iterations : Nat) ∧
      numbers (producers * iterations) = (poppedValues events : Multiset Int) ∧
      queue.values s.contents = 0 := by
  have producersEnded : ∀ p, s.producer p = .finished := by
    refine fun p => inv.joinedProducers p ?_
    cases at_ : s.main with
    | joinProducers i => simp [at_, Main.AtPrints] at atPrints
    | _ => trivial
  have consumersEnded : ∀ c, s.consumer c = .finished := by
    refine fun c => inv.joinedConsumers c ?_
    cases at_ : s.main with
    | joinProducers i => simp [at_, Main.AtPrints] at atPrints
    | joinConsumers i =>
        rw [at_] at atPrints
        exact Nat.lt_of_lt_of_le c.isLt atPrints
    | _ => trivial
  have drawn : s.drawn iterations = producers * iterations := by
    simp [State.drawn, producersEnded]
  have empty := inv.emptied ⟨0, someConsumer⟩ (consumersEnded _)
  have conserved := inv.conserved
  have counted := inv.counted
  simp only [drawn, empty, producersEnded, Producer.hand_finished, Finset.sum_const_zero,
    zero_add] at conserved
  simp only [consumersEnded, Consumer.uncounted, Finset.sum_const_zero, Nat.cast_zero,
    add_zero] at counted
  have sizes := congrArg Multiset.card conserved
  rw [card_numbers, Multiset.coe_card] at sizes
  exact ⟨by rw [inv.produced, drawn], by rw [counted, ← sizes], conserved, empty⟩

/-- Only `main` prints. -/
theorem main_of_print {choice : Choice queue producers consumers}
    {event : Event producers consumers} {after : State queue producers consumers} {count : Int}
    (stepped : step? iterations s choice = some (event, after))
    (printed : event = .printedProduced count ∨ event = .printedConsumed count) :
    stepMain s = some (event, after) := by
  cases choice with
  | main => exact stepped
  | producer t answer =>
      refine absurd stepped ?_
      rcases printed with rfl | rfl
      all_goals
        simp only [step?, stepProducer]
        split
        · split <;> simp
        · split <;> simp
        · simp
  | consumer t answer =>
      refine absurd stepped ?_
      rcases printed with rfl | rfl
      all_goals
        simp only [step?, stepConsumer, popStep, countStep]
        split
        case h_2 | h_4 => split <;> simp
        all_goals simp

/-- `main` prints `producer_count` after it has joined all threads. -/
theorem stepMain_printedProduced {count : Int} {after : State queue producers consumers}
    (stepped : stepMain s = some (.printedProduced count, after)) :
    s.main.AtPrints consumers ∧ s.producerCount = count := by
  unfold stepMain at stepped
  split at stepped
  · split at stepped
    · split at stepped <;> simp at stepped
    · simp at stepped
  case h_2 i at_ =>
    split at stepped
    · split at stepped <;> simp at stepped
    · simp only [Option.some.injEq, Prod.mk.injEq, Event.printedProduced.injEq] at stepped
      exact ⟨at_ ▸ Nat.le_of_not_lt ‹_›, stepped.1⟩
  all_goals simp at stepped

/-- `main` prints `consumer_count` after it has joined all threads. -/
theorem stepMain_printedConsumed {count : Int} {after : State queue producers consumers}
    (stepped : stepMain s = some (.printedConsumed count, after)) :
    s.main.AtPrints consumers ∧ s.consumerCount = count := by
  unfold stepMain at stepped
  split at stepped
  case h_3 at_ =>
    simp only [Option.some.injEq, Prod.mk.injEq, Event.printedConsumed.injEq] at stepped
    exact ⟨at_ ▸ trivial, stepped.1⟩
  case h_4 => cases stepped
  all_goals
    split at stepped
    · split at stepped <;> simp at stepped
    · simp at stepped

/-- The driver loses and duplicates nothing: in every run that reaches the final
prints both counters show `producers * iterations`, each of the numbers up to it
has been popped once, and the queue is empty. -/
theorem driver_conserves (someConsumer : 0 < consumers)
    (small : (producers * iterations : Nat) ≤ intMax)
    (run : (machine queue producers consumers iterations).Steps
      (initial queue producers consumers) events s) :
    (s.main.AtPrints consumers →
      s.producerCount = (producers * iterations : Nat) ∧
      s.consumerCount = (producers * iterations : Nat) ∧
      (poppedValues events).Perm
        ((List.range (producers * iterations)).map fun i : Nat => (i : Int) + 1) ∧
      queue.values s.contents = 0) ∧
    ∀ count : Int, .printedProduced count ∈ events ∨ .printedConsumed count ∈ events →
      count = (producers * iterations : Nat) := by
  constructor
  · intro atPrints
    obtain ⟨produced, consumed, popped, empty⟩ :=
      (inv_run small run).joined someConsumer atPrints
    exact ⟨produced, consumed, Multiset.coe_eq_coe.mp popped.symm, empty⟩
  · rintro count (printed | printed)
    all_goals
      obtain ⟨earlier, later, parts⟩ := List.append_of_mem printed
      obtain ⟨before, after, prior, ⟨choice, stepped⟩, -, -⟩ := run.stepAt parts
      have joined := (inv_run small prior).joined someConsumer
    · obtain ⟨atPrints, same⟩ :=
        stepMain_printedProduced (main_of_print stepped (.inl rfl))
      rw [← same]
      exact (joined atPrints).1
    · obtain ⟨atPrints, same⟩ :=
        stepMain_printedConsumed (main_of_print stepped (.inr rfl))
      rw [← same]
      exact (joined atPrints).2.1

/-- A first-in first-out queue whose `push` gets a node when the answer says so. -/
def fifo : Queue where
  Contents := List Int
  Answer := Bool
  initial := []
  push contents value answer :=
    if answer then (true, contents ++ [value]) else (false, contents)
  pop
    | [], _ => (none, [])
    | value :: contents, _ => (some value, contents)
  values contents := (contents : Multiset Int)
  values_initial := rfl
  push_succeeds {contents value answer} succeeds := by
    cases answer with
    | true => exact Multiset.coe_eq_coe.mpr (List.perm_append_singleton _ _)
    | false => simp at succeeds
  push_fails {contents value answer} fails := by
    cases answer with
    | true => simp at fails
    | false => rfl
  pop_succeeds {contents answer value} succeeds := by
    cases contents with
    | nil => simp at succeeds
    | cons first rest =>
        simp only [Option.some.injEq] at succeeds
        subst succeeds
        rfl
  pop_fails {contents answer} fails := by
    cases contents with
    | nil => exact ⟨rfl, rfl⟩
    | cons first rest => simp at fails

/-- Two producers whose numbers cross, a `push` that fails, and two consumers, one
of which finds the queue empty before the last number is pushed. -/
theorem driver_conserves_run : ∃ events s,
    (machine fifo 2 2 2).Steps (initial fifo 2 2) events s ∧ s.main.AtPrints 2 ∧
      s.producerCount = 4 ∧ s.consumerCount = 4 ∧ (poppedValues events).Perm [1, 2, 3, 4] := by
  have ran : ∃ events s, (machine fifo 2 2 2).Steps (initial fifo 2 2) events s ∧
      s.main.AtPrints 2 := System.exists_steps
    [.producer 0 true, .producer 1 true, .producer 1 false, .producer 1 true,
      .consumer 0 true, .consumer 0 true, .consumer 0 true, .consumer 0 true, .consumer 1 true,
      .producer 0 true, .producer 0 true, .producer 0 true, .producer 0 true,
      .producer 1 true, .producer 1 true, .producer 1 true, .main, .main, .main,
      .consumer 1 true, .consumer 1 true, .consumer 0 true, .consumer 0 true, .consumer 0 true,
      .consumer 0 true, .consumer 0 true, .consumer 0 true, .consumer 1 true, .consumer 1 true,
      .consumer 1 true, .main, .main, .main, .main] (by decide +kernel)
  obtain ⟨events, s, run, atPrints⟩ := ran
  obtain ⟨produced, consumed, popped, -⟩ :=
    (driver_conserves (by decide) (by decide) run).1 atPrints
  exact ⟨events, s, run, atPrints, produced, consumed, popped⟩

end LockFree.Boost
