import LockFree.Semantics.Execution
import Mathlib.Algebra.Group.Int.Defs
import Mathlib.Algebra.Group.Nat.Defs
import Mathlib.Data.Multiset.Basic
import Mathlib.Logic.Function.Basic

/-!
# The driver of `boost_queue.cpp`

Producers draw numbers from a shared counter and push them, consumers pop and
count, and `main` joins the producers, sets `done` and joins the consumers.

The queue itself is not part of the program. `Queue` is what its documentation
promises: operations that take effect at one instant, a `push` that may return
`false` without effect, and a `pop` that returns `false` on an empty queue only.
-/

namespace LockFree.Boost

/-- `boost::lockfree::queue<int>`. `Answer` is what the calling program leaves
open, such as whether a `push` gets a node. -/
structure Queue where
  Contents : Type
  Answer : Type
  initial : Contents
  push : Contents → Int → Answer → Bool × Contents
  pop : Contents → Answer → Option Int × Contents
  /-- The values in the queue. -/
  values : Contents → Multiset Int
  values_initial : values initial = 0
  push_succeeds : ∀ {contents value answer}, (push contents value answer).1 = true →
    values (push contents value answer).2 = value ::ₘ values contents
  push_fails : ∀ {contents value answer}, (push contents value answer).1 = false →
    values (push contents value answer).2 = values contents
  pop_succeeds : ∀ {contents answer value}, (pop contents answer).1 = some value →
    values contents = value ::ₘ values (pop contents answer).2
  pop_fails : ∀ {contents answer}, (pop contents answer).1 = none →
    values contents = 0 ∧ values (pop contents answer).2 = 0

/-- Where a thread stands in `producer`. -/
inductive Producer where
  /-- About to evaluate `i != iterations`, and `++producer_count` if it holds. -/
  | loop (i : Nat)
  /-- About to evaluate `queue.push(value)`. -/
  | push (i : Nat) (value : Int)
  | finished
deriving DecidableEq, Repr

/-- Where a thread stands in `consumer`. -/
inductive Consumer where
  /-- About to read `done`. -/
  | checkDone
  /-- About to evaluate `queue.pop(value)` while not `done`. -/
  | poll
  /-- About to perform `++consumer_count` while not `done`. -/
  | countPolled
  /-- About to evaluate `queue.pop(value)` after `done`. -/
  | drain
  /-- About to perform `++consumer_count` after `done`. -/
  | countDrained
  | finished
deriving DecidableEq, Repr

/-- Where `main` stands, once it has started all threads. -/
inductive Main where
  /-- About to join a producer, or to set `done` when all are joined. -/
  | joinProducers (i : Nat)
  /-- About to join a consumer, or to print `producer_count` when all are joined. -/
  | joinConsumers (i : Nat)
  /-- About to print `consumer_count`. -/
  | printConsumed
  | finished
deriving DecidableEq, Repr

/-- The shared variables and all threads. -/
structure State (queue : Queue) (producers consumers : Nat) where
  producerCount : Int
  consumerCount : Int
  contents : queue.Contents
  done : Bool
  producer : Fin producers → Producer
  consumer : Fin consumers → Consumer
  main : Main

/-- What one step shows. -/
inductive Event (producers consumers : Nat) where
  | drew (producer : Fin producers) (value : Int)
  | pushed (producer : Fin producers) (value : Int)
  | pushFailed (producer : Fin producers)
  | producerEnded (producer : Fin producers)
  | readDone (consumer : Fin consumers) (value : Bool)
  | popped (consumer : Fin consumers) (value : Int)
  | foundEmpty (consumer : Fin consumers)
  | counted (consumer : Fin consumers)
  | joinedProducer (producer : Fin producers)
  | setDone
  | joinedConsumer (consumer : Fin consumers)
  | printedProduced (count : Int)
  | printedConsumed (count : Int)
deriving DecidableEq, Repr

/-- Which thread takes its next step, and what the queue answers. -/
inductive Choice (queue : Queue) (producers consumers : Nat) where
  | producer (thread : Fin producers) (answer : queue.Answer)
  | consumer (thread : Fin consumers) (answer : queue.Answer)
  | main

/-- `++` on an `atomic_int`, which wraps around. -/
def increment (count : Int) : Int := (count + 1).bmod (2 ^ 32)

/-- The largest `int`. -/
def intMax : Int := 2 ^ 31 - 1

variable {queue : Queue} {producers consumers : Nat}

/-- The next step of a thread in `producer`. -/
def stepProducer (iterations : Nat) (s : State queue producers consumers) (t : Fin producers)
    (answer : queue.Answer) :
    Option (Event producers consumers × State queue producers consumers) :=
  match s.producer t with
  | .loop i =>
      if i ≠ iterations then
        let value := increment s.producerCount
        some (.drew t value, { s with
          producerCount := value
          producer := Function.update s.producer t (.push i value) })
      else
        some (.producerEnded t, { s with producer := Function.update s.producer t .finished })
  | .push i value =>
      match queue.push s.contents value answer with
      | (true, contents) =>
          some (.pushed t value, { s with
            contents, producer := Function.update s.producer t (.loop (i + 1)) })
      | (false, contents) => some (.pushFailed t, { s with contents })
  | .finished => none

/-- `queue.pop(value)` in a thread in `consumer`. -/
def popStep (s : State queue producers consumers) (t : Fin consumers) (answer : queue.Answer)
    (found empty : Consumer) : Event producers consumers × State queue producers consumers :=
  match queue.pop s.contents answer with
  | (some value, contents) =>
      (.popped t value, { s with contents, consumer := Function.update s.consumer t found })
  | (none, contents) =>
      (.foundEmpty t, { s with contents, consumer := Function.update s.consumer t empty })

/-- `++consumer_count` in a thread in `consumer`. -/
def countStep (s : State queue producers consumers) (t : Fin consumers) (next : Consumer) :
    Event producers consumers × State queue producers consumers :=
  (.counted t, { s with
    consumerCount := increment s.consumerCount
    consumer := Function.update s.consumer t next })

/-- The next step of a thread in `consumer`. -/
def stepConsumer (s : State queue producers consumers) (t : Fin consumers)
    (answer : queue.Answer) :
    Option (Event producers consumers × State queue producers consumers) :=
  match s.consumer t with
  | .checkDone =>
      some (.readDone t s.done, { s with
        consumer := Function.update s.consumer t (if s.done then .drain else .poll) })
  | .poll => some (popStep s t answer .countPolled .checkDone)
  | .countPolled => some (countStep s t .poll)
  | .drain => some (popStep s t answer .countDrained .finished)
  | .countDrained => some (countStep s t .drain)
  | .finished => none

/-- The next step of `main`. -/
def stepMain (s : State queue producers consumers) :
    Option (Event producers consumers × State queue producers consumers) :=
  match s.main with
  | .joinProducers i =>
      if bound : i < producers then
        if s.producer ⟨i, bound⟩ = .finished then
          some (.joinedProducer ⟨i, bound⟩, { s with main := .joinProducers (i + 1) })
        else none
      else some (.setDone, { s with done := true, main := .joinConsumers 0 })
  | .joinConsumers i =>
      if bound : i < consumers then
        if s.consumer ⟨i, bound⟩ = .finished then
          some (.joinedConsumer ⟨i, bound⟩, { s with main := .joinConsumers (i + 1) })
        else none
      else some (.printedProduced s.producerCount, { s with main := .printConsumed })
  | .printConsumed => some (.printedConsumed s.consumerCount, { s with main := .finished })
  | .finished => none

/-- One atomic step. -/
def step? (iterations : Nat) (s : State queue producers consumers) :
    Choice queue producers consumers →
      Option (Event producers consumers × State queue producers consumers)
  | .producer t answer => stepProducer iterations s t answer
  | .consumer t answer => stepConsumer s t answer
  | .main => stepMain s

/-- The program. -/
def machine (queue : Queue) (producers consumers iterations : Nat) :
    System (State queue producers consumers) (Event producers consumers) :=
  .ofStep? (step? iterations)

/-- All threads are started. -/
def initial (queue : Queue) (producers consumers : Nat) : State queue producers consumers where
  producerCount := 0
  consumerCount := 0
  contents := queue.initial
  done := false
  producer _ := .loop 0
  consumer _ := .checkDone
  main := .joinProducers 0

/-- `main` has joined all threads. -/
def Main.AtPrints (consumers : Nat) : Main → Prop
  | .joinProducers _ => False
  | .joinConsumers i => consumers ≤ i
  | .printConsumed | .finished => True

instance (consumers : Nat) : (main : Main) → Decidable (main.AtPrints consumers)
  | .joinProducers _ => inferInstanceAs (Decidable False)
  | .joinConsumers i => inferInstanceAs (Decidable (consumers ≤ i))
  | .printConsumed | .finished => inferInstanceAs (Decidable True)

/-- The values popped, in order. -/
def poppedValues (events : List (Event producers consumers)) : List Int :=
  events.filterMap fun
    | .popped _ value => some value
    | _ => none

end LockFree.Boost
