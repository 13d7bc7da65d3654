import LockFree.Semantics.Execution
import Mathlib.Algebra.BigOperators.Group.List.Defs
import Mathlib.Algebra.GroupWithZero.Nat

/-!
# Lives along a trace

What a program makes and destroys has a life, and the events of a run take it on: a
function from a life and an event to the life after the event, which is undefined when
the event comes out of order. A trace that is in order is one along which the lives
exist. What each event adds to the beginnings and to the ends adds up along such a
trace, and a run has a life if each of its steps takes the life of a state on.
-/

namespace LockFree

variable {State Event Life : Type*} {after : Life → Event → Option Life}

/-- A count is a sum of ones. -/
theorem countP_eq_sum (holds : Event → Bool) (events : List Event) :
    events.countP holds = (events.map fun event => if holds event then 1 else 0).sum := by
  induction events with
  | nil => rfl
  | cons event events inductionHypothesis =>
      rw [List.countP_cons, inductionHypothesis, List.map_cons, List.sum_cons, Nat.add_comm]

/-- Whatever begins along a trace in order ends, or is there after it; whatever ends has
begun, or was there before it. -/
theorem begun_eq_ended {begins ends : Event → Nat} {weight : Life → Nat} {events : List Event}
    {life life' : Life} (single : ∀ {life event life'}, after life event = some life' →
      begins event + weight life = ends event + weight life')
    (known : events.foldlM after life = some life') :
    (events.map begins).sum + weight life = (events.map ends).sum + weight life' := by
  induction events generalizing life with
  | nil =>
      cases known
      rfl
  | cons event events inductionHypothesis =>
      rw [List.foldlM_cons] at known
      obtain ⟨middle, taken, rest⟩ := Option.bind_eq_some_iff.mp known
      have whole := inductionHypothesis rest
      have first := single taken
      simp only [List.map_cons, List.sum_cons]
      omega

/-- A run takes a life on if its steps do. -/
theorem System.StepsWhere.life {system : System State Event} {admits : State → Event → Prop}
    {start finish : State} {earlier events : List Event} {born life : Life}
    (run : system.StepsWhere admits start events finish) (Fits : State → Life → Prop)
    (known : earlier.foldlM after born = some life) (fits : Fits start life)
    (step : ∀ {trace current event next life}, system.StepsWhere admits start trace current →
      admits current event → system.Step current event next → Fits current life →
      ∃ life', after life event = some life' ∧ Fits next life') :
    ∃ life', (earlier ++ events).foldlM after born = some life' ∧ Fits finish life' := by
  induction run with
  | refl => exact ⟨life, by simpa using known, fits⟩
  | step prior transition admitted inductionHypothesis =>
      obtain ⟨between, knownBetween, fitsBetween⟩ := inductionHypothesis
      obtain ⟨life', taken, fits'⟩ := step prior admitted transition fitsBetween
      refine ⟨life', ?_, fits'⟩
      rw [← List.append_assoc, List.foldlM_append, knownBetween]
      simpa using taken

end LockFree
