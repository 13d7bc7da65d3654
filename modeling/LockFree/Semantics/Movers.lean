import Mathlib.Logic.Relation

/-!
# Scheduling at visible steps only

The steps of a thread are local or visible. A cooperative schedule lets a thread
go on until only a visible step is left to it, and switches threads nowhere else.
When local steps commute with the steps of other threads, except that either order
may go wrong, every schedule that goes wrong has a cooperative one that goes wrong
as well.
-/

namespace LockFree

open Relation

/-- Threads with local and visible steps, and the states where something has gone
wrong. -/
structure Threaded (State Thread : Type) where
  step : Thread → Bool → State → State → Prop
  Bad : State → Prop

namespace Threaded

variable {State Thread : Type} (threaded : Threaded State Thread)

/-- A thread has no local step. -/
def Idle (t : Thread) (s : State) : Prop := ∀ s', ¬ threaded.step t false s s'

/-- No thread has a local step. -/
def Settled (s : State) : Prop := ∀ t, threaded.Idle t s

/-- A step of some thread. -/
def Any (s s' : State) : Prop := ∃ t visible, threaded.step t visible s s'

/-- A local step of some thread. -/
def Local (s s' : State) : Prop := ∃ t, threaded.step t false s s'

/-- A turn of a thread: a visible step, and local steps until none is left. -/
def Turn (t : Thread) (s s' : State) : Prop :=
  ∃ middle, threaded.step t true s middle ∧ ReflTransGen (threaded.step t false) middle s' ∧
    threaded.Idle t s'

/-- Local steps move to the left of the steps of other threads. -/
structure Moves (Inv : State → Prop) : Prop where
  final : ∀ {s s' t visible}, threaded.Bad s → ¬ threaded.step t visible s s'
  keeps : ∀ {s s' t visible}, Inv s → threaded.step t visible s s' → Inv s'
  determined : ∀ {s s₁ s₂ t}, threaded.step t false s s₁ → threaded.step t false s s₂ → s₁ = s₂
  exclusive : ∀ {s s₁ s₂ t}, threaded.step t false s s₁ → ¬ threaded.step t true s s₂
  others : ∀ {s s' t u visible}, threaded.step t visible s s' → u ≠ t → threaded.Idle u s →
    threaded.Idle u s'
  settles : ∀ s t, ∃ s', ReflTransGen (threaded.step t false) s s' ∧ threaded.Idle t s'
  commutes : ∀ {s s₁ s₂ t u visible}, Inv s → t ≠ u → threaded.step u false s s₁ →
    threaded.step t visible s s₂ → threaded.Bad s₁ ∨ ∃ s₃, threaded.step t visible s₁ s₃ ∧
      (threaded.Bad s₃ ∨ ¬ threaded.Bad s₂ ∧ threaded.step u false s₂ s₃)

namespace Moves

variable {threaded} {Inv : State → Prop} {s s' d : State} {t : Thread}

/-- Local steps do not lead out of a bad state. -/
theorem not_bad (moves : threaded.Moves Inv) (locals : ReflTransGen threaded.Local s d)
    (fine : ¬ threaded.Bad d) : ¬ threaded.Bad s := by
  intro bad
  rcases locals.cases_head with rfl | ⟨_, ⟨_, first⟩, _⟩
  · exact fine bad
  · exact moves.final bad first

/-- Steps of one thread leave the others without local steps. -/
theorem settled_of_turn (moves : threaded.Moves Inv) (settled : threaded.Settled s)
    (turn : threaded.Turn t s s') : threaded.Settled s' := by
  obtain ⟨middle, visible, locals, idle⟩ := turn
  intro u
  by_cases same : u = t
  · subst same
    exact idle
  · have atMiddle : threaded.Idle u middle := moves.others visible same (settled u)
    clear visible idle
    induction locals with
    | refl => exact atMiddle
    | tail _ last inductionHypothesis => exact moves.others last same inductionHypothesis

/-- A local step is one of those that settle the state. -/
theorem absorbs (moves : threaded.Moves Inv) (inv : Inv s)
    (locals : ReflTransGen threaded.Local s d) (settled : threaded.Settled d)
    (fine : ¬ threaded.Bad d) (step : threaded.step t false s s') :
    ¬ threaded.Bad s' ∧ ReflTransGen threaded.Local s' d := by
  induction locals using ReflTransGen.head_induction_on generalizing s' with
  | refl => exact absurd step (settled t s')
  | head first rest inductionHypothesis =>
      obtain ⟨u, first⟩ := first
      have fineNext := moves.not_bad rest fine
      by_cases same : t = u
      · subst same
        obtain rfl := moves.determined first step
        exact ⟨fineNext, rest⟩
      · obtain bad | ⟨both, further, outcome⟩ := moves.commutes inv same first step
        · exact absurd bad fineNext
        · obtain ⟨fineBoth, onward⟩ := inductionHypothesis (moves.keeps inv first) further
          obtain bad | ⟨fineStep, last⟩ := outcome
          · exact absurd bad fineBoth
          · exact ⟨fineStep, onward.head ⟨u, last⟩⟩

/-- A visible step can wait until the state is settled. -/
theorem defers (moves : threaded.Moves Inv) (inv : Inv s)
    (locals : ReflTransGen threaded.Local s d) (fine : ¬ threaded.Bad d)
    (step : threaded.step t true s s') :
    ∃ d', threaded.step t true d d' ∧
      (threaded.Bad d' ∨ ¬ threaded.Bad s' ∧ ReflTransGen threaded.Local s' d') := by
  induction locals using ReflTransGen.head_induction_on generalizing s' with
  | refl =>
      refine ⟨s', step, ?_⟩
      by_cases bad : threaded.Bad s'
      · exact .inl bad
      · exact .inr ⟨bad, .refl⟩
  | head first rest inductionHypothesis =>
      obtain ⟨u, first⟩ := first
      have fineNext := moves.not_bad rest fine
      have apart : t ≠ u := by
        rintro rfl
        exact moves.exclusive first step
      obtain bad | ⟨both, further, outcome⟩ := moves.commutes inv apart first step
      · exact absurd bad fineNext
      · obtain ⟨d', last, ends⟩ := inductionHypothesis (moves.keeps inv first) further
        refine ⟨d', last, ?_⟩
        rcases ends with bad | ⟨fineBoth, onward⟩
        · exact .inl bad
        · obtain bad | ⟨fineStep, moved⟩ := outcome
          · exact absurd bad fineBoth
          · exact .inr ⟨fineStep, onward.head ⟨u, moved⟩⟩

/-- **Reduction.** If some schedule goes wrong, so does a sequence of turns, from any
settled state that local steps lead to. -/
theorem turns_of_any (moves : threaded.Moves Inv) {b : State} (inv : Inv s)
    (run : ReflTransGen threaded.Any s b) (bad : threaded.Bad b)
    (locals : ReflTransGen threaded.Local s d) (settled : threaded.Settled d)
    (fine : ¬ threaded.Bad d) :
    ∃ e, ReflTransGen (fun before after => ∃ t, threaded.Turn t before after) d e ∧
      threaded.Bad e := by
  induction run using ReflTransGen.head_induction_on generalizing d with
  | refl => exact absurd bad (moves.not_bad locals fine)
  | head first _ inductionHypothesis =>
      obtain ⟨t, visible, step⟩ := first
      have invNext := moves.keeps inv step
      cases visible with
      | false =>
          obtain ⟨_, onward⟩ := moves.absorbs inv locals settled fine step
          exact inductionHypothesis invNext onward settled fine
      | true =>
          obtain ⟨d', last, ends⟩ := moves.defers inv locals fine step
          obtain ⟨d'', rest, idle⟩ := moves.settles d' t
          have turn : threaded.Turn t d d'' := ⟨d', last, rest, idle⟩
          by_cases badTurn : threaded.Bad d''
          · exact ⟨d'', .single ⟨t, turn⟩, badTurn⟩
          · have onward : ReflTransGen threaded.Local d' d'' :=
              ReflTransGen.mono (fun _ _ step => ⟨t, step⟩) _ _ rest
            have fineMiddle := moves.not_bad onward badTurn
            obtain bad | ⟨_, through⟩ := ends
            · exact absurd bad fineMiddle
            · obtain ⟨e, turns, badEnd⟩ := inductionHypothesis invNext (through.trans onward)
                (moves.settled_of_turn settled turn) badTurn
              exact ⟨e, turns.head ⟨t, turn⟩, badEnd⟩

end Moves

end Threaded

end LockFree
