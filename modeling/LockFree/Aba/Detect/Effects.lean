import LockFree.Aba.Detect.Machine
import LockFree.Aba.Raw.Invariant

/-!
# What a step of the detector does

A step on the stack is a step of the raw-pointer stack in which the heap and the
memory answer as `Provided` says.
-/

namespace LockFree.Aba.Detect

open Raw (Addr)

/-- What a step on the stack has been answered. -/
def Provided (s : State) : Raw.Event Who Int → Prop
  | .made t node => s.answers t node = true
  | .loaded _ value => value = s.stack.head
  | .readNext _ node value => value = (s.stack.memory node).link
  | _ => True

/-- The forms a step can take. -/
inductive Effect (s : State) : Event → State → Prop where
  | stack {event stack} (ready : s.ready event.thread = true)
      (effect : Raw.Effect s.stack event stack) (provided : Provided s event) :
      Effect s (.stack event) { s with stack, freed := freedAfter s.freed event }
  | constructed {node} (at_ : s.atConstruct = true) (first : s.n = none)
      (answers : s.answers .t2 node = true) (fresh : s.stack.view node = none) :
      Effect s (.constructed node) (construct s node).2

section Provided

variable {s : State} {t : Who} {event : Raw.Event Who Int} {stack : Raw.State Who Int}

theorem exchangePush_provided {data : Int} {n : Addr} {spurious : Bool}
    (taken : Raw.exchangePush s.stack t data n spurious = (event, stack)) :
    event.thread = t ∧ Provided s event := by
  unfold Raw.exchangePush at taken
  split at taken
  · split at taken <;> (cases taken; exact ⟨rfl, trivial⟩)
  · cases taken
    exact ⟨rfl, trivial⟩

theorem exchangePop_provided {a : Addr} {next : Option Addr} {spurious : Bool}
    (taken : Raw.exchangePop s.stack t a next spurious = (event, stack)) :
    event.thread = t ∧ Provided s event := by
  unfold Raw.exchangePop at taken
  split at taken <;> (cases taken; exact ⟨rfl, trivial⟩)

theorem run_provided (taken : Raw.run s.stack t = some (event, stack)) :
    event.thread = t ∧ Provided s event := by
  unfold Raw.run at taken
  split at taken
  · split at taken
    · cases taken
    · cases taken
      exact ⟨rfl, trivial⟩
  · cases taken
  · cases taken
  · simp only [Option.some.injEq, Raw.assignNext] at taken
    split at taken <;> (cases taken; exact ⟨rfl, trivial⟩)
  · exact exchangePush_provided (Option.some.inj taken)
  · cases taken
    exact ⟨rfl, rfl⟩
  · cases taken
    exact ⟨rfl, trivial⟩
  · split at taken
    · next data next block =>
        cases taken
        refine ⟨rfl, ?_⟩
        simp [Provided, block, Raw.Block.link]
    · cases taken
  · exact exchangePop_provided (Option.some.inj taken)
  · simp only [Option.some.injEq, Raw.moveData] at taken
    split at taken <;> (cases taken; exact ⟨rfl, trivial⟩)
  · simp only [Option.some.injEq, Raw.deleteNode] at taken
    split at taken <;> (cases taken; exact ⟨rfl, trivial⟩)
  · cases taken
    exact ⟨rfl, trivial⟩

/-- A step on the stack is taken by the thread chosen, with the answers provided. -/
theorem provided_of_step {choice : Raw.Choice Who} (provides : s.provides choice = true)
    (taken : Raw.step? s.stack choice = some (event, stack)) :
    event.thread = choice.thread ∧ Provided s event := by
  rw [Raw.step?.eq_def] at taken
  split at taken
  · cases taken
  cases choice with
  | run t => exact run_provided taken
  | allocate t node =>
      simp only at taken
      split at taken
      · unfold Raw.allocate at taken
        split at taken
        · cases taken
        · cases taken
          exact ⟨rfl, provides⟩
      · cases taken
  | see t value =>
      simp only at taken
      split at taken
      · split at taken
        · cases taken
          exact ⟨rfl, by simpa [State.provides, Provided] using provides⟩
        · cases taken
      · cases taken
  | stale t value =>
      simp only at taken
      split at taken
      · next a pc =>
          split at taken
          · cases taken
          · cases taken
            refine ⟨rfl, ?_⟩
            simpa [State.provides, Provided, pc] using provides
      · cases taken
  | spurious t =>
      simp only at taken
      split at taken
      · split at taken
        · exact exchangePush_provided (Option.some.inj taken)
        · cases taken
      · split at taken
        · exact exchangePop_provided (Option.some.inj taken)
        · cases taken
      · cases taken

end Provided

/-- Every step is one of the effects. -/
theorem step_effect {s s' : State} {event : Event} (transition : machine.Step s event s') :
    Effect s event s' := by
  obtain ⟨choice, taken⟩ := transition
  cases choice with
  | stack choice =>
      rw [step?] at taken
      split at taken
      · next conditions =>
          obtain ⟨ready, provides⟩ := Bool.and_eq_true_iff.mp conditions
          obtain ⟨⟨raw, stack⟩, step, same⟩ := Option.map_eq_some_iff.mp taken
          cases same
          obtain ⟨thread, provided⟩ := provided_of_step provides step
          exact .stack (thread ▸ ready) (Raw.step_effect ⟨choice, step⟩).2 provided
      · cases taken
  | construct node =>
      rw [step?] at taken
      split at taken
      · next conditions =>
          cases taken
          simp only [Bool.and_eq_true, Option.isNone_iff_eq_none] at conditions
          obtain ⟨⟨⟨⟨at_, first⟩, answers⟩, fresh⟩, _⟩ := conditions
          exact .constructed at_ first answers fresh
      · cases taken

end LockFree.Aba.Detect
