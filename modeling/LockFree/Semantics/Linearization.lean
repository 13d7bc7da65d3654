import LockFree.Semantics.Execution
import Mathlib.Logic.Function.Basic
import Mathlib.Data.List.Perm.Subperm

/-!
# Linearization by instants

A sequential object is a relation `Applies object operation result object'`. A
history, the calls and returns of a concurrent run in order, linearizes to an
object when every call can be given one instant between its call and its return
such that the operations, applied in the order of their instants, are a run of
the object with the results the calls returned.

The instants are data of the marked history, and `atomic` is the system that
accepts a marked history: a call, its instant and its return must follow one
another in the calling thread, and the instant is where the object changes.
-/

namespace LockFree.Linearization

universe u v w x

/-- What an observer sees of a call. -/
inductive Action (Tid : Type u) (Op : Type v) (Res : Type w) where
  | call (thread : Tid) (op : Op)
  | ret (thread : Tid) (result : Res)

/-- A history in which every operation also has the instant it takes effect. -/
inductive Mark (Tid : Type u) (Op : Type v) (Res : Type w) where
  | call (thread : Tid) (op : Op)
  | instant (thread : Tid) (op : Op) (result : Res)
  | ret (thread : Tid) (result : Res)

/-- How far the current call of one thread has come. -/
inductive Phase (Op : Type v) (Res : Type w) where
  | idle
  | pending (op : Op)
  | settled (result : Res)
deriving DecidableEq

/-- One while a call is in progress. -/
def Phase.busy {Op : Type v} {Res : Type w} : Phase Op Res → Nat
  | .idle => 0
  | _ => 1

/-- The object together with the phase of every thread's call. -/
structure Config (Tid : Type u) (Op : Type v) (Res : Type w) (Object : Type x) where
  object : Object
  phase : Tid → Phase Op Res

variable {Tid : Type u} {Op : Type v} {Res : Type w} {Object : Type x}

/-- Erase the instants. -/
def Mark.visible : Mark Tid Op Res → Option (Action Tid Op Res)
  | .call thread op => some (.call thread op)
  | .instant _ _ _ => none
  | .ret thread result => some (.ret thread result)

variable [DecidableEq Tid]

/-- One mark. The object changes at the instants only. -/
inductive Accepts (Applies : Object → Op → Res → Object → Prop) :
    Config Tid Op Res Object → Mark Tid Op Res → Config Tid Op Res Object → Prop where
  | call {config thread op} (idle : config.phase thread = .idle) :
      Accepts Applies config (.call thread op)
        ⟨config.object, Function.update config.phase thread (.pending op)⟩
  | instant {config thread op result object} (pending : config.phase thread = .pending op)
      (applies : Applies config.object op result object) :
      Accepts Applies config (.instant thread op result)
        ⟨object, Function.update config.phase thread (.settled result)⟩
  | ret {config thread result} (settled : config.phase thread = .settled result) :
      Accepts Applies config (.ret thread result)
        ⟨config.object, Function.update config.phase thread .idle⟩

/-- The system of well-formed marked histories of an object. -/
def atomic (Applies : Object → Op → Res → Object → Prop) :
    System (Config Tid Op Res Object) (Mark Tid Op Res) where
  Step := Accepts Applies

/-- `marks` puts the instants into `history` and leads from the initial object,
with no call in progress, to `final`. -/
structure Linearizes (Applies : Object → Op → Res → Object → Prop) (initial : Object)
    (history : List (Action Tid Op Res)) (marks : List (Mark Tid Op Res))
    (final : Config Tid Op Res Object) : Prop where
  accepted : (atomic Applies).Steps ⟨initial, fun _ => .idle⟩ marks final
  erased : marks.filterMap Mark.visible = history

variable {Applies : Object → Op → Res → Object → Prop}

/-- An object that allows more explains the history as well. -/
theorem Linearizes.mono {Applies' : Object → Op → Res → Object → Prop} {initial : Object}
    {history : List (Action Tid Op Res)} {marks : List (Mark Tid Op Res)}
    {final : Config Tid Op Res Object} (linearizes : Linearizes Applies initial history marks final)
    (more : ∀ object op result object', Applies object op result object' →
      Applies' object op result object') :
    Linearizes Applies' initial history marks final where
  accepted := by
    have accepted := linearizes.accepted
    clear linearizes
    induction accepted with
    | refl => exact .refl
    | step prior transition _ inductionHypothesis =>
        refine System.Steps.snoc inductionHypothesis ?_
        cases transition with
        | call idle => exact .call idle
        | instant pending applies => exact .instant pending (more _ _ _ _ applies)
        | ret settled => exact .ret settled
  erased := linearizes.erased

/-- What one event contributes to a history. -/
theorem filterMap_single {α β : Type*} (f : α → Option β) (a : α) :
    [a].filterMap f = (f a).toList := by
  cases found : f a <;> simp [found]

/-- How the steps of a system are matched by marks: `Represents` relates a state
to the object it stands for and `phaseOf` reads off the phases. -/
structure Simulation {State : Type*} {Event : Type*} (system : System State Event)
    (admits : State → Event → Prop) (Applies : Object → Op → Res → Object → Prop)
    (action : Event → Option (Action Tid Op Res)) where
  Represents : State → Object → Prop
  phaseOf : State → Tid → Phase Op Res
  matched : ∀ {before event after object}, Represents before object → admits before event →
    system.Step before event after → ∃ marks object',
      (atomic Applies).Steps ⟨object, phaseOf before⟩ marks ⟨object', phaseOf after⟩ ∧
      marks.filterMap Mark.visible = (action event).toList ∧ Represents after object'

/-- A simulated run linearizes to the object its last state stands for. -/
theorem Simulation.linearizes {State : Type*} {Event : Type*} {system : System State Event}
    {admits : State → Event → Prop} {action : Event → Option (Action Tid Op Res)}
    (simulation : Simulation system admits Applies action)
    {start finish : State} {events : List Event} {initial : Object}
    (run : system.StepsWhere admits start events finish)
    (represented : simulation.Represents start initial)
    (idle : ∀ thread, simulation.phaseOf start thread = .idle) :
    ∃ marks object, simulation.Represents finish object ∧
      Linearizes Applies initial (events.filterMap action) marks
        ⟨object, simulation.phaseOf finish⟩ := by
  induction run with
  | refl =>
      have phases : simulation.phaseOf start = fun _ => .idle := funext idle
      exact ⟨[], initial, represented, by rw [phases]; exact .refl, rfl⟩
  | step prior transition admitted inductionHypothesis =>
      obtain ⟨marks, object, represents, accepted, erased⟩ := inductionHypothesis
      obtain ⟨more, object', moreAccepted, moreErased, represents'⟩ :=
        simulation.matched represents admitted transition
      refine ⟨marks ++ more, object', represents', accepted.trans moreAccepted, ?_⟩
      rw [List.filterMap_append, List.filterMap_append, erased, moreErased, filterMap_single]

/-! ### Marks that a step of a program contributes -/

section Marks

variable {object object' : Object} {phase phase' : Tid → Phase Op Res} {thread : Tid} {op : Op}
  {result : Res}

/-- No mark: nothing visible happened and no phase changed. -/
theorem accepts_none (others : ∀ u, u ≠ thread → phase' u = phase u)
    (own : phase' thread = phase thread) :
    (atomic Applies).Steps ⟨object, phase⟩ [] ⟨object, phase'⟩ := by
  have same : phase' = phase := by
    rw [Function.eq_update_iff.mpr ⟨own, others⟩, Function.update_eq_self]
  exact same ▸ .refl

/-- A thread with no call in progress starts one. -/
theorem accepts_call (idle : phase thread = .idle)
    (others : ∀ u, u ≠ thread → phase' u = phase u) (own : phase' thread = .pending op) :
    (atomic Applies).Steps ⟨object, phase⟩ [.call thread op] ⟨object, phase'⟩ := by
  rw [Function.eq_update_iff.mpr ⟨own, others⟩]
  exact System.Steps.snoc .refl (show Accepts Applies ⟨object, phase⟩ _ _ from .call idle)

/-- A pending call takes effect. -/
theorem accepts_instant (pending : phase thread = .pending op)
    (applies : Applies object op result object')
    (others : ∀ u, u ≠ thread → phase' u = phase u) (own : phase' thread = .settled result) :
    (atomic Applies).Steps ⟨object, phase⟩ [.instant thread op result] ⟨object', phase'⟩ := by
  rw [Function.eq_update_iff.mpr ⟨own, others⟩]
  exact System.Steps.snoc .refl
    (show Accepts Applies ⟨object, phase⟩ _ _ from .instant pending applies)

/-- A call that has taken effect returns. -/
theorem accepts_ret (settled : phase thread = .settled result)
    (others : ∀ u, u ≠ thread → phase' u = phase u) (own : phase' thread = .idle) :
    (atomic Applies).Steps ⟨object, phase⟩ [.ret thread result] ⟨object, phase'⟩ := by
  rw [Function.eq_update_iff.mpr ⟨own, others⟩]
  exact System.Steps.snoc .refl (show Accepts Applies ⟨object, phase⟩ _ _ from .ret settled)

end Marks

/-! ### The sequential run of the instants -/

/-- A run of the sequential object. -/
inductive Sequential (Applies : Object → Op → Res → Object → Prop) :
    Object → List (Op × Res) → Object → Prop where
  | nil {object} : Sequential Applies object [] object
  | snoc {start object object' trace op result} (prior : Sequential Applies start trace object)
      (applies : Applies object op result object') :
      Sequential Applies start (trace ++ [(op, result)]) object'

/-- The instant a mark records. -/
def Mark.instant? : Mark Tid Op Res → Option (Tid × Op × Res)
  | .instant thread op result => some (thread, op, result)
  | _ => none

/-- The call an action records. -/
def Action.call? : Action Tid Op Res → Option (Tid × Op)
  | .call thread op => some (thread, op)
  | .ret _ _ => none

/-- The return an action records. -/
def Action.ret? : Action Tid Op Res → Option (Tid × Res)
  | .ret thread result => some (thread, result)
  | .call _ _ => none

/-- The operations in the order of their instants are a sequential run. -/
theorem sequential_of_accepted {start final : Config Tid Op Res Object}
    {marks : List (Mark Tid Op Res)} (accepted : (atomic Applies).Steps start marks final) :
    Sequential Applies start.object ((marks.filterMap Mark.instant?).map Prod.snd)
      final.object := by
  induction accepted with
  | refl => exact .nil
  | step prior transition _ inductionHypothesis =>
      cases transition with
      | instant pending applies =>
          simpa [List.filterMap_cons, Mark.instant?] using
            Sequential.snoc inductionHypothesis applies
      | _ => simpa [List.filterMap_cons, Mark.instant?] using inductionHypothesis

section Counting

variable [DecidableEq Op] [DecidableEq Res] {marks : List (Mark Tid Op Res)}
  {start final : Config Tid Op Res Object}

/-- Every call has taken effect once or is still pending. -/
theorem calls_count (accepted : (atomic Applies).Steps start marks final)
    (idle : ∀ thread, start.phase thread = .idle) (thread : Tid) (op : Op) :
    ((marks.filterMap Mark.visible).filterMap Action.call?).count (thread, op) =
      ((marks.filterMap Mark.instant?).map fun i => (i.1, i.2.1)).count (thread, op) +
        (if final.phase thread = .pending op then 1 else 0) := by
  induction accepted with
  | refl => simp [idle]
  | step prior transition _ inductionHypothesis =>
      cases transition with
      | @call other op' isIdle =>
          by_cases same : other = thread
          · subst same
            simp [isIdle] at inductionHypothesis
            simp [List.filterMap_cons, Mark.instant?, Mark.visible, Action.call?,
              inductionHypothesis, List.count_singleton]
          · simp [List.filterMap_cons, Mark.instant?, Mark.visible, Action.call?,
              inductionHypothesis, Function.update_of_ne (Ne.symm same), same]
      | @instant other op' result object pending applies =>
          by_cases same : other = thread
          · subst same
            simp [pending] at inductionHypothesis
            simp [List.filterMap_cons, Mark.instant?, Mark.visible, Action.call?,
              inductionHypothesis, List.count_singleton]
          · simp [List.filterMap_cons, Mark.instant?, Mark.visible, Action.call?,
              inductionHypothesis, Function.update_of_ne (Ne.symm same), same]
      | @ret other result settled =>
          by_cases same : other = thread
          · subst same
            simp [settled] at inductionHypothesis
            simp [List.filterMap_cons, Mark.instant?, Mark.visible, Action.call?,
              inductionHypothesis]
          · simp [List.filterMap_cons, Mark.instant?, Mark.visible, Action.call?,
              inductionHypothesis, Function.update_of_ne (Ne.symm same)]

/-- Every instant belongs to a call that has returned its result or is about to. -/
theorem returns_count (accepted : (atomic Applies).Steps start marks final)
    (idle : ∀ thread, start.phase thread = .idle) (thread : Tid) (result : Res) :
    ((marks.filterMap Mark.visible).filterMap Action.ret?).count (thread, result) +
        (if final.phase thread = .settled result then 1 else 0) =
      ((marks.filterMap Mark.instant?).map fun i => (i.1, i.2.2)).count (thread, result) := by
  induction accepted with
  | refl => simp [idle]
  | step prior transition _ inductionHypothesis =>
      cases transition with
      | @call other op isIdle =>
          by_cases same : other = thread
          · subst same
            simp [isIdle] at inductionHypothesis
            simp [List.filterMap_cons, Mark.instant?, Mark.visible, Action.ret?,
              inductionHypothesis]
          · simp [List.filterMap_cons, Mark.instant?, Mark.visible, Action.ret?,
              ← inductionHypothesis, Function.update_of_ne (Ne.symm same)]
      | @instant other op result' object pending applies =>
          by_cases same : other = thread
          · subst same
            simp [pending] at inductionHypothesis
            simp [List.filterMap_cons, Mark.instant?, Mark.visible, Action.ret?,
              inductionHypothesis, List.count_singleton]
          · simp [List.filterMap_cons, Mark.instant?, Mark.visible, Action.ret?,
              ← inductionHypothesis, Function.update_of_ne (Ne.symm same), same]
      | @ret other result' settled =>
          by_cases same : other = thread
          · subst same
            simp [settled] at inductionHypothesis
            simp [List.filterMap_cons, Mark.instant?, Mark.visible, Action.ret?,
              ← inductionHypothesis, List.count_singleton]
          · simp [List.filterMap_cons, Mark.instant?, Mark.visible, Action.ret?,
              ← inductionHypothesis, Function.update_of_ne (Ne.symm same), same]

end Counting

section Multisets

variable {history : List (Action Tid Op Res)} {marks : List (Mark Tid Op Res)} {initial : Object}
  {final : Config Tid Op Res Object}

/-- What is returned took effect. -/
theorem Linearizes.returns_subperm (linearizes : Linearizes Applies initial history marks final) :
    (history.filterMap Action.ret?).Subperm
      ((marks.filterMap Mark.instant?).map fun i => (i.1, i.2.2)) := by
  classical
  rw [List.subperm_ext_iff]
  rintro ⟨thread, result⟩ _
  have count := returns_count linearizes.accepted (fun _ => rfl) thread result
  rw [linearizes.erased] at count
  omega

/-- What took effect was called. -/
theorem Linearizes.instants_subperm (linearizes : Linearizes Applies initial history marks final) :
    ((marks.filterMap Mark.instant?).map fun i => (i.1, i.2.1)).Subperm
      (history.filterMap Action.call?) := by
  classical
  rw [List.subperm_ext_iff]
  rintro ⟨thread, op⟩ _
  have count := calls_count linearizes.accepted (fun _ => rfl) thread op
  rw [linearizes.erased] at count
  omega

/-- With no call in progress, the returns are exactly the effects. -/
theorem Linearizes.returns_perm (linearizes : Linearizes Applies initial history marks final)
    (idle : ∀ thread, final.phase thread = .idle) :
    (history.filterMap Action.ret?).Perm
      ((marks.filterMap Mark.instant?).map fun i => (i.1, i.2.2)) := by
  classical
  rw [List.perm_iff_count]
  rintro ⟨thread, result⟩
  have count := returns_count linearizes.accepted (fun _ => rfl) thread result
  rw [linearizes.erased, idle, if_neg (by simp)] at count
  exact count

/-- With no call in progress, the calls are exactly the effects. -/
theorem Linearizes.calls_perm (linearizes : Linearizes Applies initial history marks final)
    (idle : ∀ thread, final.phase thread = .idle) :
    (history.filterMap Action.call?).Perm
      ((marks.filterMap Mark.instant?).map fun i => (i.1, i.2.1)) := by
  classical
  rw [List.perm_iff_count]
  rintro ⟨thread, op⟩
  have count := calls_count linearizes.accepted (fun _ => rfl) thread op
  rw [linearizes.erased, idle, if_neg (by simp)] at count
  exact count

/-- The number of calls a thread makes in a history. -/
def callsOf (history : List (Action Tid Op Res)) (thread : Tid) : Nat :=
  (history.filterMap Action.call?).countP fun call => call.1 = thread

/-- The number of returns a thread makes in a history. -/
def returnsOf (history : List (Action Tid Op Res)) (thread : Tid) : Nat :=
  (history.filterMap Action.ret?).countP fun ret => ret.1 = thread

@[simp] theorem callsOf_append (first second : List (Action Tid Op Res))
    (thread : Tid) :
    callsOf (first ++ second) thread = callsOf first thread + callsOf second thread := by
  simp [callsOf]

@[simp] theorem returnsOf_append (first second : List (Action Tid Op Res))
    (thread : Tid) :
    returnsOf (first ++ second) thread = returnsOf first thread + returnsOf second thread := by
  simp [returnsOf]

/-- A thread is in a call when it has made one call more than it has returned from. -/
theorem Linearizes.busy (linearizes : Linearizes Applies initial history marks final)
    (thread : Tid) :
    callsOf history thread =
      returnsOf history thread + (final.phase thread).busy := by
  rw [← linearizes.erased]
  have accepted := linearizes.accepted
  clear linearizes
  unfold callsOf returnsOf
  generalize started : (⟨initial, fun _ => .idle⟩ : Config Tid Op Res Object) = start at accepted
  induction accepted with
  | refl => subst started; rfl
  | step prior transition _ inductionHypothesis =>
      cases transition with
      | @call other op isIdle =>
          by_cases same : other = thread
          · subst same
            simp [isIdle, Phase.busy] at inductionHypothesis
            simp [List.filterMap_cons, Mark.visible, Action.ret?, Action.call?,
              inductionHypothesis, Phase.busy]
          · simp [List.filterMap_cons, Mark.visible, Action.ret?, Action.call?,
              inductionHypothesis, Function.update_of_ne (Ne.symm same), same]
      | @instant other op result object pending applies =>
          by_cases same : other = thread
          · subst same
            simp [pending, Phase.busy] at inductionHypothesis
            simp [List.filterMap_cons, Mark.visible, Action.ret?, inductionHypothesis, Phase.busy]
          · simp [List.filterMap_cons, Mark.visible, Action.ret?,
              inductionHypothesis, Function.update_of_ne (Ne.symm same)]
      | @ret other result settled =>
          by_cases same : other = thread
          · subst same
            simp [settled, Phase.busy] at inductionHypothesis
            simp [List.filterMap_cons, Mark.visible, Action.ret?, Action.call?,
              inductionHypothesis, Phase.busy]
          · simp [List.filterMap_cons, Mark.visible, Action.ret?, Action.call?,
              inductionHypothesis, Function.update_of_ne (Ne.symm same), same]

end Multisets

end LockFree.Linearization
