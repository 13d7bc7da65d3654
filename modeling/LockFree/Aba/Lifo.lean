import LockFree.Semantics.Linearization

/-!
# The sequential stack

What the stacks of the `aba` programs are for: a list of values, the top first.
`Lifo` is the object their concurrent runs are compared with. Where exceptions
can come from outside, a call that ends in one leaves the list as it is.
-/

namespace LockFree.Aba

open Linearization

/-- A call of `stack::push` or `stack::pop`. -/
inductive Call (T : Type) where
  | push (data : T)
  | pop
deriving DecidableEq, Repr

/-- How a call ends: `push` returns, `pop` returns a value, `pop` throws
`std::out_of_range`, or an exception of the element type or of the allocator
leaves the call. -/
inductive Result (T : Type) where
  | done
  | value (data : T)
  | outOfRange
  | threw
deriving DecidableEq, Repr

/-- The sequential stack, top first. -/
inductive Lifo {T : Type} (mayThrow : Bool) : List T → Call T → Result T → List T → Prop where
  | push {data stored} : Lifo mayThrow stored (.push data) .done (data :: stored)
  | pop {data stored} : Lifo mayThrow (data :: stored) .pop (.value data) stored
  | empty : Lifo mayThrow [] .pop .outOfRange []
  | threw {stored call} (may : mayThrow = true) : Lifo mayThrow stored call .threw stored

variable {Tid : Type} {T : Type} {mayThrow : Bool}

/-- The value a call asks to push. -/
def Call.pushing : Call T → Option T
  | .push data => some data
  | .pop => none

/-- The value a result hands out. -/
def Result.value? : Result T → Option T
  | .value data => some data
  | _ => none

/-- The value a successful push stores. -/
def stored? (taken : Call T × Result T) : Option T :=
  match taken.2 with
  | .done => taken.1.pushing
  | _ => none

/-- The values the returns of a history hand out, in order. -/
def returned (history : List (Action Tid (Call T) (Result T))) : List T :=
  (history.filterMap Action.ret?).filterMap fun ret => ret.2.value?

/-- The values the calls of a history ask to push, in order. -/
def requested (history : List (Action Tid (Call T) (Result T))) : List T :=
  (history.filterMap Action.call?).filterMap fun call => call.2.pushing

/-- The number of pushes of a history that have returned. -/
def completedPushes (history : List (Action Tid (Call T) (Result T))) : Nat :=
  (history.filterMap Action.ret?).countP fun ret => ret.2 matches .done

/-- A sequential run keeps every value it stored until it hands it out. -/
theorem sequential_conserves {stored stored' : List T} {trace : List (Call T × Result T)}
    (run : Sequential (Lifo mayThrow) stored trace stored') :
    (stored ++ trace.filterMap stored?).Perm
      ((trace.filterMap fun taken => taken.2.value?) ++ stored') := by
  induction run with
  | nil => simp
  | @snoc middle last earlier call result prior applies inductionHypothesis =>
      rw [List.filterMap_append, List.filterMap_append]
      cases applies with
      | @push data =>
          have added := inductionHypothesis.append_right [data]
          simp only [List.filterMap_cons, List.filterMap_nil, stored?, Call.pushing,
            Result.value?, List.append_nil]
          rw [← List.append_assoc]
          refine added.trans ?_
          rw [List.append_assoc]
          exact List.perm_append_comm.append_left _
      | _ => simpa [List.filterMap_cons, stored?, Result.value?] using inductionHypothesis

/-- In a sequential run only pushes end with `done`, each storing one value. -/
theorem sequential_stored_length {stored stored' : List T} {trace : List (Call T × Result T)}
    (run : Sequential (Lifo mayThrow) stored trace stored') :
    (trace.filterMap stored?).length = trace.countP fun taken => taken.2 matches .done := by
  induction run with
  | nil => rfl
  | snoc prior applies inductionHypothesis =>
      rw [List.filterMap_append, List.length_append, List.countP_append, inductionHypothesis]
      cases applies <;> simp [List.filterMap_cons, stored?, Call.pushing]

/-- Without exceptions every push stores its value. -/
theorem sequential_stored {stored stored' : List T} {trace : List (Call T × Result T)}
    (run : Sequential (Lifo false) stored trace stored') :
    trace.filterMap stored? = trace.filterMap fun taken => taken.1.pushing := by
  induction run with
  | nil => rfl
  | snoc prior applies inductionHypothesis =>
      rw [List.filterMap_append, List.filterMap_append, inductionHypothesis]
      cases applies with
      | threw may => cases may
      | _ => rfl

/-- Values stored by successful pushes are among those asked to be pushed. -/
theorem stored_sublist (trace : List (Call T × Result T)) :
    (trace.filterMap stored?).Sublist (trace.filterMap fun taken => taken.1.pushing) := by
  induction trace with
  | nil => exact .slnil
  | cons taken rest inductionHypothesis =>
      obtain ⟨call, result⟩ := taken
      cases call with
      | pop => cases result <;> simpa [List.filterMap_cons, stored?, Call.pushing]
      | push data =>
          cases result with
          | done => simpa [List.filterMap_cons, stored?, Call.pushing]
          | _ =>
              simp only [List.filterMap_cons, stored?, Call.pushing]
              exact inductionHypothesis.cons _

private theorem subperm_filterMap {α β : Type*} {l l' : List α} (sub : l.Subperm l')
    (f : α → Option β) : (l.filterMap f).Subperm (l'.filterMap f) := by
  obtain ⟨middle, perm, sublist⟩ := sub
  exact ⟨middle.filterMap f, perm.filterMap f, sublist.filterMap f⟩

section History

variable [DecidableEq Tid] {history : List (Action Tid (Call T) (Result T))}
  {marks : List (Mark Tid (Call T) (Result T))} {final : Config Tid (Call T) (Result T) (List T)}

/-- A linearizable stack hands out only values that were pushed, none of them
more often than it was pushed. -/
theorem returned_subperm_requested
    (linearizes : Linearizes (Lifo mayThrow) [] history marks final) :
    (returned history).Subperm (requested history) := by
  have run := sequential_of_accepted linearizes.accepted
  have outgoing := subperm_filterMap linearizes.returns_subperm fun ret => ret.2.value?
  have incoming := subperm_filterMap linearizes.instants_subperm fun call => call.2.pushing
  rw [List.filterMap_map] at outgoing incoming
  have conserved := sequential_conserves run
  rw [List.nil_append, List.filterMap_map, List.filterMap_map] at conserved
  have kept : ((marks.filterMap Mark.instant?).filterMap fun i => i.2.2.value?).Subperm
      ((marks.filterMap Mark.instant?).filterMap (stored? ∘ Prod.snd)) :=
    (List.sublist_append_left _ _).subperm.trans conserved.symm.subperm
  have asked := stored_sublist ((marks.filterMap Mark.instant?).map Prod.snd)
  rw [List.filterMap_map, List.filterMap_map] at asked
  exact outgoing.trans (kept.trans (asked.subperm.trans incoming))

/-- With no call in progress, the stack holds as many values as were pushed and
not handed out. -/
theorem stored_length (linearizes : Linearizes (Lifo mayThrow) [] history marks final)
    (idle : ∀ thread, final.phase thread = .idle) :
    final.object.length + (returned history).length = completedPushes history := by
  have run := sequential_of_accepted linearizes.accepted
  have conserved := (sequential_conserves run).length_eq
  have count := sequential_stored_length run
  have perm := linearizes.returns_perm idle
  have handed := (perm.filterMap fun ret => ret.2.value?).length_eq
  have pushes := perm.countP_eq fun ret => ret.2 matches .done
  rw [List.filterMap_map] at handed
  rw [List.countP_map] at pushes
  rw [List.nil_append, count, List.length_append, List.filterMap_map, List.countP_map]
    at conserved
  unfold returned completedPushes
  rw [handed, pushes]
  simp only [Function.comp_def] at conserved ⊢
  omega

/-- Without exceptions, and with no call in progress, the values asked to be
pushed are those handed out and those the stack holds. -/
theorem requested_perm (linearizes : Linearizes (Lifo false) [] history marks final)
    (idle : ∀ thread, final.phase thread = .idle) :
    (requested history).Perm (returned history ++ final.object) := by
  have run := sequential_of_accepted linearizes.accepted
  have conserved := sequential_conserves run
  rw [sequential_stored run, List.nil_append, List.filterMap_map, List.filterMap_map] at conserved
  have calls := (linearizes.calls_perm idle).filterMap fun call => call.2.pushing
  have rets := (linearizes.returns_perm idle).filterMap fun ret => ret.2.value?
  rw [List.filterMap_map] at calls rets
  exact calls.trans (conserved.trans (rets.symm.append_right _))

end History

end LockFree.Aba
