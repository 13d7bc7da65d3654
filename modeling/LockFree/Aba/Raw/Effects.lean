import LockFree.Aba.Raw.Machine

/-!
# What a step of the raw-pointer stack does

Every step has one of the forms of `Effect`, which say what the step needed and
what it changed. The later proofs take the steps apart through `Effect` only.
-/

namespace LockFree.Aba.Raw

variable {Tid T : Type} [DecidableEq Tid]

@[simp] theorem view_live (data : T) (next : Option Addr) :
    (Block.live data next).view = some (data, next) := rfl
@[simp] theorem view_freed (data : T) (next : Option Addr) :
    (Block.freed data next).view = none := rfl
@[simp] theorem view_unused : (Block.unused : Block T).view = none := rfl

theorem view_eq_some {block : Block T} {data : T} {next : Option Addr} :
    block.view = some (data, next) ↔ block = .live data next := by
  cases block <;> simp

@[simp] theorem put_memory (s : State Tid T) (t : Tid) (pc : Pc T) (memory : Addr → Block T) :
    (s.put t pc memory).memory = memory := rfl

@[simp] theorem put_head (s : State Tid T) (t : Tid) (pc : Pc T) (memory : Addr → Block T) :
    (s.put t pc memory).head = s.head := rfl

@[simp] theorem put_past (s : State Tid T) (t : Tid) (pc : Pc T) (memory : Addr → Block T) :
    (s.put t pc memory).past = s.past := rfl

@[simp] theorem put_fault (s : State Tid T) (t : Tid) (pc : Pc T) (memory : Addr → Block T) :
    (s.put t pc memory).fault = s.fault := rfl

@[simp] theorem put_threads_self (s : State Tid T) (t : Tid) (pc : Pc T)
    (memory : Addr → Block T) : ((s.put t pc memory).threads t).pc = pc := by
  simp [State.put]

@[simp] theorem put_calls (s : State Tid T) (t u : Tid) (pc : Pc T) (memory : Addr → Block T) :
    ((s.put t pc memory).threads u).calls = (s.threads u).calls := by
  by_cases same : u = t <;> simp [State.put, same]

theorem put_threads_other (s : State Tid T) {t u : Tid} (other : u ≠ t) (pc : Pc T)
    (memory : Addr → Block T) : (s.put t pc memory).threads u = s.threads u := by
  simp [State.put, other]

omit [DecidableEq Tid] in
@[simp] theorem setHead_memory (s : State Tid T) (head : Option Addr) :
    (s.setHead head).memory = s.memory := rfl
omit [DecidableEq Tid] in
@[simp] theorem setHead_head (s : State Tid T) (head : Option Addr) :
    (s.setHead head).head = head := rfl
omit [DecidableEq Tid] in
@[simp] theorem setHead_past (s : State Tid T) (head : Option Addr) :
    (s.setHead head).past = head :: s.past := rfl
omit [DecidableEq Tid] in
@[simp] theorem setHead_threads (s : State Tid T) (head : Option Addr) :
    (s.setHead head).threads = s.threads := rfl
omit [DecidableEq Tid] in
@[simp] theorem setHead_fault (s : State Tid T) (head : Option Addr) :
    (s.setHead head).fault = s.fault := rfl

/-- What can be read after one block has been written. -/
theorem view_update (s : State Tid T) (t : Tid) (pc : Pc T) (a b : Addr) (block : Block T) :
    (s.put t pc (Function.update s.memory a block)).view b =
      if b = a then block.view else s.view b := by
  by_cases here : b = a
  · subst here
    simp [State.view]
  · simp [State.view, here]

/-- The node a step reads or writes on the assumption that it is in use. -/
def Pc.accesses : Pc T → Option Addr
  | .assign _ newNode _ | .publish _ newNode => some newNode
  | .move oldHead | .delete oldHead _ => some oldHead
  | _ => none

/-- The forms a step can take: what the thread was about to do, and what the
step writes. -/
inductive Effect (s : State Tid T) : Event Tid T → State Tid T → Prop where
  | called {t call calls} (pc : (s.threads t).pc = .idle)
      (next : (s.threads t).calls = call :: calls) :
      Effect s (.called t call)
        { s with threads := Function.update s.threads t ⟨calls, Call.entry call⟩ }
  | made {t data node} (pc : (s.threads t).pc = .make data) (fresh : s.view node = none) :
      Effect s (.made t node)
        (s.put t (.load data node) (Function.update s.memory node (.live data none)))
  | loadedPush {t data n value} (pc : (s.threads t).pc = .load data n) (seen : value ∈ s.past) :
      Effect s (.loaded t value) (s.put t (.assign data n value) s.memory)
  | assigned {t data n loaded content previous} (pc : (s.threads t).pc = .assign data n loaded)
      (found : s.view n = some (content, previous)) :
      Effect s (.assigned t n)
        (s.put t (.publish data n) (Function.update s.memory n (.live content loaded)))
  | published {t data n content} (pc : (s.threads t).pc = .publish data n)
      (found : s.view n = some (content, s.head)) :
      Effect s (.published t n) ((s.put t (.leave .done) s.memory).setHead (some n))
  | pushFailed {t data n content expected spurious} (pc : (s.threads t).pc = .publish data n)
      (found : s.view n = some (content, expected)) (flag : spurious = true ↔ s.head = expected) :
      Effect s (.exchangeFailed t spurious)
        (s.put t (.publish data n) (Function.update s.memory n (.live content s.head)))
  | loadedPop {t} (pc : (s.threads t).pc = .popLoad) :
      Effect s (.loaded t s.head) (s.put t (.test s.head) s.memory)
  | foundEmpty {t} (pc : (s.threads t).pc = .test none) :
      Effect s (.foundEmpty t) (s.put t (.leave .outOfRange) s.memory)
  | readNext {t a value} (pc : (s.threads t).pc = .test (some a))
      (shown : ∀ data next, s.view a = some (data, next) → value = next) :
      Effect s (.readNext t a value) (s.put t (.exchange a value) s.memory)
  | unlinked {t a next} (pc : (s.threads t).pc = .exchange a next) (top : s.head = some a) :
      Effect s (.unlinked t a next (s.next a)) ((s.put t (.move a) s.memory).setHead next)
  | popFailed {t a next spurious} (pc : (s.threads t).pc = .exchange a next)
      (flag : spurious = true ↔ s.head = some a) :
      Effect s (.exchangeFailed t spurious) (s.put t (.test s.head) s.memory)
  | moved {t a data next} (pc : (s.threads t).pc = .move a)
      (found : s.view a = some (data, next)) :
      Effect s (.moved t a) (s.put t (.delete a data) s.memory)
  | deleted {t a tmp data next} (pc : (s.threads t).pc = .delete a tmp)
      (found : s.view a = some (data, next)) :
      Effect s (.deleted t a)
        (s.put t (.leave (.value tmp)) (Function.update s.memory a (.freed data next)))
  | returned {t result} (pc : (s.threads t).pc = .leave result) :
      Effect s (.returned t result) (s.put t .idle s.memory)
  | faulted {t a} (accesses : (s.threads t).pc.accesses = some a) (dead : s.view a = none) :
      Effect s (.faulted t) { s with fault := true }

/-- A step concerns its own thread only. -/
theorem Effect.thread_cases {s s' : State Tid T} {event : Event Tid T} (effect : Effect s event s')
    (u : Tid) : s'.threads u = s.threads u ∨ u = event.thread := by
  by_cases stepped : u = event.thread
  · exact .inr stepped
  · refine .inl ?_
    cases effect with
    | called => exact Function.update_of_ne stepped _ _
    | faulted => rfl
    | published | unlinked => exact put_threads_other s stepped _ s.memory
    | _ => exact put_threads_other s stepped _ _

section Inversion

variable {s s' : State Tid T} {t : Tid} {event : Event Tid T}

theorem allocate_effect {data : T} {node : Addr} (pc : (s.threads t).pc = .make data)
    (taken : allocate s t data node = some (event, s')) : Effect s event s' := by
  unfold allocate at taken
  split at taken
  · cases taken
  · next notLive =>
      cases taken
      refine .made pc ?_
      unfold State.view
      cases block : s.memory node with
      | live data next => exact absurd block (notLive data next)
      | _ => rfl

theorem assignNext_effect {data : T} {n : Addr} {loaded : Option Addr}
    (pc : (s.threads t).pc = .assign data n loaded)
    (taken : assignNext s t data n loaded = (event, s')) : Effect s event s' := by
  unfold assignNext at taken
  split at taken
  · next content previous block =>
      cases taken
      exact .assigned pc (view_eq_some.mpr block)
  · next notLive =>
      cases taken
      refine .faulted (a := n) (by simp [pc, Pc.accesses]) ?_
      cases found : s.view n with
      | none => rfl
      | some shown => exact absurd (view_eq_some.mp found) (notLive _ _)

theorem exchangePush_effect {data : T} {n : Addr} {spurious : Bool}
    (pc : (s.threads t).pc = .publish data n)
    (taken : exchangePush s t data n spurious = (event, s')) : Effect s event s' := by
  unfold exchangePush at taken
  split at taken
  · next content expected block =>
      have found : s.view n = some (content, expected) := view_eq_some.mpr block
      split at taken
      · next succeeds =>
          cases taken
          obtain ⟨same, _⟩ : s.head = expected ∧ spurious = false := by simpa using succeeds
          subst same
          exact .published pc found
      · cases taken
        exact .pushFailed pc found decide_eq_true_iff
  · next notLive =>
      cases taken
      refine .faulted (a := n) (by simp [pc, Pc.accesses]) ?_
      cases found : s.view n with
      | none => rfl
      | some shown => exact absurd (view_eq_some.mp found) (notLive _ _)

theorem exchangePop_effect {a : Addr} {next : Option Addr} {spurious : Bool}
    (pc : (s.threads t).pc = .exchange a next)
    (taken : exchangePop s t a next spurious = (event, s')) : Effect s event s' := by
  unfold exchangePop at taken
  split at taken
  · next succeeds =>
      cases taken
      obtain ⟨top, _⟩ : s.head = some a ∧ spurious = false := by simpa using succeeds
      exact .unlinked pc top
  · cases taken
    exact .popFailed pc decide_eq_true_iff

theorem moveData_effect {a : Addr} (pc : (s.threads t).pc = .move a)
    (taken : moveData s t a = (event, s')) : Effect s event s' := by
  unfold moveData at taken
  split at taken
  · next data next block =>
      cases taken
      exact .moved pc (view_eq_some.mpr block)
  · next notLive =>
      cases taken
      refine .faulted (a := a) (by simp [pc, Pc.accesses]) ?_
      cases found : s.view a with
      | none => rfl
      | some shown => exact absurd (view_eq_some.mp found) (notLive _ _)

theorem deleteNode_effect {a : Addr} {tmp : T} (pc : (s.threads t).pc = .delete a tmp)
    (taken : deleteNode s t a tmp = (event, s')) : Effect s event s' := by
  unfold deleteNode at taken
  split at taken
  · next data next block =>
      cases taken
      exact .deleted pc (view_eq_some.mpr block)
  · next notLive =>
      cases taken
      refine .faulted (a := a) (by simp [pc, Pc.accesses]) ?_
      cases found : s.view a with
      | none => rfl
      | some shown => exact absurd (view_eq_some.mp found) (notLive _ _)

theorem run_effect (taken : run s t = some (event, s')) : Effect s event s' := by
  unfold run at taken
  cases pc : (s.threads t).pc with
  | idle =>
      cases todo : (s.threads t).calls with
      | nil => simp [pc, todo] at taken
      | cons call calls =>
          simp only [pc, todo, Option.some.injEq] at taken
          cases taken
          exact .called pc todo
  | make data => simp [pc] at taken
  | load data n => simp [pc] at taken
  | assign data n loaded =>
      simp only [pc, Option.some.injEq] at taken
      exact assignNext_effect pc taken
  | publish data n =>
      simp only [pc, Option.some.injEq] at taken
      exact exchangePush_effect pc taken
  | popLoad =>
      simp only [pc, Option.some.injEq] at taken
      cases taken
      exact .loadedPop pc
  | test oldHead =>
      cases oldHead with
      | none =>
          simp only [pc, Option.some.injEq] at taken
          cases taken
          exact .foundEmpty pc
      | some a =>
          simp only [pc] at taken
          split at taken
          · next data next block =>
              cases taken
              refine .readNext pc fun data' next' found => ?_
              have same := found.symm.trans (view_eq_some.mpr block)
              cases same
              rfl
          · cases taken
  | exchange a next =>
      simp only [pc, Option.some.injEq] at taken
      exact exchangePop_effect pc taken
  | move a =>
      simp only [pc, Option.some.injEq] at taken
      exact moveData_effect pc taken
  | delete a tmp =>
      simp only [pc, Option.some.injEq] at taken
      exact deleteNode_effect pc taken
  | leave result =>
      simp only [pc, Option.some.injEq] at taken
      cases taken
      exact .returned pc

/-- Every step is one of the effects, and none follows a fault. -/
theorem step_effect (transition : machine.Step s event s') :
    s.fault = false ∧ Effect s event s' := by
  obtain ⟨choice, taken⟩ := transition
  rw [step?.eq_def] at taken
  split at taken
  · cases taken
  next notFaulted =>
  refine ⟨by simpa using notFaulted, ?_⟩
  cases choice with
  | run t => exact run_effect taken
  | allocate t node =>
      simp only at taken
      split at taken
      · next data pc => exact allocate_effect pc taken
      · cases taken
  | see t value =>
      simp only at taken
      split at taken
      · next data n pc =>
          split at taken
          · next seen =>
              cases taken
              exact .loadedPush pc seen
          · cases taken
      · cases taken
  | stale t value =>
      simp only at taken
      split at taken
      · next a pc =>
          split at taken
          · cases taken
          · next notLive =>
              cases taken
              exact .readNext pc fun data next found =>
                absurd (view_eq_some.mp found) (notLive data next)
      · cases taken
  | spurious t =>
      simp only at taken
      split at taken
      · next data n pc =>
          split at taken
          · exact exchangePush_effect pc (Option.some.inj taken)
          · cases taken
      · next a next pc =>
          split at taken
          · exact exchangePop_effect pc (Option.some.inj taken)
          · cases taken
      · cases taken

end Inversion

end LockFree.Aba.Raw
