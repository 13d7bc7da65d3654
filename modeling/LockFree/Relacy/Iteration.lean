import LockFree.Relacy.Client
import LockFree.Relacy.Search

/-!
# Iterations of a test

An iteration under `full_search_scheduler`, as the tree of what it asks the
scheduler: which thread goes on at a scheduling point, whether a load stops at
the record it has come to, whether a weak compare-exchange fails. The threads of
the test do not block and do not yield, so that a thread is running until it is
finished.
-/

namespace LockFree.Relacy

open Search

variable {Tid Value Local User : Type} [DecidableEq Tid]

/-! ### Operations that ask -/

/-- The loop of `get_load_index` from an index, with `limit - i` rounds left. -/
def searchIndexAsking [Fintype Tid] (setting : Setting) (data : Atomic Tid Value)
    (th : ThreadInfo Tid) (t : Tid) (order : MemoryOrder) :
    Nat → Nat → Tree SchedType (Option Nat)
  | 0, index => .done (some index)
  | rounds + 1, index =>
      let record := data.history (setting.slot index)
      let previous := data.history (setting.slot (index - 1))
      if !record.busy then .done none
      else if previous.busy && (previous.firstSeenOrder t).any (· ≤ th.lastYield) then
        .done (some index)
      else if order = .seqCst && record.seqCst then .done (some index)
      else if record.covered th.acqRelOrder then .done (some index)
      else .ask 1 .atomicLoad fun answer =>
        if answer = 0 then .done (some index)
        else searchIndexAsking setting data th t order rounds (index - 1)

/-- `load_impl`, with `get_load_index`. -/
def loadImplAsking [Fintype Tid] (setting : Setting) (s : State Tid Value) (t : Tid) (x : Address)
    (order : MemoryOrder) : Tree SchedType (Event Tid Value × State Tid Value) :=
  let data := s.atomics x
  let limit := if setting.random then atomicHistorySize - 1 else 1
  (searchIndexAsking setting data (s.threads t) t order limit data.currentIndex).bind fun found =>
    .done <|
      match found.filter fun index => (data.history (setting.slot index)).busy with
      | none => fail s (.uninitialized t)
      | some index =>
          (.load t x order index (data.history (setting.slot index)).value,
            atomicLoad setting s t x order index)

/-- `compare_swap_impl` -/
def compareSwapImplAsking [Fintype Tid] [DecidableEq Value] (setting : Setting)
    (s : State Tid Value) (t : Tid) (weak : Bool) (x : Address) (expected desired : Value)
    (order failure : MemoryOrder) : Tree SchedType (Event Tid Value × State Tid Value) :=
  let data := s.atomics x
  let swap := compareSwapImpl setting s t weak x expected desired order failure
  if data.initialized && decide (data.value = expected) && weak &&
      (setting.random || !data.alreadyFailed) then
    .ask (if setting.random then 3 else 1) .casFail fun answer => .done (swap (answer == 0))
  else .done (swap false)

/-- An operation of a thread, under the answers of the scheduler. -/
def performAsking [Fintype Tid] [DecidableEq Value] (setting : Setting) (s : State Tid Value)
    (t : Tid) : Op Value → Option (Tree SchedType (Event Tid Value × State Tid Value))
  | .load x order => order.load?.map fun order => loadImplAsking setting s t x order
  | .compareExchange weak x expected desired order failure =>
      (order.failure? failure).map fun failure =>
        compareSwapImplAsking setting s t weak x expected desired order.rmw failure
  | op => (perform setting s t (fun _ => true) false op).map .done

section Asking

variable [Fintype Tid] {setting : Setting} {s : State Tid Value} {t : Tid}

omit [DecidableEq Tid] in
/-- A search that does not read the answers before a round does not depend on them. -/
theorem searchIndex_congr {data : Atomic Tid Value} {th : ThreadInfo Tid} {order : MemoryOrder}
    {stop stop' : Nat → Bool} {rounds i index : Nat} (same : ∀ j ≥ i, stop j = stop' j) :
    searchIndex setting data th t order stop rounds i index =
      searchIndex setting data th t order stop' rounds i index := by
  induction rounds generalizing i index with
  | zero => rfl
  | succ rounds inductionHypothesis =>
      simp only [searchIndex, same i (Nat.le_refl i),
        inductionHypothesis fun j later => same j (Nat.le_of_succ_le later)]

omit [DecidableEq Tid] in
/-- The answers lead the search where the choices do. -/
theorem yields_searchIndexAsking {data : Atomic Tid Value} {th : ThreadInfo Tid}
    {order : MemoryOrder} {rounds i index : Nat} {found : Option Nat} :
    (searchIndexAsking setting data th t order rounds index).Yields found ↔
      ∃ stop, searchIndex setting data th t order stop rounds i index = found := by
  induction rounds generalizing i index with
  | zero => simp [searchIndexAsking, searchIndex]
  | succ rounds inductionHypothesis =>
      simp only [searchIndexAsking, searchIndex]
      split_ifs with free yielded seqCst covered
      · simp
      · simp
      · simp
      · simp
      · simp only [Tree.yields_ask]
        constructor
        · rintro ⟨answer, _, yields⟩
          by_cases zero : answer = 0
          · rw [if_pos zero] at yields
            exact ⟨fun _ => true, yields⟩
          · rw [if_neg zero] at yields
            obtain ⟨stop, searched⟩ := (inductionHypothesis (i := i + 1)).mp yields
            refine ⟨Function.update stop i false, ?_⟩
            rw [Function.update_self, ← searched]
            apply searchIndex_congr
            intro j later
            exact Function.update_of_ne (by omega) _ _
        · rintro ⟨stop, searched⟩
          cases stops : stop i with
          | true =>
              rw [stops] at searched
              exact ⟨0, by omega, searched⟩
          | false =>
              rw [stops] at searched
              exact ⟨1, by omega, inductionHypothesis.mpr ⟨stop, searched⟩⟩

/-- A load under the answers is a load under some choices. -/
theorem yields_loadImplAsking {x : Address} {order : MemoryOrder}
    {taken : Event Tid Value × State Tid Value} :
    (loadImplAsking setting s t x order).Yields taken ↔
      ∃ stop, loadImpl setting s t x order false stop = taken := by
  have filtered : ∀ stop, getLoadIndex setting (s.atomics x) (s.threads t) t order false stop =
      (searchIndex setting (s.atomics x) (s.threads t) t order stop
        (if setting.random then atomicHistorySize - 1 else 1) 0
        (s.atomics x).currentIndex).filter fun index =>
          ((s.atomics x).history (setting.slot index)).busy := by
    intro stop
    simp only [getLoadIndex, Bool.false_eq_true, if_false]
    cases searchIndex setting (s.atomics x) (s.threads t) t order stop _ 0
      (s.atomics x).currentIndex <;> rfl
  simp only [loadImplAsking, Tree.yields_bind, Tree.yields_done, loadImpl, filtered,
    yields_searchIndexAsking (i := 0)]
  constructor
  · rintro ⟨found, ⟨stop, searched⟩, rfl⟩
    subst searched
    exact ⟨stop, rfl⟩
  · rintro ⟨stop, rfl⟩
    exact ⟨_, ⟨stop, rfl⟩, rfl⟩

variable [DecidableEq Value]

/-- A compare-exchange under the answers is one under some choices. -/
theorem yields_compareSwapImplAsking {weak : Bool} {x : Address} {expected desired : Value}
    {order failure : MemoryOrder} {taken : Event Tid Value × State Tid Value} :
    (compareSwapImplAsking setting s t weak x expected desired order failure).Yields taken ↔
      ∃ spurious, compareSwapImpl setting s t weak x expected desired order failure spurious =
        taken := by
  have two : 1 < (if setting.random then 3 else 1) + 1 := by
    split_ifs <;> omega
  by_cases asks : ((s.atomics x).initialized && decide ((s.atomics x).value = expected) && weak &&
      (setting.random || !(s.atomics x).alreadyFailed)) = true
  · simp only [compareSwapImplAsking, asks, if_true, Tree.yields_ask, Tree.yields_done]
    constructor
    · rintro ⟨answer, _, swapped⟩
      exact ⟨answer == 0, swapped⟩
    · rintro ⟨spurious, swapped⟩
      cases spurious with
      | true => exact ⟨0, by omega, swapped⟩
      | false => exact ⟨1, two, swapped⟩
  · simp only [compareSwapImplAsking, asks, Bool.false_eq_true, if_false, Tree.yields_done]
    constructor
    · intro swapped
      exact ⟨false, swapped⟩
    · rintro ⟨spurious, rfl⟩
      cases spurious with
      | false => rfl
      | true =>
          simp only [Bool.and_eq_true, decide_eq_true_eq, not_and, and_assoc] at asks
          simp only [compareSwapImpl]
          grind

/-- An operation under the answers is one under some choices. -/
theorem yields_performAsking {op : Op Value} {taken : Event Tid Value × State Tid Value} :
    (∃ tree, performAsking setting s t op = some tree ∧ tree.Yields taken) ↔
      ∃ stop spurious, perform setting s t stop spurious op = some taken := by
  cases op with
  | load x order =>
      cases accepted : order.load? with
      | none => simp [performAsking, perform, accepted]
      | some order => simp [performAsking, perform, accepted, yields_loadImplAsking]
  | compareExchange weak x expected desired order failure =>
      cases accepted : order.failure? failure with
      | none => simp [performAsking, perform, accepted]
      | some failure =>
          simp only [performAsking, perform, accepted, Option.map_some, Option.some.injEq,
            exists_eq_left', yields_compareSwapImplAsking, exists_const]
  | fence order => cases order <;> simp [performAsking, perform, threadFence]
  | store x value order => cases order.store? <;> simp [performAsking, perform]
  | _ => simp [performAsking, perform]

end Asking

/-! ### An iteration -/

/-- Where a fiber goes on when it is switched to: it has not begun, it is inside the
call of `sched` of an operation, or it is finished. -/
inductive Fiber (Local Value User : Type) where
  | fresh (code : Code Local Value User)
  | parked (op : Op Value) (scheds : op.scheds? = some true) (resume : Response Value → Local)
  | finished

/-- `context_impl` and its scheduler while an iteration runs. -/
structure Context (Tid Local Value User : Type) where
  memory : State Tid Value
  fibers : Tid → Fiber Local Value User
  running : List Tid

namespace Context

variable [Fintype Tid] [DecidableEq Value]

/-- An operation, and what comes after it unless it fails. -/
def performing (setting : Setting) (c : Context Tid Local Value User) (t : Tid) (op : Op Value)
    (further : Context Tid Local Value User → Response Value → Test (Failure User)) :
    Test (Failure User) :=
  match performAsking setting c.memory t op with
  | none => .done (some .unverified)
  | some tree => tree.bind fun taken =>
      match (taken.1.failure? : Option (Failure User)) with
      | some failure => .done (some failure)
      | none => further { c with memory := taken.2 } (op.response c.memory taken.1)

/-- A thread runs until it calls `sched`, which it does at its end as well, unless it
is the last one. -/
def goOn (setting : Setting) (sched : Context Tid Local Value User → Test (Failure User))
    (t : Tid) :
    Code Local Value User → Context Tid Local Value User → Test (Failure User)
  | .finish, c =>
      let c := { c with
        fibers := Function.update c.fibers t .finished
        running := c.running.erase t }
      if c.running.isEmpty then .done none else sched c
  | .assert user, _ => .done (some (.user user))
  | .act op _ next, c =>
      c.performing setting t op fun c response => goOn setting sched t (next response) c
  | .call op scheds resume, c =>
      sched { c with fibers := Function.update c.fibers t (.parked op scheds resume) }

/-- `switch_to_fiber` -/
def switchTo (client : Client Tid Local Value User) (setting : Setting)
    (sched : Context Tid Local Value User → Test (Failure User))
    (c : Context Tid Local Value User) (t : Tid) : Test (Failure User) :=
  match c.fibers t with
  | .fresh code => goOn setting sched t code c
  | .parked op _ resume => c.performing setting t op fun c response =>
      goOn setting sched t (client.code (resume response)) c
  | .finished => .done (some .unverified)

/-- `sched`, when it may be called that many times more. Every thread that is not
finished is running. -/
def sched (client : Client Tid Local Value User) (setting : Setting) :
    Nat → Context Tid Local Value User → Test (Failure User)
  | 0, _ => .done (some .livelock)
  | left + 1, c => (chooseThread c.running).bind fun next =>
      match next with
      | none => .done (some .unverified)
      | some t => c.switchTo client setting (sched client setting left) t

end Context

/-- An iteration of a test of some threads. The thread it begins with runs the
constructor and `before` first; `memory` is what they leave when it is that thread,
and `executionDepthLimit` what they leave of the limit. -/
def iterationOf [DecidableEq Value] {others : Nat}
    (client : Client (Fin (others + 1)) Local Value User)
    (setting : Setting) (memory : Fin (others + 1) → State (Fin (others + 1)) Value)
    (executionDepthLimit : Nat) : Test (Failure User) :=
  let running := List.finRange (others + 1)
  (randThread running).bind fun chosen =>
    match chosen with
    | none => .done (some .unverified)
    | some t =>
        let c : Context (Fin (others + 1)) Local Value User :=
          ⟨memory t, fun u => .fresh (client.code (client.start u)), running⟩
        c.switchTo client setting (Context.sched client setting (executionDepthLimit + 1)) t

end LockFree.Relacy
