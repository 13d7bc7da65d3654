import LockFree.Aba.Fixed.Invariant

/-!
# The reference-counted stack is linearizable

A `push` takes effect when its compare-exchange succeeds, a `pop` that returns
a value when its own succeeds. A `pop` that throws takes effect earlier, at the
load or the failed compare-exchange that left a null pointer in `old_head`.
-/

namespace LockFree.Aba.Fixed

open Memory Linearization

variable {Tid T : Type} [DecidableEq Tid]

/-- How far a call has come at a position. -/
def Pc.phase (heap : Heap Addr (Option T)) : Pc T → Phase (Call T) (Result T)
  | .make data | .load data _ | .assign data _ _ | .publish data _ => .pending (.push data)
  | .popLoad | .test (some _) | .exchange _ _ => .pending .pop
  | .test none => .settled .outOfRange
  | .move oldHead =>
      match heap.view oldHead with
      | some (some data, _) => .settled (.value data)
      | _ => .idle
  | .returnTmp _ tmp => .settled (.value tmp)
  | .leave result => .settled result
  | .idle | .scan | .gone | .terminated => .idle

/-- A value that has been unlinked is lost: a move into `tmp` or out of it throws. -/
def Event.loses : Event Tid T → Bool
  | .moveFailed _ _ | .resultMoveFailed _ _ => true
  | _ => false

omit [DecidableEq Tid] in
/-- A value is lost by a move that can throw. -/
theorem Event.loses_throws {throws : Throws} {event : Event Tid T} (loses : event.loses = true)
    (allowed : event.allowed throws) : throws.move = true := by
  cases event with
  | moveFailed t a | resultMoveFailed t a => exact allowed
  | _ => cases loses

/-- The phases of all threads. -/
def State.phase (s : State Tid T) (t : Tid) : Phase (Call T) (Result T) :=
  (s.threads t).pc.phase s.heap

variable [Fintype Tid] {s s' : State Tid T} {t : Tid} {values values' : List T}

omit [DecidableEq Tid] in
/-- The other threads stay in their phases. -/
theorem Frame.phase (frame : Frame s t s') (inv : Inv s values) {u : Tid} (other : u ≠ t) :
    s'.phase u = s.phase u := by
  unfold State.phase
  rw [frame.others u other]
  cases pc : (s.threads u).pc with
  | move a =>
      have holds := inv.holds u
      rw [pc] at holds
      rcases frame.views u other a (by simp [Thread.refs, pc]) with same | ⟨moving, _⟩
      · simp only [Pc.phase, same]
      · exact absurd moving (holds.1.notMoving t (Ne.symm other))
  | test oldHead => cases oldHead <;> rfl
  | _ => rfl

/-- The positions of `~stack` itself. -/
def Pc.destroying : Pc T → Bool
  | .scan | .gone | .terminated => true
  | _ => false

/-- The thread makes calls of its own: it does not run `~stack`. -/
structure Thread.Client (thread : Thread T) : Prop where
  notDestructor : thread.destructor = false
  notDestroying : thread.pc.destroying = false

theorem Thread.Client.notScanning {thread : Thread T} (client : thread.Client) :
    thread.pc ≠ .scan := fun pc => by
  have notDestroying := client.notDestroying
  rw [pc] at notDestroying
  cases notDestroying

omit [Fintype Tid] in
/-- Threads do not become destructors. -/
theorem Effect.client {event : Event Tid T} (effect : Effect s event s')
    (clients : ∀ u, (s.threads u).Client) (u : Tid) : (s'.threads u).Client := by
  have kept : ∀ {t : Tid} {thread : Thread T} {heap head}, thread.Client →
      ((s.put t thread heap head).threads u).Client := by
    intro t thread heap head client
    by_cases stepped : u = t
    · rw [stepped, put_threads_self]
      exact client
    · rw [put_threads_other s stepped]
      exact clients u
  cases effect with
  | @called t call calls ready pc next =>
      refine kept ⟨(clients t).notDestructor, ?_⟩
      cases call <;> rfl
  | @loadedScan t heap ready pc views => exact absurd pc (clients t).notScanning
  | @popped t _ ready pc forDestructor | @terminated t _ ready pc forDestructor =>
      rw [(clients t).notDestructor] at forDestructor
      cases forDestructor
  | @pushFailed t => exact kept ⟨(clients t).notDestructor, (clients t).notDestroying⟩
  | @released t => exact kept ⟨(clients t).notDestructor, (clients t).notDestroying⟩
  | _ => exact kept ⟨(clients _).notDestructor, rfl⟩

omit [DecidableEq Tid] in
/-- A null `head` stores nothing. -/
theorem Inv.eq_nil (inv : Inv s values) (top : s.head = none) : values = [] := by
  have stores := inv.stores
  rw [Stores, top] at stores
  exact List.map_eq_nil_iff.mp stores.eq_nil

/-- The state stands for the values it stores, and no destructor runs. -/
structure Represents (s : State Tid T) (values : List T) : Prop where
  inv : Inv s values
  clients : ∀ t, (s.threads t).Client

/-- What a step without a failing move does to the sequential stack. -/
theorem Represents.matched {throws : Throws} {event : Event Tid T}
    (represents : Represents s values)
    (notLost : event.loses = false) (transition : (machine throws).Step s event s') :
    ∃ marks values', (atomic (Lifo throws.make)).Steps ⟨values, s.phase⟩ marks ⟨values', s'.phase⟩ ∧
      marks.filterMap Mark.visible = event.action.toList ∧ Represents s' values' := by
  obtain ⟨values', effect, allowed, change, kept⟩ := represents.inv.step transition
  have others : ∀ u, u ≠ event.thread → s'.phase u = s.phase u := fun u other =>
    kept.frame.phase represents.inv other
  have represents' : Represents s' values' :=
    ⟨kept.inv, effect.client represents.clients⟩
  -- a step that neither shows an action nor moves its thread to another phase
  have silent : event.action = none → s'.phase event.thread = s.phase event.thread →
      values' = values →
      ∃ marks values', (atomic (Lifo throws.make)).Steps ⟨values, s.phase⟩ marks
          ⟨values', s'.phase⟩ ∧
        marks.filterMap Mark.visible = event.action.toList ∧ Represents s' values' := by
    rintro noAction same rfl
    exact ⟨[], values', accepts_none others same, by simp [noAction], represents'⟩
  cases effect with
  | @called t call calls ready pc next =>
      cases change
      refine ⟨[.call t call], values, accepts_call ?_ others ?_, rfl, represents'⟩
      · simp [State.phase, pc, Pc.phase]
      · cases call <;> simp [State.phase, Call.entry, Pc.phase]
  | made ready pc fresh =>
      cases change
      exact silent rfl (by simp [State.phase, pc, Event.thread, Pc.phase]) rfl
  | @makeFailed t data ready pc =>
      cases change
      refine ⟨[.instant t (.push data) .threw], values,
        accepts_instant ?_ (.threw allowed) others ?_, rfl, represents'⟩
      · simp [State.phase, pc, Pc.phase]
      · simp [State.phase, Pc.phase]
  | loadedPush ready pc views =>
      cases change
      exact silent rfl (by simp [State.phase, pc, Event.thread, Pc.phase]) rfl
  | @loadedPop t heap ready pc views =>
      cases change
      rcases Option.eq_none_or_eq_some s.head with top | ⟨a, top⟩
      · -- the stack is empty at this load
        obtain rfl : values = [] := represents.inv.eq_nil top
        refine ⟨[.instant t .pop .outOfRange], [],
          accepts_instant ?_ .empty others ?_, rfl, represents'⟩
        · simp [State.phase, pc, Pc.phase]
        · simp [State.phase, top, Pc.phase]
      · exact silent rfl (by simp [State.phase, pc, top, Event.thread, Pc.phase]) rfl
  | @loadedScan t heap ready pc views => exact absurd pc (represents.clients t).notScanning
  | assigned ready pc found views =>
      cases change
      exact silent rfl (by simp [State.phase, pc, Event.thread, Pc.phase]) rfl
  | @published t data n content heap ready pc found views =>
      cases change with
      | @published _ data' _ _ pc' =>
          rw [pc] at pc'
          cases pc'
          refine ⟨[.instant t (.push data) .done], data :: values,
            accepts_instant ?_ .push others ?_, rfl, represents'⟩
          · simp [State.phase, pc, Pc.phase]
          · simp [State.phase, Pc.phase]
      | kept notPublished => exact absurd rfl (notPublished t n)
  | pushFailed ready pc found views flag =>
      cases change
      exact silent rfl (by simp [State.phase, pc, Event.thread, Pc.phase]) rfl
  | foundEmpty ready pc =>
      cases change
      exact silent rfl (by simp [State.phase, pc, Event.thread, Pc.phase]) rfl
  | readNext ready pc found views =>
      cases change
      exact silent rfl (by simp [State.phase, pc, Event.thread, Pc.phase]) rfl
  | @unlinked t a next ready pc top =>
      cases change with
      | @unlinked _ _ data link _ found =>
          refine ⟨[.instant t .pop (.value data)], values',
            accepts_instant ?_ .pop others ?_, rfl, represents'⟩
          · simp [State.phase, pc, Pc.phase]
          · simp [State.phase, Pc.phase, found]
      | kept _ notUnlinked => exact absurd rfl (notUnlinked t a)
  | @popFailed t a next heap spurious ready pc views flag =>
      cases change
      rcases Option.eq_none_or_eq_some s.head with top | ⟨b, top⟩
      · -- the failed compare-exchange has seen the empty stack
        obtain rfl : values = [] := represents.inv.eq_nil top
        refine ⟨[.instant t .pop .outOfRange], [],
          accepts_instant ?_ .empty others ?_, rfl, represents'⟩
        · simp [State.phase, pc, Pc.phase]
        · simp [State.phase, top, Pc.phase]
      · exact silent rfl (by simp [State.phase, pc, top, Event.thread, Pc.phase]) rfl
  | moved ready pc found views =>
      cases change
      exact silent rfl (by simp [State.phase, pc, found, Event.thread, Pc.phase]) rfl
  | resultMoved ready pc =>
      cases change
      exact silent rfl (by simp [State.phase, pc, Event.thread, Pc.phase]) rfl
  | moveFailed ready pc | resultMoveFailed ready pc => cases notLost
  | @released t a rest destroyed heap waiting effect =>
      cases change
      refine silent rfl ?_ rfl
      simp only [State.phase, Event.thread, put_threads_self, put_heap]
      cases pc : (s.threads t).pc with
      | move b =>
          have live : b ∈ heap := kept.inv.exact.live_of_root
            (mem_roots_of_refs (t := t) (by simp [Thread.refs, pc]))
          simp only [Pc.phase, effect.view_of_mem live]
      | test oldHead => cases oldHead <;> rfl
      | _ => rfl
  | @returned t result ready pc notDestroying =>
      cases change
      refine ⟨[.ret t result], values, accepts_ret ?_ others ?_, rfl, represents'⟩
      · simp [State.phase, pc, Pc.phase]
      · simp [State.phase, Pc.phase]
  | @popped t _ ready pc forDestructor | @terminated t _ ready pc forDestructor =>
      rw [(represents.clients t).notDestructor] at forDestructor
      cases forDestructor

/-- Runs in which no move throws are matched by the sequential stack. -/
def simulation (throws : Throws) :
    Simulation (machine throws) (fun (_ : State Tid T) event => event.loses = false)
      (Lifo throws.make) Event.action where
  Represents := Represents
  phaseOf := State.phase
  matched represents notLost transition := represents.matched notLost transition

omit [DecidableEq Tid] in
/-- A new stack stands for the empty list. -/
theorem represents_initial (program : Tid → List (Call T)) : Represents (initial program) [] where
  inv := inv_initial program
  clients _ := ⟨rfl, rfl⟩

/-- A run in which no move throws linearizes to the values it leaves in the stack. -/
theorem linearizes_of_moves {throws : Throws} {program : Tid → List (Call T)}
    {events : List (Event Tid T)} (run : (machine throws).Steps (initial program) events s)
    (notLost : ∀ event ∈ events, event.loses = false) :
    ∃ marks values, Represents s values ∧
      Linearizes (Lifo throws.make) [] (events.filterMap Event.action) marks ⟨values, s.phase⟩ := by
  refine (simulation throws).linearizes (run.where_ notLost) (represents_initial program)
    fun t => ?_
  simp [simulation, State.phase, initial, Pc.phase]

/-! ### `operator<<` -/

/-- The loop of `operator<<` writes the values it comes to, top first. -/
theorem printFrom_lists {heap : Heap Addr (Option T)} {roots : Multiset Addr}
    {cur : Option Addr} (lists : Lists heap.view cur (values.map some))
    (exact_ : heap.Exact (own cur + roots)) {bound : Nat} (large : values.length ≤ bound) :
    ∃ heap', printFrom bound heap cur = some (render values, heap') ∧ heap'.Exact roots := by
  induction values generalizing heap cur bound with
  | nil =>
      cases lists
      exact ⟨heap, by simp [printFrom, render], by simpa using exact_⟩
  | cons data rest inductionHypothesis =>
      cases lists with
      | @cons a _ link _ found lists =>
          obtain ⟨bound, rfl⟩ : ∃ smaller, bound = smaller + 1 :=
            ⟨bound - 1, by simp at large; omega⟩
          obtain ⟨copied, retained, exact₁, views⟩ :=
            exact_.retainPtr fun b (same : link = some b) =>
            exact_.live_of_next (b := a) (by rw [Heap.next_eq_view, found]; exact same)
          have roots₁ : own link + (own (some a) + roots) = a ::ₘ (own link + roots) := by
            rw [own_some, Multiset.singleton_add, Multiset.add_cons]
          rw [roots₁] at exact₁
          obtain ⟨left, destroyed, released, exact₂, effect⟩ := exact₁.release
          have listsCopied : Lists copied.view link (rest.map some) := by
            rw [funext views]
            exact lists
          have listsLeft := effect.lists exact₂ listsCopied fun b same =>
            exact₂.live_of_root (by simp [same])
          obtain ⟨heap', printed, exact₃⟩ :=
            inductionHypothesis listsLeft exact₂ (Nat.le_of_succ_le_succ large)
          refine ⟨heap', ?_, exact₃⟩
          simp only [printFrom, found, retained, released, printed, Option.bind_eq_bind,
            Option.bind_some]
          cases rest with
          | nil =>
              cases listsLeft
              rfl
          | cons =>
              cases listsLeft
              rfl

omit [DecidableEq Tid] in
/-- `operator<<` reads live nodes only, writes the stored values, top first, and
gives back all references it took. -/
theorem print_eq (inv : Inv s values) :
    ∃ heap, print s = some (render values, heap) ∧ heap.Exact s.roots := by
  obtain ⟨heap, retained, exact', views⟩ := inv.exact.retainPtr
    fun a (top : s.head = some a) => inv.exact.live_of_root (mem_roots_of_head top)
  have lists : Lists heap.view s.head (values.map some) := by
    rw [funext views]
    exact inv.stores
  obtain ⟨heap', printed, exact''⟩ := printFrom_lists lists exact'
    (show values.length ≤ heap.keys.card by simpa using Heap.lists_length_le lists)
  exact ⟨heap', by simp [print, retained, printed], exact''⟩

/-! ### The stack for elements that are moved without exceptions -/

omit [DecidableEq Tid] [Fintype Tid] in
/-- With every call made and ended, no call is in progress. -/
theorem State.Finished.phase (finished : s.Finished) (t : Tid) : s.phase t = .idle := by
  rw [State.phase, (finished t).1.1]
  rfl

/-- The stack is linearizable to a sequential stack, which holds the values
stored. Each pushed value is returned at most once, and when all threads have
finished, the values pushed are those returned and those `operator<<` lists. -/
theorem stack_linearizable {program : Tid → List (Call T)} {events : List (Event Tid T)}
    (run : (machine ⟨false, false⟩).Steps (initial program) events s) :
    ∃ marks final, Linearizes (Lifo false) [] (events.filterMap Event.action) marks final ∧
      Stores s final.object ∧
      (returned (events.filterMap Event.action)).Subperm
        (requested (events.filterMap Event.action)) ∧
      (s.Finished →
        (requested (events.filterMap Event.action)).Perm
          (returned (events.filterMap Event.action) ++ final.object) ∧
        ∃ heap, print s = some (render final.object, heap)) := by
  have notLost : ∀ event ∈ events, event.loses = false := by
    intro event member
    by_contra loses
    have throws := Event.loses_throws (Bool.not_eq_false _ ▸ loses)
      (((inv_initial program).steps run).2 event member)
    cases throws
  obtain ⟨marks, values, represents, linearizes⟩ := linearizes_of_moves run notLost
  refine ⟨marks, ⟨values, s.phase⟩, linearizes, represents.inv.stores,
    returned_subperm_requested linearizes, fun finished => ⟨?_, ?_⟩⟩
  · exact requested_perm linearizes finished.phase
  · obtain ⟨heap, printed, _⟩ := print_eq represents.inv
    exact ⟨heap, printed⟩

/-- One thread pushes two values, another pops one. -/
def pushesAndPop : Fin 2 → List (Call Nat)
  | 0 => [.push 1, .push 2]
  | 1 => [.pop]

/-- A run in which the second `push` overtakes the `pop`. -/
theorem stack_linearizable_run : ∃ (events : List (Event (Fin 2) Nat)) (s : State (Fin 2) Nat)
    (marks : _) (final : _),
    Linearizes (Lifo false) [] (events.filterMap Event.action) marks final ∧
      Stores s final.object ∧
      (requested (events.filterMap Event.action)).Perm
        (returned (events.filterMap Event.action) ++ final.object) ∧
      s.head = some 7 ∧ returned (events.filterMap Event.action) = [2] := by
  obtain ⟨events, s, run, finished, top, popped⟩ :
      ∃ events s, (machine ⟨false, false⟩).Steps (initial pushesAndPop) events s ∧
        s.Finished ∧ s.head = some 7 ∧ returned (events.filterMap Event.action) = [2] :=
    System.exists_steps [.run 0, .allocate 0 7, .run 0, .run 0, .run 0, .run 0, .run 0,
      .run 0, .allocate 0 8, .run 0, .run 1, .run 1, .run 1, .run 0, .run 0, .run 0, .run 0, .run 0,
      .run 1, .run 1, .run 1, .run 1, .run 1, .run 1, .run 1, .run 1, .run 1]
      (by decide +kernel)
  obtain ⟨marks, final, linearizes, stores, _, conclusion⟩ := stack_linearizable run
  exact ⟨events, s, marks, final, linearizes, stores, (conclusion finished).1, top, popped⟩

end LockFree.Aba.Fixed
