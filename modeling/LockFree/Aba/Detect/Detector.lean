import LockFree.Aba.Detect.Stocked

/-!
# When the detector is right

A run goes through up to three phases: `t1` has not unlinked a node; it has, and
has installed the `next` of the first node or another pointer; `main` pops. What
`main` gets is decided when `t1` unlinks its node. It is what `main` expects
unless `t1` read `next` early, before the node that `t2` pushes was assigned its
`next`: then the stack ends up empty, and the pop of `main` throws.
-/

namespace LockFree.Aba.Detect

open Raw (Addr Pc)

/-- What `t1` installs with a step, and the `next` of the first node. -/
def Event.swap? : Event → Option (Option Addr × Option Addr)
  | .stack (.unlinked .t1 _ installed actual) => some (installed, actual)
  | _ => none

/-- How the pop of `main` ends with a step. -/
def Event.result? : Event → Option (Result Int)
  | .stack (.returned .main result) => some result
  | _ => none

/-- What `t1` has installed, with the `next` of the first node at that instant. -/
def swaps (events : List Event) : List (Option Addr × Option Addr) := events.filterMap Event.swap?

/-- How the pop of `main` has ended. -/
def results (events : List Event) : List (Result Int) := events.filterMap Event.result?

section Trace

variable {events : List Event} {event : Raw.Event Who Int}

theorem watch_snoc (events : List Event) (event : Event) :
    watch (events ++ [event]) = (watch events).after event := by
  simp [watch]

theorem swaps_snoc (events : List Event) (event : Event) :
    swaps (events ++ [event]) = swaps events ++ event.swap?.toList := by
  rw [swaps, List.filterMap_append, Linearization.filterMap_single, swaps]

theorem results_snoc (events : List Event) (event : Event) :
    results (events ++ [event]) = results events ++ event.result?.toList := by
  rw [results, List.filterMap_append, Linearization.filterMap_single, results]

/-- A swap is that of an unlinked node. -/
theorem mem_of_swapped {events : List Event} {installed actual : Option Addr}
    (member : (installed, actual) ∈ swaps events) :
    ∃ node, .stack (.unlinked .t1 node installed actual) ∈ events := by
  obtain ⟨event, inside, shows⟩ := List.mem_filterMap.mp member
  unfold Event.swap? at shows
  split at shows
  · cases shows
    exact ⟨_, inside⟩
  · cases shows

/-- Only `t1` swaps and reads. -/
theorem quiet_of_ne_t1 (other : event.thread ≠ .t1) :
    (Event.stack event).swap? = none ∧
      ∀ w : Watch, (w.after (.stack event)).early = w.early := by
  cases event with
  | made t | assigned t | unlinked t | readNext t =>
      cases t
      · exact absurd rfl other
      all_goals exact ⟨rfl, fun _ => rfl⟩
  | _ => exact ⟨rfl, fun _ => rfl⟩

/-- Only `main` has results. -/
theorem quiet_of_ne_main (other : event.thread ≠ .main) : (Event.stack event).result? = none := by
  cases event with
  | returned t =>
      cases t
      · rfl
      · rfl
      · exact absurd rfl other
  | _ => rfl

end Trace

/-- The positions of a thread that has unlinked the node at `a`, its last one. -/
inductive Leaving (a : Addr) : List (Call Int) → Pc Int → Prop where
  | move : Leaving a [] (.move a)
  | delete {tmp} : Leaving a [] (.delete a tmp)
  | leave {result} : Leaving a [] (.leave result)
  | finished : Leaving a [] .idle

section Leaving

variable {s stack : Raw.State Who Int} {event : Raw.Event Who Int} {a : Addr} {t : Who}

/-- A thread that leaves its last call changes its node only. -/
theorem Leaving.step (leaving : Leaving a (s.threads t).calls (s.threads t).pc)
    (effect : Raw.Effect s event stack) (thread : event.thread = t) :
    Leaving a (stack.threads t).calls (stack.threads t).pc ∧ stack.head = s.head ∧
      (∀ b, b ≠ a → stack.memory b = s.memory b) ∧ (Event.stack event).swap? = none ∧
      (∀ b, event ≠ .made t b) ∧ ∀ w : Watch, w.after (.stack event) = w := by
  subst thread
  generalize todo : (s.threads event.thread).calls = calls at leaving
  cases effect with
  | @called t call calls pc next =>
      simp only [Raw.Event.thread] at leaving todo
      rw [pc] at leaving
      have split := next.symm.trans todo
      cases leaving
      cases split
  | @moved t b data next pc found =>
      simp only [Raw.Event.thread] at leaving todo ⊢
      rw [pc] at leaving
      rw [Raw.put_calls, Raw.put_threads_self, todo]
      cases leaving
      exact ⟨.delete, rfl, fun _ _ => rfl, rfl, by simp, fun _ => rfl⟩
  | @deleted t b tmp data next pc found =>
      simp only [Raw.Event.thread] at leaving todo ⊢
      rw [pc] at leaving
      rw [Raw.put_calls, Raw.put_threads_self, todo]
      cases leaving
      exact ⟨.leave, rfl, fun c other => by simp [other], rfl, by simp, fun _ => rfl⟩
  | @returned t result pc =>
      simp only [Raw.Event.thread] at leaving todo ⊢
      rw [pc] at leaving
      rw [Raw.put_calls, Raw.put_threads_self, todo]
      cases leaving
      exact ⟨.finished, rfl, fun _ _ => rfl, rfl, by simp, fun _ => rfl⟩
  | @faulted t b accesses dead =>
      exact ⟨todo ▸ leaving, rfl, fun _ _ => rfl, rfl, by simp, fun _ => rfl⟩
  | made pc | loadedPush pc | assigned pc | published pc | pushFailed pc | loadedPop pc
  | foundEmpty pc | readNext pc | unlinked pc | popFailed pc =>
      simp only [Raw.Event.thread] at leaving
      rw [pc] at leaving
      cases leaving

/-- A thread that has come to its end takes no step. -/
theorem not_joined (calls : (s.threads t).calls = []) (pc : (s.threads t).pc = .idle)
    (effect : Raw.Effect s event stack) : event.thread ≠ t := by
  intro thread
  subst thread
  cases effect with
  | called pc next =>
      simp only [Raw.Event.thread] at calls
      rw [calls] at next
      cases next
  | faulted accesses dead =>
      simp only [Raw.Event.thread] at pc
      rw [pc] at accesses
      cases accesses
  | made pc' | loadedPush pc' | assigned pc' | published pc' | pushFailed pc' | loadedPop pc'
  | foundEmpty pc' | readNext pc' | unlinked pc' | popFailed pc' | moved pc' | deleted pc'
  | returned pc' =>
      simp only [Raw.Event.thread] at pc
      rw [pc'] at pc
      cases pc

end Leaving

/-! ### A pop that nothing disturbs -/

/-- What a pop of the present first node gives. -/
def Front (stack : Raw.State Who Int) (expected : Result Int) : Prop :=
  (stack.head = none ∧ expected = .outOfRange) ∨
    ∃ a data next, stack.head = some a ∧ stack.view a = some (data, next) ∧ expected = .value data

/-- The pop of `main`, when no other thread runs any more: how it has ended, and
its position. -/
inductive Solo (stack : Raw.State Who Int) (expected : Result Int) :
    List (Result Int) → Pc Int → Prop where
  | load (front : Front stack expected) : Solo stack expected [] .popLoad
  | test {p} (present : p = stack.head) (front : Front stack expected) :
      Solo stack expected [] (.test p)
  | exchange {a next} (present : stack.head = some a) (front : Front stack expected) :
      Solo stack expected [] (.exchange a next)
  | move {a data next} (found : stack.view a = some (data, next))
      (same : expected = .value data) : Solo stack expected [] (.move a)
  | delete {a data next content} (found : stack.view a = some (content, next))
      (same : expected = .value data) : Solo stack expected [] (.delete a data)
  | leave : Solo stack expected [] (.leave expected)
  | finished : Solo stack expected [expected] .idle

/-- A step of the pop of `main`. -/
theorem Solo.step {s stack : Raw.State Who Int} {event : Raw.Event Who Int} {expected : Result Int}
    {done : List (Result Int)} (solo : Solo s expected done (s.threads .main).pc)
    (calls : (s.threads .main).calls = []) (effect : Raw.Effect s event stack)
    (thread : event.thread = .main) :
    Solo stack expected (done ++ (Event.stack event).result?.toList) (stack.threads .main).pc ∧
      (stack.threads .main).calls = [] := by
  cases effect with
  | @called t call rest pc next =>
      obtain rfl : t = .main := thread
      rw [calls] at next
      cases next
  | @loadedPop t pc =>
      obtain rfl : t = .main := thread
      rw [pc] at solo
      rw [Raw.put_calls, Raw.put_threads_self]
      cases solo with
      | load front => exact ⟨.test rfl front, calls⟩
  | @foundEmpty t pc =>
      obtain rfl : t = .main := thread
      rw [pc] at solo
      rw [Raw.put_calls, Raw.put_threads_self]
      cases solo with
      | test present front =>
          rcases front with ⟨_, rfl⟩ | ⟨a, data, next, top, _⟩
          · exact ⟨.leave, calls⟩
          · rw [top] at present
            cases present
  | @readNext t a value pc shown =>
      obtain rfl : t = .main := thread
      rw [pc] at solo
      rw [Raw.put_calls, Raw.put_threads_self]
      cases solo with
      | test present front => exact ⟨.exchange present.symm front, calls⟩
  | @unlinked t a next pc top =>
      obtain rfl : t = .main := thread
      rw [pc] at solo
      rw [Raw.setHead_threads, Raw.put_calls, Raw.put_threads_self]
      cases solo with
      | exchange present front =>
          rcases front with ⟨empty, _⟩ | ⟨b, data, link, present', found, same⟩
          · rw [present] at empty
            cases empty
          · rw [present] at present'
            cases present'
            exact ⟨.move found same, calls⟩
  | @popFailed t a next spurious pc flag =>
      obtain rfl : t = .main := thread
      rw [pc] at solo
      rw [Raw.put_calls, Raw.put_threads_self]
      cases solo with
      | exchange present front => exact ⟨.test rfl front, calls⟩
  | @moved t a data next pc found =>
      obtain rfl : t = .main := thread
      rw [pc] at solo
      rw [Raw.put_calls, Raw.put_threads_self]
      cases solo with
      | move found' same =>
          rw [found] at found'
          cases found'
          exact ⟨.delete found same, calls⟩
  | @deleted t a tmp data next pc found =>
      obtain rfl : t = .main := thread
      rw [pc] at solo
      rw [Raw.put_calls, Raw.put_threads_self]
      cases solo with
      | delete _ same => exact ⟨same ▸ .leave, calls⟩
  | @returned t result pc =>
      obtain rfl : t = .main := thread
      rw [pc] at solo
      rw [Raw.put_calls, Raw.put_threads_self]
      cases solo with
      | leave => exact ⟨.finished, calls⟩
  | @faulted t a accesses dead =>
      obtain rfl : t = .main := thread
      generalize (s.threads .main).pc = pc at solo accesses
      cases solo with
      | move found same | delete found same =>
          cases accesses
          rw [dead] at found
          cases found
      | _ => cases accesses
  | made pc | loadedPush pc | assigned pc | published pc | pushFailed pc =>
      obtain rfl := thread
      rw [pc] at solo
      cases solo

/-! ### The phases of a run -/

/-- Whether what `main` gets is right, in view of what `t1` has installed, is
whether `t1` did not read early. -/
def Verdict (installed actual : Option Addr) (early : Bool) (expected : Result Int) : Prop :=
  (expected ≠ .outOfRange ∧ (expected = .value 666 ↔ installed ≠ actual)) ↔ early = false

/-- `main` has not popped. -/
structure Waiting (events : List Event) (s : State) : Prop where
  thread : s.stack.threads .main = ⟨[.pop], .idle⟩
  results : results events = []

/-- The phases of a run. -/
inductive Phase (top : Top) (events : List Event) (s : State) : Prop where
  | pending {stage values} (stocked : Stocked s values) (facts : Facts top stage s)
      (script : Script top stage (s.stack.threads .t2).calls (s.stack.threads .t2).pc)
      (reader : Reader top stage.rank (watch events).early
        (s.stack.threads .t1).calls (s.stack.threads .t1).pc)
      (building : (watch events).building = stage.building top)
      (notSwapped : swaps events = []) (waiting : Waiting events s)
  | matched {values a next} (stocked : Stocked s values)
      (leaving : Leaving a (s.stack.threads .t1).calls (s.stack.threads .t1).pc)
      (swapped : swaps events = [(next, next)]) (notEarly : (watch events).early = false)
      (waiting : Waiting events s)
  | mismatched {next} (head : s.stack.head = next)
      (second : s.stack.memory top.second = .live 666 none)
      (leaving : ∀ t, t ≠ .main →
        Leaving top.first (s.stack.threads t).calls (s.stack.threads t).pc)
      (swapped : swaps events = [(next, some top.third)])
      (kind : (next = some top.second ∧ (watch events).early = false) ∨
        (next = none ∧ (watch events).early = true))
      (waiting : Waiting events s)
  | popping {installed actual expected}
      (joined : ∀ t, t ≠ .main →
        (s.stack.threads t).calls = [] ∧ (s.stack.threads t).pc = .idle)
      (calls : (s.stack.threads .main).calls = [])
      (solo : Solo s.stack expected (results events) (s.stack.threads .main).pc)
      (swapped : swaps events = [(installed, actual)])
      (verdict : Verdict installed actual (watch events).early expected)

section Phases

variable {top : Top} {events : List Event} {s : State} {event : Raw.Event Who Int}
  {stack : Raw.State Who Int}

/-- `main` waits while other threads run. -/
theorem Waiting.keep (waiting : Waiting events s) (effect : Raw.Effect s.stack event stack)
    (other : event.thread ≠ .main) (freed : Who → List Addr) :
    Waiting (events ++ [.stack event]) { s with stack, freed } where
  thread := by
    rw [← waiting.thread]
    exact (effect.thread_cases .main).resolve_right (Ne.symm other)
  results := by rw [results_snoc, waiting.results, quiet_of_ne_main other]; rfl

/-- The first step of `main` is the call of its pop. -/
theorem Waiting.called (waiting : Waiting events s) (effect : Raw.Effect s.stack event stack)
    (thread : event.thread = .main) :
    event = .called .main .pop ∧ stack = { s.stack with
      threads := Function.update s.stack.threads .main ⟨[], .popLoad⟩ } := by
  have main := waiting.thread
  cases effect with
  | @called t call calls pc next =>
      obtain rfl : t = .main := thread
      rw [main] at next
      cases next
      exact ⟨rfl, rfl⟩
  | faulted accesses dead =>
      obtain rfl := thread
      rw [main] at accesses
      cases accesses
  | made pc | loadedPush pc | assigned pc | published pc | pushFailed pc | loadedPop pc
  | foundEmpty pc | readNext pc | unlinked pc | popFailed pc | moved pc | deleted pc
  | returned pc =>
      obtain rfl := thread
      rw [main] at pc
      cases pc

/-- The pop of `main` begins after both joins. -/
theorem joined_of_ready (ready : s.ready .main = true) (t : Who) (other : t ≠ .main) :
    (s.stack.threads t).calls = [] ∧ (s.stack.threads t).pc = .idle := by
  simp only [State.ready, State.joined, Bool.and_eq_true, decide_eq_true_eq] at ready
  cases t with
  | t1 => exact ready.1
  | t2 => exact ready.2
  | main => exact absurd rfl other

/-- From both joins on `main` pops what is first. -/
theorem Phase.begin {expected : Result Int} {installed actual : Option Addr}
    (waiting : Waiting events s) (effect : Raw.Effect s.stack event stack)
    (thread : event.thread = .main) (ready : s.ready .main = true)
    (front : Front s.stack expected) (swapped : swaps events = [(installed, actual)])
    (verdict : Verdict installed actual (watch events).early expected) (freed : Who → List Addr) :
    Phase top (events ++ [.stack event]) { s with stack, freed } := by
  obtain ⟨rfl, rfl⟩ := waiting.called effect thread
  have swapped' : swaps (events ++ [.stack (.called .main .pop)]) = [(installed, actual)] := by
    rw [swaps_snoc, swapped]
    rfl
  have verdict' : Verdict installed actual
      (watch (events ++ [.stack (.called .main .pop)])).early expected := by
    rw [watch_snoc]
    exact verdict
  refine .popping (fun t other => ?_) ?_ ?_ swapped' verdict'
  · simp only [Function.update_of_ne other]
    exact joined_of_ready ready t other
  · simp only [Function.update_self]
  · rw [results_snoc, waiting.results]
    simp only [Function.update_self]
    exact .load front

section Pending

variable {stage : Stage} {values : List Int} (stocked : Stocked s values)
  (facts : Facts top stage s)
  (script : Script top stage (s.stack.threads .t2).calls (s.stack.threads .t2).pc)
  (reader : Reader top stage.rank (watch events).early
    (s.stack.threads .t1).calls (s.stack.threads .t1).pc)
  (building : (watch events).building = stage.building top)
  (notSwapped : swaps events = []) (waiting : Waiting events s)
  (effect : Raw.Effect s.stack event stack) (provided : Provided s event)

include stocked facts script reader building notSwapped waiting effect provided

/-- A step of `t2` before `t1` has unlinked its node. -/
theorem Phase.pending_t2 (thread : event.thread = .t2) (ready : s.ready .t2 = true) :
    Phase top (events ++ [.stack event])
      { s with stack, freed := freedAfter s.freed event } := by
  have notMain : event.thread ≠ .main := by simp [thread]
  have notT1 : event.thread ≠ .t1 := by simp [thread]
  have t1 : stack.threads .t1 = s.stack.threads .t1 :=
    (effect.thread_cases .t1).resolve_right (Ne.symm notT1)
  obtain ⟨values', stocked', notFaulted⟩ := stocked.step effect notMain
    (fun a made => notT1 (by rw [made]; rfl)) (by rw [waiting.thread])
    fun a installed actual unlinked => absurd (by rw [unlinked]; rfl) notT1
  obtain ⟨stage', facts', script', later, watched⟩ :=
    script.step facts effect thread provided ready notFaulted
  obtain ⟨building', early⟩ := watched _ building
  refine .pending stocked' facts' script' ?_ ?_ ?_ (waiting.keep effect notMain _)
  · rw [watch_snoc, early]
    exact t1 ▸ reader.mono later
  · rw [watch_snoc, building']
  · rw [swaps_snoc, notSwapped, (quiet_of_ne_t1 notT1).1]
    rfl

/-- A step of `t1` that does not unlink a node. -/
theorem Phase.pending_t1 (thread : event.thread = .t1)
    (notUnlinked : ∀ a installed actual, event ≠ .unlinked .t1 a installed actual) :
    Phase top (events ++ [.stack event])
      { s with stack, freed := freedAfter s.freed event } := by
  have notMain : event.thread ≠ .main := by simp [thread]
  have t2 : stack.threads .t2 = s.stack.threads .t2 :=
    (effect.thread_cases .t2).resolve_right (by simp [thread])
  have notMade : ∀ a, event ≠ .made .t1 a := by
    rintro a rfl
    cases effect with
    | made pc fresh =>
        generalize (s.stack.threads .t1).calls = calls at reader
        rw [pc] at reader
        cases reader
  obtain ⟨values', stocked', notFaulted⟩ := stocked.step effect notMain notMade
    (by rw [waiting.thread]) fun a installed actual unlinked =>
      absurd unlinked (notUnlinked a installed actual)
  obtain ⟨facts', reader', building'⟩ :=
    reader.step facts building effect thread provided notUnlinked notFaulted
  refine .pending stocked' facts' (t2 ▸ script) ?_ ?_ ?_ (waiting.keep effect notMain _)
  · rw [watch_snoc]
    exact reader'
  · rw [watch_snoc, building', building]
  · have noSwap : (Event.stack event).swap? = none := by
      cases event with
      | unlinked t a installed actual =>
          obtain rfl : t = .t1 := thread
          exact absurd rfl (notUnlinked a installed actual)
      | _ => rfl
    rw [swaps_snoc, notSwapped, noSwap]
    rfl

/-- The step in which `t1` unlinks a node. -/
theorem Phase.pending_unlinked {a : Addr} {installed actual : Option Addr}
    (unlinked : event = .unlinked .t1 a installed actual) :
    Phase top (events ++ [.stack event])
      { s with stack, freed := freedAfter s.freed event } := by
  have notMain : event.thread ≠ .main := by simp [unlinked, Raw.Event.thread]
  have waiting' := waiting.keep effect notMain (freedAfter s.freed event)
  have step := stocked.step effect notMain (by simp [unlinked]) (by rw [waiting.thread])
  subst unlinked
  have swapped : swaps (events ++ [.stack (.unlinked .t1 a installed actual)]) =
      [(installed, actual)] := by
    rw [swaps_snoc, notSwapped]
    rfl
  have early : (watch (events ++ [.stack (.unlinked .t1 a installed actual)])).early =
      (watch events).early := by
    rw [watch_snoc]
    rfl
  cases effect with
  | unlinked pc head =>
      rw [pc] at reader
      generalize todo : (s.stack.threads .t1).calls = calls at reader
      cases reader with
      | exchange read =>
          obtain rfl : stage.head top = a := by
            rw [facts.head] at head
            exact Option.some.inj head
          rcases facts.installs read with ⟨present, notEarly⟩ | ⟨rfl, present, kind⟩
          · obtain ⟨values', stocked', _⟩ := step fun b next actual same => by
              cases same
              exact present
            rw [present] at swapped waiting' stocked' early ⊢
            refine .matched stocked' (a := stage.head top) ?_ swapped (early.trans notEarly)
              waiting'
            rw [Raw.setHead_threads, Raw.put_calls, Raw.put_threads_self, todo]
            exact .move
          · rw [present] at swapped waiting' early ⊢
            refine .mismatched rfl facts.secondBlock (fun t other => ?_) swapped
              (by rw [early]; exact kind) waiting'
            rw [Raw.setHead_threads, Raw.put_calls]
            cases t with
            | t1 =>
                rw [Raw.put_threads_self, todo]
                exact .move
            | t2 =>
                rw [Raw.put_threads_other s.stack (by simp)]
                generalize (s.stack.threads .t2).calls = calls at script ⊢
                generalize (s.stack.threads .t2).pc = pc at script ⊢
                cases script with
                | leave => exact .leave
                | finished => exact .finished
            | main => exact absurd rfl other

end Pending

/-- A step after `t1` has installed the `next` of the first node. -/
theorem Phase.matched_step {values : List Int} {a : Addr} {next : Option Addr}
    (stocked : Stocked s values)
    (leaving : Leaving a (s.stack.threads .t1).calls (s.stack.threads .t1).pc)
    (swapped : swaps events = [(next, next)]) (notEarly : (watch events).early = false)
    (waiting : Waiting events s) (ready : s.ready event.thread = true)
    (effect : Raw.Effect s.stack event stack) :
    Phase top (events ++ [.stack event])
      { s with stack, freed := freedAfter s.freed event } := by
  by_cases main : event.thread = .main
  · -- both threads have come to their end, so that a value is left
    have joined := joined_of_ready (main ▸ ready)
    have none_ : ∀ t, t ≠ .main →
        pops (s.stack.threads t) = 0 ∧ pushes (s.stack.threads t) = 0 := by
      intro t other
      obtain ⟨calls, pc⟩ := joined t other
      simp [pops, pushes, calls, pc, pushed]
    have enough := stocked.enough
    rw [(none_ .t1 (by simp)).1, (none_ .t1 (by simp)).2, (none_ .t2 (by simp)).1,
      (none_ .t2 (by simp)).2] at enough
    have stores := stocked.inv.stores
    have clean := stocked.clean
    cases values with
    | nil => simp at enough
    | cons data rest =>
        have front : Front s.stack (.value data) := by
          rw [Raw.Stores] at stores
          generalize head : s.stack.head = first at stores
          cases stores with
          | cons found _ => exact .inr ⟨_, data, _, head, found, rfl⟩
        refine Phase.begin waiting effect main (main ▸ ready) front swapped ?_ _
        rw [List.mem_cons, not_or] at clean
        simp [Verdict, notEarly, Ne.symm clean.1]
  · have waiting' := waiting.keep effect main (freedAfter s.freed event)
    by_cases first : event.thread = .t1
    · obtain ⟨leaving', _, _, noSwap, notMade, watched⟩ := leaving.step effect first
      obtain ⟨values', stocked', _⟩ := stocked.step effect main (by simp [notMade])
        (by rw [waiting.thread]) fun b installed actual same => by
          rw [same] at noSwap
          cases noSwap
      refine .matched stocked' leaving' (by rw [swaps_snoc, swapped, noSwap]; rfl) ?_ waiting'
      rw [watch_snoc, watched, notEarly]
    · obtain ⟨values', stocked', _⟩ := stocked.step effect main
        (fun b made => first (by rw [made]; rfl)) (by rw [waiting.thread])
        fun b installed actual same => absurd (by rw [same]; rfl) first
      have same : stack.threads .t1 = s.stack.threads .t1 :=
        (effect.thread_cases .t1).resolve_right (Ne.symm first)
      obtain ⟨noSwap, watched⟩ := quiet_of_ne_t1 first
      refine .matched stocked' (same ▸ leaving) (by rw [swaps_snoc, swapped, noSwap]; rfl) ?_
        waiting'
      rw [watch_snoc, watched, notEarly]

/-- A step after `t1` has installed another pointer. -/
theorem Phase.mismatched_step {next : Option Addr} (head : s.stack.head = next)
    (second : s.stack.memory top.second = .live 666 none)
    (leaving : ∀ t, t ≠ .main →
      Leaving top.first (s.stack.threads t).calls (s.stack.threads t).pc)
    (swapped : swaps events = [(next, some top.third)])
    (kind : (next = some top.second ∧ (watch events).early = false) ∨
      (next = none ∧ (watch events).early = true))
    (waiting : Waiting events s) (ready : s.ready event.thread = true)
    (effect : Raw.Effect s.stack event stack) :
    Phase top (events ++ [.stack event])
      { s with stack, freed := freedAfter s.freed event } := by
  by_cases main : event.thread = .main
  · rcases kind with ⟨rfl, early⟩ | ⟨rfl, early⟩
    · have front : Front s.stack (.value 666) :=
        .inr ⟨top.second, 666, none, head, by rw [Raw.State.view, second]; rfl, rfl⟩
      refine Phase.begin waiting effect main (main ▸ ready) front swapped ?_ _
      simp [Verdict, early, top.second_ne_third]
    · refine Phase.begin waiting effect main (main ▸ ready) (.inl ⟨head, rfl⟩) swapped ?_ _
      simp [Verdict, early]
  · obtain ⟨leaving', head', memory, noSwap, _, watched⟩ := (leaving _ main).step effect rfl
    refine .mismatched (head'.trans head) ?_ (fun t other => ?_)
      (by rw [swaps_snoc, swapped, noSwap]; rfl) (by rw [watch_snoc, watched]; exact kind)
      (waiting.keep effect main _)
    · simp only
      rw [memory _ (Ne.symm top.first_ne_second), second]
    · by_cases own : t = event.thread
      · rw [own]
        exact leaving'
      · have same : stack.threads t = s.stack.threads t :=
          (effect.thread_cases t).resolve_right own
        simp only [same]
        exact leaving t other

/-- Every step leads from phase to phase. -/
theorem Phase.step {event : Event} {s' : State} (phase : Phase top events s)
    (transition : machine.Step s event s') : Phase top (events ++ [event]) s' := by
  cases step_effect transition with
  | stack ready effect provided =>
      rename_i event stack
      cases phase with
      | pending stocked facts script reader building notSwapped waiting =>
          cases thread : event.thread with
          | t2 =>
              exact .pending_t2 stocked facts script reader building notSwapped waiting effect
                provided thread (thread ▸ ready)
          | t1 =>
              by_cases unlinks : ∃ a installed actual, event = .unlinked .t1 a installed actual
              · obtain ⟨a, installed, actual, unlinked⟩ := unlinks
                exact .pending_unlinked stocked facts script reader building notSwapped waiting
                  effect provided unlinked
              · push Not at unlinks
                exact .pending_t1 stocked facts script reader building notSwapped waiting effect
                  provided thread unlinks
          | main =>
              obtain ⟨calls, pc⟩ := joined_of_ready (thread ▸ ready) .t1 (by simp)
              rw [calls, pc] at reader
              cases reader
      | matched stocked leaving swapped notEarly waiting =>
          exact .matched_step stocked leaving swapped notEarly waiting ready effect
      | mismatched head second leaving swapped kind waiting =>
          exact .mismatched_step head second leaving swapped kind waiting ready effect
      | popping joined calls solo swapped verdict =>
          have main : event.thread = .main := by
            by_contra other
            exact not_joined (joined _ other).1 (joined _ other).2 effect rfl
          have notT1 : event.thread ≠ .t1 := by simp [main]
          obtain ⟨noSwap, watched⟩ := quiet_of_ne_t1 notT1
          obtain ⟨solo', calls'⟩ := solo.step calls effect main
          refine .popping (fun t other => ?_) calls' (by rw [results_snoc]; exact solo')
            (by rw [swaps_snoc, swapped, noSwap]; rfl) (by rw [watch_snoc, watched]; exact verdict)
          have same : stack.threads t = s.stack.threads t :=
            (effect.thread_cases t).resolve_right (by simpa [main] using other)
          simp only [same]
          exact joined t other
  | @constructed node at_ first answers fresh =>
      have calls : (s.stack.threads .t2).calls = [.push 5] := by
        simp only [State.atConstruct, Bool.and_eq_true, decide_eq_true_eq] at at_
        exact at_.1
      have waits : Waiting events s →
          Waiting (events ++ [.constructed node]) (construct s node).2 := fun waiting =>
        ⟨waiting.thread, by rw [results_snoc, waiting.results]; rfl⟩
      have swaps' : swaps (events ++ [.constructed node]) = swaps events := by
        rw [swaps_snoc]
        exact List.append_nil _
      have watch' : watch (events ++ [.constructed node]) = watch events := by
        rw [watch_snoc]
        rfl
      cases phase with
      | pending stocked facts script reader building notSwapped waiting =>
          obtain ⟨stage', facts', script', later, before, after⟩ :=
            facts.constructed script at_ first answers
          refine .pending (stocked.constructed fresh) facts' script' ?_ ?_ ?_ (waits waiting)
          · rw [watch']
            exact reader.mono later
          · rw [watch', building, before, after]
          · rw [swaps', notSwapped]
      | matched stocked leaving swapped notEarly waiting =>
          exact .matched (stocked.constructed fresh) leaving (swaps'.trans swapped)
            (by rw [watch', notEarly]) (waits waiting)
      | mismatched head second leaving swapped kind waiting =>
          have left := leaving .t2 (by simp)
          rw [calls] at left
          cases left
      | popping joined calls' solo swapped verdict =>
          have ended := (joined .t2 (by simp)).1
          rw [calls] at ended
          cases ended

end Phases

/-! ### Runs -/

/-- The memory holds no other nodes than those it is filled with. -/
theorem filled_unused {nodes : List (Addr × Int)} {a : Addr} (other : a ∉ nodes.map Prod.fst) :
    filled nodes a = .unused := by
  induction nodes with
  | nil => rfl
  | cons node rest inductionHypothesis =>
      obtain ⟨b, data⟩ := node
      rw [List.map_cons, List.mem_cons, not_or] at other
      rw [filled, Function.update_of_ne other.1]
      exact inductionHypothesis other.2

/-- The memory filled with a list of nodes lists their data. -/
theorem lists_filled {nodes : List (Addr × Int)} (distinct : (nodes.map Prod.fst).Nodup) :
    Memory.Lists (fun a => (filled nodes a).view) (nodes.head?.map Prod.fst)
      (nodes.map Prod.snd) := by
  induction nodes with
  | nil => exact .nil
  | cons node rest inductionHypothesis =>
      obtain ⟨a, data⟩ := node
      obtain ⟨notLater, distinct⟩ := List.nodup_cons.mp distinct
      have lists := inductionHypothesis distinct
      have found : (filled ((a, data) :: rest) a).view = some (data, rest.head?.map Prod.fst) := by
        simp [filled]
      refine .cons found (lists.congr fun b reaches => ?_)
      have other : b ≠ a := by
        rintro rfl
        obtain ⟨_, _, found, _⟩ := lists.found reaches
        rw [filled_unused notLater] at found
        cases found
      rw [filled, Function.update_of_ne other]

/-- The start of the threads is before `t1` has unlinked a node. -/
theorem phase_initial {nodes : List (Addr × Int)} (distinct : (nodes.map Prod.fst).Nodup)
    (three : 3 ≤ nodes.length) (clean : ∀ node ∈ nodes, node.2 ≠ 666) :
    ∃ top, Phase top [] (initial nodes) := by
  have lists := lists_filled distinct
  have notStored : (666 : Int) ∉ nodes.map Prod.snd := by
    intro member
    obtain ⟨node, inside, same⟩ := List.mem_map.mp member
    exact clean node inside same
  have stocked : Stocked (initial nodes) (nodes.map Prod.snd) := by
    refine ⟨⟨lists, fun t => .of_none rfl fun _ _ => by simp [initial],
      fun _ _ _ => ⟨by rintro a ⟨⟩, by rintro _ a ⟨⟩⟩⟩,
      fun t => ?_, notStored, ?_⟩
    · cases t <;> exact ⟨by simp [initial, program], by simp [initial, pushed]⟩
    · simp [initial, program, pops, pushes, pushed, Call.pushing]
      omega
  obtain ⟨⟨a, x⟩, ⟨b, y⟩, ⟨c, z⟩, rest, rfl⟩ :
      ∃ first second third rest, nodes = first :: second :: third :: rest := by
    rcases nodes with _ | ⟨first, _ | ⟨second, _ | ⟨third, rest⟩⟩⟩
    case cons.cons.cons => exact ⟨first, second, third, rest, rfl⟩
    all_goals simp at three
  simp only [List.map_cons, List.nodup_cons, List.mem_cons, not_or] at distinct
  obtain ⟨⟨ab, ac, _⟩, ⟨bc, _⟩, _⟩ := distinct
  let top : Top := ⟨a, b, c, x, y, z, rest.head?.map Prod.fst, ab, ac, bc⟩
  have facts : Facts top .untouched (initial ((a, x) :: (b, y) :: (c, z) :: rest)) := by
    refine ⟨rfl, ?_, ?_, ?_, rfl, rfl⟩
    · simp [initial, filled, Stage.firstBlock, top]
    · simp [initial, filled, Stage.secondBlock, top, Ne.symm ab]
    · simp [initial, filled, top, Ne.symm ac, Ne.symm bc]
  exact ⟨top, .pending stocked facts .start .start rfl rfl ⟨rfl, rfl⟩⟩

/-- Every run is in a phase. -/
theorem phase_of_run {nodes : List (Addr × Int)} {events : List Event} {s : State}
    (distinct : (nodes.map Prod.fst).Nodup) (three : 3 ≤ nodes.length)
    (clean : ∀ node ∈ nodes, node.2 ≠ 666) (run : machine.Steps (initial nodes) events s) :
    ∃ top, Phase top events s := by
  obtain ⟨top, begun⟩ := phase_initial distinct three clean
  exact ⟨top, run.traceInvariant begun fun phase _ transition => phase.step transition⟩

/-- A run in which `t1` reads the `next` of the node that `t2` is about to push
before it is assigned: `t1` installs a null pointer, and the pop of `main` throws. -/
theorem early_read_undetected : ∃ (events : List Event) (s : State),
    machine.Steps (initial [(0, 4), (1, 3), (2, 2), (3, 1)]) events s ∧
      .stack (.unlinked .t1 0 none (some 2)) ∈ events ∧
      .stack (.returned .main .outOfRange) ∈ events ∧ ¬ Exact events := by
  let t1 : Choice := .stack (.run .t1)
  let t2 : Choice := .stack (.run .t2)
  obtain ⟨events, s, run, unlinked, returned⟩ :
      ∃ events s, machine.Steps (initial [(0, 4), (1, 3), (2, 2), (3, 1)]) events s ∧
        .stack (.unlinked .t1 0 none (some 2)) ∈ events ∧
        .stack (.returned .main .outOfRange) ∈ events :=
    System.exists_steps (t1 :: t1 :: List.replicate 14 t2 ++
      [.construct 1, t2, .stack (.allocate .t2 0), t1, .stack (.see .t2 (some 2)), t2, t2, t2,
        t1, t1, t1, t1] ++ List.replicate 4 (.stack (.run .main))) (by decide +kernel)
  exact ⟨events, s, run, unlinked, returned, fun exact_ => (exact_ _ returned).1 rfl⟩

/-- Once the pop of `main` has returned, its verdict is right exactly when `t1`
did not read the `next` of a node between its construction by `t2` and the
assignment of its `next`. -/
theorem exact_iff_not_early {nodes : List (Addr × Int)} {events : List Event} {s : State}
    {result : Result Int} (distinct : (nodes.map Prod.fst).Nodup) (three : 3 ≤ nodes.length)
    (clean : ∀ node ∈ nodes, node.2 ≠ 666) (run : machine.Steps (initial nodes) events s)
    (returned : .stack (.returned .main result) ∈ events) :
    Exact events ↔ ¬ EarlyRead events := by
  obtain ⟨top, phase⟩ := phase_of_run distinct three clean run
  have ended : ∀ {r}, .stack (.returned .main r) ∈ events → r ∈ results events := fun member =>
    List.mem_filterMap.mpr ⟨_, member, rfl⟩
  have notWaiting : ¬ Waiting events s := by
    intro waiting
    have member := ended returned
    rw [waiting.results] at member
    cases member
  cases phase with
  | pending _ _ _ _ _ _ waiting | matched _ _ _ _ waiting | mismatched _ _ _ _ _ waiting =>
      exact absurd waiting notWaiting
  | @popping installed actual expected joined calls solo swapped verdict =>
      have only : results events = [expected] := by
        have member := ended returned
        generalize results events = done at solo member
        generalize (s.stack.threads .main).pc = pc at solo
        cases solo with
        | finished => rfl
        | _ => cases member
      have isLast : ∀ {r}, .stack (.returned .main r) ∈ events ↔ r = expected := by
        intro r
        constructor
        · intro member
          have last := ended member
          rwa [only, List.mem_singleton] at last
        · rintro rfl
          have last := ended returned
          rw [only, List.mem_singleton] at last
          exact last ▸ returned
      have unlinked : (∃ node installed actual,
          .stack (.unlinked .t1 node installed actual) ∈ events ∧ installed ≠ actual) ↔
            installed ≠ actual := by
        constructor
        · rintro ⟨node, installed', actual', member, different⟩
          have swap : (installed', actual') ∈ swaps events :=
            List.mem_filterMap.mpr ⟨_, member, rfl⟩
          rw [swapped, List.mem_singleton] at swap
          cases swap
          exact different
        · intro different
          obtain ⟨node, member⟩ := mem_of_swapped (show (installed, actual) ∈ swaps events by
            simp [swapped])
          exact ⟨node, installed, actual, member, different⟩
      have verdict := verdict
      simp only [Verdict] at verdict
      rw [EarlyRead, Bool.not_eq_true, ← verdict, ← unlinked]
      constructor
      · exact fun exact_ => exact_ expected (isLast.mpr rfl)
      · intro right r member
        rw [isLast.mp member]
        exact right

/-- A run in which `t1` installs the node 666 and `main` gets it. -/
theorem exact_iff_not_early_run : ∃ (events : List Event) (s : State),
    machine.Steps (initial [(0, 4), (1, 3), (2, 2), (3, 1)]) events s ∧
      .stack (.unlinked .t1 0 (some 1) (some 2)) ∈ events ∧
      .stack (.returned .main (.value 666)) ∈ events ∧ Exact events := by
  let t1 : Choice := .stack (.run .t1)
  let t2 : Choice := .stack (.run .t2)
  obtain ⟨events, s, run, unlinked, returned, notEarly⟩ :
      ∃ events s, machine.Steps (initial [(0, 4), (1, 3), (2, 2), (3, 1)]) events s ∧
        .stack (.unlinked .t1 0 (some 1) (some 2)) ∈ events ∧
        .stack (.returned .main (.value 666)) ∈ events ∧ (watch events).early = false :=
    System.exists_steps (t1 :: t1 :: t1 :: List.replicate 14 t2 ++
      [.construct 1, t2, .stack (.allocate .t2 0), .stack (.see .t2 (some 2)), t2, t2, t2,
        t1, t1, t1, t1] ++ List.replicate 7 (.stack (.run .main))) (by decide +kernel)
  refine ⟨events, s, run, unlinked, returned, ?_⟩
  refine (exact_iff_not_early (by decide) (by decide) (by decide) run returned).mpr ?_
  simp [EarlyRead, notEarly]

end LockFree.Aba.Detect
