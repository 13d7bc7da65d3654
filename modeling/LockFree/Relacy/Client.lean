import LockFree.Relacy.Clocks
import LockFree.Relacy.Commute
import LockFree.Semantics.Movers

/-!
# Test programs

A thread of a test is code that performs operations, goes on with what they
return, and may find that an assertion fails. `Code` is what it does up to the
next scheduling point.

The threads of a test run in all interleavings of their operations. The
simulator switches threads at scheduling points only; `moves` says why nothing is
lost by that.
-/

namespace LockFree.Relacy

/-- What an operation returns: nothing, a value, or whether an exchange has
succeeded together with the value it has found. -/
inductive Response (Value : Type) where
  | done
  | value (value : Value)
  | exchanged (success : Bool) (value : Value)
deriving DecidableEq, Repr

/-- What an operation that shows an event returns to the program. -/
def Op.response {Tid Value : Type} (s : State Tid Value) :
    Op Value → Event Tid Value → Response Value
  | .compareExchange _ x _ _ _ _, .rmw .. => .exchanged true (s.atomics x).value
  | .compareExchange _ x _ _ _ _, _ => .exchanged false (s.atomics x).value
  | .rmw x _ _, _ => .value (s.atomics x).value
  | .load .., .load _ _ _ _ value => .value value
  | .varLoad _, .access _ _ _ value => .value value
  | _, _ => .done

/-- What a thread does up to the next scheduling point. At a scheduling point
nothing is left of it but the variables of the thread. -/
inductive Code (Local Value User : Type) where
  | finish
  | assert (user : User)
  | act (op : Op Value) (quiet : op.scheds? = some false)
      (next : Response Value → Code Local Value User)
  | call (op : Op Value) (scheds : op.scheds? = some true) (resume : Response Value → Local)

/-- The threads of a test. -/
structure Client (Tid Local Value User : Type) where
  start : Tid → Local
  code : Local → Code Local Value User

/-- Why an iteration fails: `test_result_e`, as far as it concerns the operations
of a test. -/
inductive Failure (User : Type) where
  | user (user : User)
  | dataRace
  | unitializedAccess
  | livelock
  | unverified
deriving DecidableEq, Repr

/-- The failure an event reports. -/
def Event.failure? {Tid Value User : Type} : Event Tid Value → Option (Failure User)
  | .raced .. => some .dataRace
  | .uninitialized _ => some .unitializedAccess
  | _ => none

/-- The memory, what each thread has left to do, and how the run has ended. -/
structure Config (Tid Local Value User : Type) where
  memory : State Tid Value
  codes : Tid → Code Local Value User
  failure : Option (Failure User)

/-- Which thread goes on, and what the scheduler answers its operation. -/
structure Pick (Tid : Type) where
  thread : Tid
  stop : Nat → Bool
  spurious : Bool

variable {Tid Local Value User : Type} [DecidableEq Tid]

/-- The thread has come to a scheduling point. -/
def Code.calls : Code Local Value User → Bool
  | .call .. => true
  | _ => false

/-- A thread has performed an operation. -/
def Config.after (c : Config Tid Local Value User) (t : Tid) (code : Code Local Value User)
    (taken : Event Tid Value × State Tid Value) : Config Tid Local Value User :=
  ⟨taken.2, Function.update c.codes t code, taken.1.failure?⟩

/-- The start of a test. -/
def Client.begin (client : Client Tid Local Value User) (memory : State Tid Value) :
    Config Tid Local Value User :=
  ⟨memory, fun t => client.code (client.start t), none⟩

/-- One operation of one thread. -/
def Client.step? [Fintype Tid] [DecidableEq Value] (client : Client Tid Local Value User)
    (setting : Setting) (c : Config Tid Local Value User) (pick : Pick Tid) :
    Option (Option (Event Tid Value) × Config Tid Local Value User) :=
  if c.failure.isSome then none
  else
    match c.codes pick.thread with
    | .finish => none
    | .assert user => some (none, { c with failure := some (.user user) })
    | .act op _ next =>
        (perform setting c.memory pick.thread pick.stop pick.spurious op).map fun taken =>
          (some taken.1, c.after pick.thread (next (op.response c.memory taken.1)) taken)
    | .call op _ resume =>
        (perform setting c.memory pick.thread pick.stop pick.spurious op).map fun taken =>
          (some taken.1, c.after pick.thread
            (client.code (resume (op.response c.memory taken.1))) taken)

/-- The threads of a test, interleaved operation by operation. -/
def Client.runs [Fintype Tid] [DecidableEq Value] (client : Client Tid Local Value User)
    (setting : Setting) : System (Config Tid Local Value User) (Option (Event Tid Value)) :=
  .ofStep? (client.step? setting)

/-- The operation a thread performs next, and what it does then. -/
def Code.operation? (client : Client Tid Local Value User) :
    Code Local Value User → Option (Op Value × (Response Value → Code Local Value User))
  | .act op _ next => some (op, next)
  | .call op _ resume => some (op, fun response => client.code (resume response))
  | .finish | .assert _ => none

/-! ### One step -/

section Steps

omit [DecidableEq Tid] in
/-- Operations after a scheduling point are those that need one. -/
theorem scheds_of_operation? {client : Client Tid Local Value User} {code : Code Local Value User}
    {op : Op Value} {further : Response Value → Code Local Value User}
    (operates : code.operation? client = some (op, further)) : op.scheds? = some code.calls := by
  cases code with
  | act op quiet next =>
      obtain ⟨rfl, -⟩ := Prod.mk.inj (Option.some.inj operates)
      exact quiet
  | call op scheds resume =>
      obtain ⟨rfl, -⟩ := Prod.mk.inj (Option.some.inj operates)
      exact scheds
  | finish | assert => cases operates

variable [Fintype Tid] [DecidableEq Value] {client : Client Tid Local Value User}
  {setting : Setting} {c c' : Config Tid Local Value User} {pick : Pick Tid}
  {shown : Option (Event Tid Value)}

/-- An assertion fails. -/
theorem step?_of_assert (pick : Pick Tid) {user : User} (fine : c.failure = none)
    (code : c.codes pick.thread = .assert user) :
    client.step? setting c pick = some (none, { c with failure := some (.user user) }) := by
  simp [Client.step?, fine, code]

/-- An operation is performed. -/
theorem step?_of_operation (pick : Pick Tid) {op : Op Value}
    {further : Response Value → Code Local Value User} {taken : Event Tid Value × State Tid Value}
    (fine : c.failure = none)
    (operates : (c.codes pick.thread).operation? client = some (op, further))
    (performed : perform setting c.memory pick.thread pick.stop pick.spurious op = some taken) :
    client.step? setting c pick =
      some (some taken.1, c.after pick.thread (further (op.response c.memory taken.1)) taken) := by
  cases code : c.codes pick.thread with
  | act op' quiet next =>
      rw [code] at operates
      obtain ⟨rfl, rfl⟩ := Prod.mk.inj (Option.some.inj operates)
      simp [Client.step?, fine, code, performed]
  | call op' scheds resume =>
      rw [code] at operates
      obtain ⟨rfl, rfl⟩ := Prod.mk.inj (Option.some.inj operates)
      simp [Client.step?, fine, code, performed]
  | finish | assert =>
      rw [code] at operates
      cases operates

/-- The forms of a step. -/
theorem step?_cases (step : client.step? setting c pick = some (shown, c')) :
    c.failure = none ∧
      ((∃ user, c.codes pick.thread = .assert user ∧ shown = none ∧
          c' = { c with failure := some (.user user) }) ∨
        ∃ op further taken, (c.codes pick.thread).operation? client = some (op, further) ∧
          perform setting c.memory pick.thread pick.stop pick.spurious op = some taken ∧
          shown = some taken.1 ∧
          c' = c.after pick.thread (further (op.response c.memory taken.1)) taken) := by
  rw [Client.step?] at step
  cases running : c.failure with
  | some failure => simp [running] at step
  | none =>
      refine ⟨rfl, ?_⟩
      simp only [running, Option.isSome_none, Bool.false_eq_true, if_false] at step
      cases code : c.codes pick.thread with
      | finish => simp [code] at step
      | assert user =>
          simp only [code, Option.some.injEq, Prod.mk.injEq] at step
          exact .inl ⟨user, rfl, step.1.symm, step.2.symm⟩
      | act op quiet next =>
          simp only [code, Option.map_eq_some_iff, Prod.mk.injEq] at step
          obtain ⟨taken, performed, shows, reaches⟩ := step
          exact .inr ⟨op, next, taken, rfl, performed, shows.symm, reaches.symm⟩
      | call op scheds resume =>
          simp only [code, Option.map_eq_some_iff, Prod.mk.injEq] at step
          obtain ⟨taken, performed, shows, reaches⟩ := step
          exact .inr ⟨op, _, taken, rfl, performed, shows.symm, reaches.symm⟩

/-- A step of the test is a step of the memory, or leaves it alone. -/
theorem memory_of_step (fine : c.memory.failed = false)
    (step : client.step? setting c pick = some (shown, c')) :
    (∃ event, (machine setting).Step c.memory event c'.memory ∧
        c'.failure = event.failure?) ∨
      c'.memory = c.memory ∧ c'.failure.isSome = true := by
  obtain ⟨_, ⟨user, _, _, rfl⟩ | ⟨op, _, taken, _, performed, _, rfl⟩⟩ := step?_cases step
  · exact .inr ⟨rfl, rfl⟩
  · refine .inl ⟨taken.1, ⟨⟨pick.thread, op, pick.stop, pick.spurious⟩, ?_⟩, rfl⟩
    simp [Relacy.step?, fine, performed, Config.after]

end Steps

/-- A step that reports no failure does not end the run. -/
theorem failed_of_effect [Fintype Tid] {setting : Setting} {s s' : State Tid Value}
    {event : Event Tid Value} (effect : Effect setting s event s') (fine : s.failed = false)
    (silent : (event.failure? : Option (Failure User)) = none) : s'.failed = false := by
  cases effect with
  | racedLoad | racedStore | uninitialized => cases silent
  | _ => exact fine

omit [DecidableEq Tid] in
theorem failure?_eq_none_iff {event : Event Tid Value} :
    (event.failure? : Option (Failure User)) = none ↔ event.isFailure = false := by
  cases event <;> simp [Event.failure?, Event.isFailure]

/-! ### Why scheduling points are enough -/

section Moves

variable [Fintype Tid] [DecidableEq Value]

/-- The steps of the threads. The visible ones are those after a scheduling point. -/
def Client.threaded (client : Client Tid Local Value User) (setting : Setting) :
    Threaded (Config Tid Local Value User) Tid where
  step t visible c c' := (c.codes t).calls = visible ∧
    ∃ stop spurious shown, client.step? setting c ⟨t, stop, spurious⟩ = some (shown, c')
  Bad c := c.failure.isSome = true

/-- The memory of a run that has not failed, or has just failed. -/
structure Reached [Inhabited Value] (random : Bool) (c : Config Tid Local Value User) : Prop where
  run : ∃ events, (machine (source random)).Steps initial events c.memory
  running : c.failure = none → c.memory.failed = false

variable {client : Client Tid Local Value User} {setting : Setting} {random : Bool}
  {c c' : Config Tid Local Value User} {t u : Tid}

/-- A thread has a local step unless it is done or has come to a scheduling point. -/
theorem idle_iff (fine : c.failure = none) :
    (client.threaded setting).Idle t c ↔ c.codes t = .finish ∨ (c.codes t).calls = true := by
  constructor
  · intro idle
    cases code : c.codes t with
    | finish => exact .inl rfl
    | call => exact .inr rfl
    | assert user =>
        refine absurd ⟨?_, fun _ => false, false, none,
          step?_of_assert ⟨t, fun _ => false, false⟩ fine code⟩ (idle _)
        rw [code]
        rfl
    | act op quiet next =>
        obtain ⟨taken, performed⟩ := exists_perform setting c.memory t (fun _ => false) false
          (by rw [quiet]; rfl)
        have operates : (c.codes t).operation? client = some (op, next) := by
          rw [code]
          rfl
        refine absurd ⟨?_, fun _ => false, false, some taken.1,
          step?_of_operation ⟨t, fun _ => false, false⟩ fine operates performed⟩ (idle _)
        rw [code]
        rfl
  · rintro idle c' ⟨isLocal, stop, spurious, shown, step⟩
    rcases idle with done | calls
    · simp [Client.step?, fine, done] at step
    · rw [calls] at isLocal
      cases isLocal

/-- Every thread comes to a scheduling point, or to its end, or to a failure. -/
theorem settles (client : Client Tid Local Value User) (setting : Setting)
    (c : Config Tid Local Value User) (t : Tid) :
    ∃ c', Relation.ReflTransGen ((client.threaded setting).step t false) c c' ∧
      (client.threaded setting).Idle t c' := by
  cases fine : c.failure with
  | some failure =>
      refine ⟨c, .refl, ?_⟩
      rintro c' ⟨_, stop, spurious, shown, step⟩
      simp [Client.step?, fine] at step
  | none =>
      induction code : c.codes t generalizing c with
      | finish => exact ⟨c, .refl, (idle_iff fine).mpr (.inl code)⟩
      | call => exact ⟨c, .refl, (idle_iff fine).mpr (.inr (by rw [code]; rfl))⟩
      | assert user =>
          refine ⟨{ c with failure := some (.user user) }, .single ⟨?_, fun _ => false, false, none,
            step?_of_assert ⟨t, fun _ => false, false⟩ fine code⟩, ?_⟩
          · rw [code]
            rfl
          · rintro c' ⟨_, stop, spurious, shown, step⟩
            simp [Client.step?] at step
      | act op quiet next inductionHypothesis =>
          obtain ⟨taken, performed⟩ := exists_perform setting c.memory t (fun _ => false) false
            (by rw [quiet]; rfl)
          have operates : (c.codes t).operation? client = some (op, next) := by
            rw [code]
            rfl
          have first : (client.threaded setting).step t false c
              (c.after t (next (op.response c.memory taken.1)) taken) := by
            refine ⟨?_, fun _ => false, false, some taken.1,
              step?_of_operation ⟨t, fun _ => false, false⟩ fine operates performed⟩
            rw [code]
            rfl
          cases ends : (c.after t (next (op.response c.memory taken.1)) taken).failure with
          | some failure =>
              refine ⟨_, .single first, ?_⟩
              rintro c' ⟨_, stop, spurious, shown, step⟩
              simp [Client.step?, ends] at step
          | none =>
              obtain ⟨c', rest, idle⟩ := inductionHypothesis (op.response c.memory taken.1)
                (c.after t (next (op.response c.memory taken.1)) taken) ends
                (Function.update_self ..)
              exact ⟨c', rest.head first, idle⟩

/-- Whatever the thread knows, it does not know more of another thread than that
thread itself. -/
theorem known_of_run [Inhabited Value] {events : List (Event Tid Value)} {s : State Tid Value}
    (run : (machine (source random)).Steps initial events s) (t u : Tid) :
    (s.threads t).acqRelOrder u ≤ (s.threads u).acqRelOrder u := by
  obtain ⟨s', run', window⟩ := whole_of_source run
  obtain ⟨_, stamped⟩ := exists_stamped run'
  rw [window.threads]
  exact stamped.tracks.bounded (.own t) u

/-- Steps are steps of runs. -/
theorem Reached.step [Inhabited Value] (reached : Reached random c) {pick : Pick Tid}
    {shown : Option (Event Tid Value)}
    (step : client.step? (source random) c pick = some (shown, c')) : Reached random c' := by
  obtain ⟨events, run⟩ := reached.run
  obtain ⟨fine, _⟩ := step?_cases step
  have running := reached.running fine
  rcases memory_of_step running step with ⟨event, moved, ends⟩ | ⟨same, failed⟩
  · refine ⟨⟨events ++ [event], run.snoc moved⟩, fun silent => ?_⟩
    exact failed_of_effect (effect_of_step moved).2 running (ends.symm.trans silent)
  · refine ⟨⟨events, same ▸ run⟩, fun silent => ?_⟩
    rw [silent] at failed
    cases failed

omit [Fintype Tid] [DecidableEq Value] [DecidableEq Tid] in
/-- What an operation returns depends on the event and on the atomics only. -/
theorem response_congr {op : Op Value} {s s' : State Tid Value} (same : s.atomics = s'.atomics)
    (event : Event Tid Value) : op.response s event = op.response s' event := by
  cases op <;> cases event <;> simp [Op.response, same]

omit [DecidableEq Tid] [Fintype Tid] [DecidableEq Value] in
/-- What an operation that is not a scheduling point returns depends on the event only. -/
theorem response_quiet {a : Op Value} (quiet : a.scheds? = some false) (s s' : State Tid Value)
    (event : Event Tid Value) : a.response s event = a.response s' event := by
  cases a with
  | compareExchange weak x expected desired order failure =>
      cases order <;> cases failure <;> simp [Op.scheds?, MemoryOrder.failure?] at quiet
  | rmw => simp [Op.scheds?] at quiet
  | _ => cases event <;> rfl

/-- A local step of one thread and a step of another. -/
theorem commutes [Inhabited Value] {c₁ c₂ : Config Tid Local Value User} {visible : Bool}
    (reached : Reached random c) (apart : t ≠ u)
    (first : (client.threaded (source random)).step u false c c₁)
    (second : (client.threaded (source random)).step t visible c c₂) :
    (client.threaded (source random)).Bad c₁ ∨
      ∃ c₃, (client.threaded (source random)).step t visible c₁ c₃ ∧
        ((client.threaded (source random)).Bad c₃ ∨ ¬ (client.threaded (source random)).Bad c₂ ∧
          (client.threaded (source random)).step u false c₂ c₃) := by
  obtain ⟨isLocal, stop', spurious', shown', first⟩ := first
  obtain ⟨isVisible, stop, spurious, shown, second⟩ := second
  obtain ⟨events, run⟩ := reached.run
  obtain ⟨fine, ⟨user, _, _, rfl⟩ | ⟨a, furtherFirst, taken', operates', performed', _, rfl⟩⟩ :=
    step?_cases first
  · exact .inl rfl
  cases silent : (taken'.1.failure? : Option (Failure User)) with
  | some failure => exact .inl (by simp [Client.threaded, Config.after, silent])
  | none =>
    right
    have codeKept : (c.after u (furtherFirst (a.response c.memory taken'.1)) taken').codes t =
        c.codes t := Function.update_of_ne apart _ _
    obtain ⟨_, ⟨user, code, _, rfl⟩ | ⟨op, further, taken, operates, performed, _, rfl⟩⟩ :=
      step?_cases second
    · exact ⟨_, ⟨codeKept ▸ isVisible, stop, spurious, none,
        step?_of_assert ⟨t, stop, spurious⟩ silent (codeKept.trans code)⟩, .inl rfl⟩
    have quiet : a.scheds? = some false := by
      rw [scheds_of_operation? operates', ← isLocal]
    have callable : op.scheds?.isSome = true := by
      rw [scheds_of_operation? operates]
      rfl
    -- the same operation after the local step
    obtain ⟨event, s₃, again, outcome⟩ := quiet_commutes apart (known_of_run run t u) quiet
      callable performed' (failure?_eq_none_iff.mp silent) performed
    have moved := step?_of_operation ⟨t, stop, spurious⟩ silent
      (codeKept.symm ▸ operates) again
    refine ⟨_, ⟨codeKept ▸ isVisible, stop, spurious, some event, moved⟩, ?_⟩
    rcases outcome with failing | ⟨rfl, back⟩
    · left
      have loud : (event.failure? : Option (Failure User)) ≠ none := by
        simp [failure?_eq_none_iff, failing]
      exact Option.isSome_iff_ne_none.mpr loud
    cases silentToo : (taken.1.failure? : Option (Failure User)) with
    | some failure => exact .inl (by simp [Client.threaded, Config.after, silentToo])
    | none =>
      -- neither fails, so the two orders lead to the same configuration
      refine .inr ⟨by simp [Client.threaded, Config.after, silentToo], ?_⟩
      have codeKeptToo : (c.after t (further (op.response c.memory taken.1)) taken).codes u =
          c.codes u := Function.update_of_ne apart.symm _ _
      have sameAtomics : taken'.2.atomics = c.memory.atomics := by
        obtain ⟨change, same, changes⟩ := exists_quiet quiet performed'
          (failure?_eq_none_iff.mp silent)
        rw [same, changes.atomics]
      refine ⟨codeKeptToo.symm ▸ isLocal, stop', spurious', some taken'.1, ?_⟩
      rw [step?_of_operation ⟨u, stop', spurious'⟩ silentToo
        (codeKeptToo.symm ▸ operates') back]
      simp only [Config.after, response_congr sameAtomics, response_quiet quiet taken.2 c.memory,
        silent, silentToo, Function.update_comm apart]

/-- The local steps of a thread leave nothing open. -/
theorem determined {c₁ c₂ : Config Tid Local Value User}
    (first : (client.threaded setting).step t false c c₁)
    (second : (client.threaded setting).step t false c c₂) : c₁ = c₂ := by
  obtain ⟨isLocal, stop, spurious, shown, first⟩ := first
  obtain ⟨_, stop', spurious', shown', second⟩ := second
  obtain ⟨fine, ⟨user, code, _, rfl⟩ | ⟨op, further, taken, operates, performed, _, rfl⟩⟩ :=
    step?_cases first
  · rw [step?_of_assert ⟨t, stop', spurious'⟩ fine code] at second
    exact (Prod.mk.inj (Option.some.inj second)).2
  · have quiet : op.scheds? = some false := by
      rw [scheds_of_operation? operates, ← isLocal]
    rw [quiet_determined quiet] at performed
    rw [step?_of_operation ⟨t, stop', spurious'⟩ fine operates performed] at second
    exact (Prod.mk.inj (Option.some.inj second)).2

/-- The operations that are not scheduling points move to the left of those of other
threads. -/
theorem moves [Inhabited Value] (client : Client Tid Local Value User) (random : Bool) :
    (client.threaded (source random)).Moves (Reached random) where
  final failed := by
    rintro ⟨_, stop, spurious, shown, step⟩
    obtain ⟨fine, _⟩ := step?_cases step
    simp [Client.threaded, fine] at failed
  keeps reached step := by
    obtain ⟨_, stop, spurious, shown, step⟩ := step
    exact reached.step step
  determined := determined
  exclusive isLocal isVisible := by
    obtain ⟨isLocal, _⟩ := isLocal
    obtain ⟨isVisible, _⟩ := isVisible
    rw [isLocal] at isVisible
    cases isVisible
  others := by
    rintro c c' t u visible ⟨_, stop, spurious, shown, step⟩ apart idle
    obtain ⟨fine, ⟨user, code, _, rfl⟩ | ⟨op, further, taken, operates, performed, _, rfl⟩⟩ :=
      step?_cases step
    · rintro c'' ⟨_, stop', spurious', shown', further⟩
      simp [Client.step?] at further
    · intro c'' more
      have kept : (c.after t (further (op.response c.memory taken.1)) taken).codes u = c.codes u :=
        Function.update_of_ne apart _ _
      obtain ⟨_, stop', spurious', shown', later⟩ := id more
      have idleAfter : (client.threaded (source random)).Idle u
          (c.after t (further (op.response c.memory taken.1)) taken) := by
        rw [idle_iff (step?_cases later).1, kept]
        exact (idle_iff fine).mp idle
      exact idleAfter c'' more
  settles := settles client (source random)
  commutes := commutes

end Moves

end LockFree.Relacy
