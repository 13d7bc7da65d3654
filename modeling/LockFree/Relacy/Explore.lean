import LockFree.Relacy.Iteration
import LockFree.Relacy.Races
import Mathlib.Data.List.ReduceOption

/-!
# What the full search says about a test

The tree of an iteration has a failure among its results exactly if the threads of
the test can fail in some interleaving, unless the limit of the depth is reached
before. So the search of all schedules, which switches threads at scheduling
points only, speaks about all interleavings.
-/

namespace LockFree.Relacy

open Search Relation

variable {Tid Value Local User : Type} [DecidableEq Tid] [Fintype Tid] [DecidableEq Value]
  {client : Client Tid Local Value User} {setting : Setting} {c : Context Tid Local Value User}
  {t u : Tid}

/-! ### Contexts as configurations -/

/-- What a fiber has left to do. -/
def Fiber.code : Fiber Local Value User → Code Local Value User
  | .fresh code => code
  | .parked op scheds resume => .call op scheds resume
  | .finished => .finish

/-- The fiber of a thread that cannot go on without being switched to. -/
def Code.fiber : Code Local Value User → Fiber Local Value User
  | .call op scheds resume => .parked op scheds resume
  | _ => .finished

/-- The configuration a context stands for, with the code of the thread that runs. -/
def Context.at_ (c : Context Tid Local Value User) (t : Tid) (code : Code Local Value User) :
    Config Tid Local Value User :=
  ⟨c.memory, Function.update (fun u => (c.fibers u).code) t code, none⟩

/-- The context after the turn of a thread. -/
def Context.left (c : Context Tid Local Value User) (t : Tid) (d : Config Tid Local Value User) :
    Context Tid Local Value User :=
  match d.codes t with
  | .call .. => ⟨d.memory, Function.update c.fibers t (d.codes t).fiber, c.running⟩
  | _ => ⟨d.memory, Function.update c.fibers t .finished, c.running.erase t⟩

/-- How an iteration ends when a turn has led to a configuration. -/
def Context.Ends (c : Context Tid Local Value User)
    (sched : Context Tid Local Value User → Test (Failure User)) (t : Tid)
    (d : Config Tid Local Value User) (result : Option (Failure User)) : Prop :=
  match d.failure with
  | some failure => result = some failure
  | none =>
      if (c.left t d).running.isEmpty then result = none
      else (sched (c.left t d)).Yields result

/-- Where local steps of a thread lead from where it has none. -/
theorem eq_of_idle {s d : Config Tid Local Value User}
    (locals : ReflTransGen ((client.threaded setting).step t false) s d)
    (idle : (client.threaded setting).Idle t s) : d = s := by
  rcases locals.cases_head with rfl | ⟨middle, first, _⟩
  · rfl
  · exact absurd first (idle middle)

/-- The local steps of a thread start with the one it has. -/
theorem locals_tail {s s' d : Config Tid Local Value User}
    (first : (client.threaded setting).step t false s s')
    (locals : ReflTransGen ((client.threaded setting).step t false) s d)
    (idle : (client.threaded setting).Idle t d) :
    ReflTransGen ((client.threaded setting).step t false) s' d := by
  rcases locals.cases_head with rfl | ⟨middle, head, rest⟩
  · exact absurd first (idle s')
  · rwa [determined first head]

/-- A failure leaves no steps. -/
theorem idle_of_failure {s : Config Tid Local Value User} {failure : Failure User}
    (failed : s.failure = some failure) : (client.threaded setting).Idle t s := by
  rintro d ⟨_, stop, spurious, shown, step⟩
  simp [Client.step?, failed] at step

/-- The results of an operation and what comes after it. -/
theorem yields_performing {op : Op Value} (callable : op.scheds?.isSome = true)
    {further : Context Tid Local Value User → Response Value → Test (Failure User)}
    {result : Option (Failure User)} :
    (c.performing setting t op further).Yields result ↔
      ∃ stop spurious taken, perform setting c.memory t stop spurious op = some taken ∧
        match (taken.1.failure? : Option (Failure User)) with
        | some failure => result = some failure
        | none => (further { c with memory := taken.2 } (op.response c.memory taken.1)).Yields
            result := by
  have asked : ∀ taken,
      (∃ tree, performAsking setting c.memory t op = some tree ∧ tree.Yields taken) ↔
        ∃ stop spurious, perform setting c.memory t stop spurious op = some taken :=
    fun _ => yields_performAsking
  cases known : performAsking setting c.memory t op with
  | none =>
      obtain ⟨taken, performed⟩ := exists_perform setting c.memory t (fun _ => false) false callable
      obtain ⟨tree, some, _⟩ := (asked taken).mpr ⟨_, _, performed⟩
      rw [known] at some
      cases some
  | some tree =>
      simp only [known, Option.some.injEq, exists_eq_left'] at asked
      simp only [Context.performing, known, Tree.yields_bind, asked]
      constructor
      · rintro ⟨taken, ⟨stop, spurious, performed⟩, yields⟩
        refine ⟨stop, spurious, taken, performed, ?_⟩
        cases silent : (taken.1.failure? : Option (Failure User)) with
        | none => simpa [silent] using yields
        | some failure => simpa [silent, eq_comm] using yields
      · rintro ⟨stop, spurious, taken, performed, ends⟩
        refine ⟨taken, ⟨stop, spurious, performed⟩, ?_⟩
        cases silent : (taken.1.failure? : Option (Failure User)) with
        | none => simpa [silent] using ends
        | some failure => simpa [silent, eq_comm] using ends

/-! ### One turn -/

omit [Fintype Tid] [DecidableEq Value] in
@[simp] theorem at_codes (code : Code Local Value User) : (c.at_ t code).codes t = code := by
  simp [Context.at_]

omit [Fintype Tid] [DecidableEq Value] in
@[simp] theorem at_failure (code : Code Local Value User) : (c.at_ t code).failure = none := rfl

omit [Fintype Tid] [DecidableEq Value] in
theorem after_at_ {code code' : Code Local Value User} {taken : Event Tid Value × State Tid Value}
    (silent : (taken.1.failure? : Option (Failure User)) = none) :
    (c.at_ t code).after t code' taken = { c with memory := taken.2 }.at_ t code' := by
  simp [Config.after, Context.at_, silent]

/-- A thread that goes on takes its local steps, and the iteration ends as it does
after them. -/
theorem yields_goOn (client : Client Tid Local Value User)
    {sched : Context Tid Local Value User → Test (Failure User)} (member : t ∈ c.running)
    {code : Code Local Value User} {result : Option (Failure User)} :
    (Context.goOn setting sched t code c).Yields result ↔
      ∃ d, ReflTransGen ((client.threaded setting).step t false) (c.at_ t code) d ∧
        (client.threaded setting).Idle t d ∧ c.Ends sched t d result := by
  have busy : c.running.isEmpty = false := by
    simpa using List.ne_nil_of_mem member
  induction code generalizing c with
  | finish =>
      have idle : (client.threaded setting).Idle t (c.at_ t .finish) :=
        (idle_iff rfl).mpr (.inl (at_codes _))
      have ends : c.Ends sched t (c.at_ t .finish) result ↔
          (Context.goOn setting sched t .finish c).Yields result := by
        simp only [Context.Ends, Context.left, at_codes, Context.goOn]
        split_ifs <;> simp [Context.at_, eq_comm]
      rw [← ends]
      constructor
      · intro ended
        exact ⟨_, .refl, idle, ended⟩
      · rintro ⟨d, locals, _, ended⟩
        rwa [eq_of_idle locals idle] at ended
  | call op scheds resume =>
      have idle : (client.threaded setting).Idle t (c.at_ t (.call op scheds resume)) :=
        (idle_iff rfl).mpr (.inr (by rw [at_codes]; rfl))
      have ends : c.Ends sched t (c.at_ t (.call op scheds resume)) result ↔
          (Context.goOn setting sched t (.call op scheds resume) c).Yields result := by
        simp only [Context.Ends, Context.left, at_codes, Context.goOn, busy]
        rfl
      rw [← ends]
      constructor
      · intro ended
        exact ⟨_, .refl, idle, ended⟩
      · rintro ⟨d, locals, _, ended⟩
        rwa [eq_of_idle locals idle] at ended
  | assert user =>
      have first : (client.threaded setting).step t false (c.at_ t (.assert user))
          { c.at_ t (.assert user) with failure := some (.user user) } := by
        refine ⟨by rw [at_codes]; rfl, fun _ => false, false, none, ?_⟩
        exact step?_of_assert ⟨t, fun _ => false, false⟩ rfl (at_codes _)
      have failed : (client.threaded setting).Idle t
          { c.at_ t (.assert user) with failure := some (.user user) } := idle_of_failure rfl
      constructor
      · rintro rfl
        exact ⟨_, .single first, failed, rfl⟩
      · rintro ⟨d, locals, idle, ended⟩
        rw [eq_of_idle (locals_tail first locals idle) failed] at ended
        exact ended.symm
  | act op quiet next inductionHypothesis =>
      have callable : op.scheds?.isSome = true := by
        rw [quiet]
        rfl
      -- the local step of the operation
      have first : ∀ stop spurious taken,
          perform setting c.memory t stop spurious op = some taken →
          (client.threaded setting).step t false (c.at_ t (.act op quiet next))
            ((c.at_ t (.act op quiet next)).after t
              (next (op.response c.memory taken.1)) taken) := by
        intro stop spurious taken performed
        refine ⟨by rw [at_codes]; rfl, stop, spurious, some taken.1, ?_⟩
        apply step?_of_operation ⟨t, stop, spurious⟩ rfl _ performed
        simp [Code.operation?]
      rw [Context.goOn, yields_performing callable]
      constructor
      · rintro ⟨stop, spurious, taken, performed, ends⟩
        have step := first stop spurious taken performed
        cases silent : (taken.1.failure? : Option (Failure User)) with
        | some failure =>
            rw [silent] at ends
            refine ⟨_, .single step, idle_of_failure silent, ?_⟩
            simpa [Context.Ends, Config.after, silent] using ends
        | none =>
            rw [silent] at ends
            obtain ⟨d, locals, idle, ended⟩ :=
              (inductionHypothesis _ (c := { c with memory := taken.2 }) member busy).mp ends
            rw [after_at_ silent] at step
            exact ⟨d, locals.head step, idle, ended⟩
      · rintro ⟨d, locals, idle, ended⟩
        obtain ⟨taken, performed⟩ :=
          exists_perform setting c.memory t (fun _ => false) false callable
        have step := first _ _ taken performed
        have rest := locals_tail step locals idle
        refine ⟨_, _, taken, performed, ?_⟩
        cases silent : (taken.1.failure? : Option (Failure User)) with
        | some failure =>
            rw [eq_of_idle rest (idle_of_failure silent)] at ended
            simpa [Context.Ends, Config.after, silent] using ended
        | none =>
            rw [after_at_ silent] at rest
            exact (inductionHypothesis _ (c := { c with memory := taken.2 }) member busy).mpr
              ⟨d, rest, idle, ended⟩

/-- The configuration a context stands for when the scheduler runs. -/
def Context.config (c : Context Tid Local Value User) : Config Tid Local Value User :=
  ⟨c.memory, fun u => (c.fibers u).code, none⟩

/-- Threads are running until they are finished. -/
structure Context.Sound (c : Context Tid Local Value User) : Prop where
  nodup : c.running.Nodup
  running : ∀ t, t ∈ c.running ↔ c.fibers t ≠ .finished

/-- What a thread does when it is switched to: it begins, or it performs the operation
it is at, and comes to the next scheduling point. -/
def Context.Goes (client : Client Tid Local Value User) (setting : Setting)
    (c : Context Tid Local Value User) (t : Tid) (d : Config Tid Local Value User) : Prop :=
  match c.fibers t with
  | .fresh _ => ReflTransGen ((client.threaded setting).step t false) c.config d ∧
      (client.threaded setting).Idle t d
  | .parked .. => (client.threaded setting).Turn t c.config d
  | .finished => False

omit [Fintype Tid] [DecidableEq Value] in
theorem at_eq_config {code : Code Local Value User} (same : (c.fibers t).code = code) :
    c.at_ t code = c.config := by
  subst same
  simp [Context.at_, Context.config]

/-- Switching to a thread lets it take its turn. -/
theorem yields_switchTo {sched : Context Tid Local Value User → Test (Failure User)}
    (member : t ∈ c.running) (unfinished : c.fibers t ≠ .finished)
    {result : Option (Failure User)} :
    (c.switchTo client setting sched t).Yields result ↔
      ∃ d, c.Goes client setting t d ∧ c.Ends sched t d result := by
  cases fiber : c.fibers t with
  | finished => exact absurd fiber unfinished
  | fresh code =>
      have same : c.at_ t code = c.config := at_eq_config (by rw [fiber]; rfl)
      simp only [Context.switchTo, Context.Goes, fiber, yields_goOn client member, same,
        and_assoc]
  | parked op scheds resume =>
      have callable : op.scheds?.isSome = true := by
        rw [scheds]
        rfl
      have isVisible : (c.config.codes t).calls = true := by
        simp [Context.config, fiber, Fiber.code, Code.calls]
      have operates : (c.config.codes t).operation? client =
          some (op, fun response => client.code (resume response)) := by
        simp [Context.config, fiber, Fiber.code, Code.operation?]
      have moved : ∀ {taken : Event Tid Value × State Tid Value} {code},
          (taken.1.failure? : Option (Failure User)) = none →
          c.config.after t code taken = { c with memory := taken.2 }.at_ t code := by
        intro taken code silent
        simp [Config.after, Context.at_, Context.config, silent]
      simp only [Context.switchTo, Context.Goes, fiber]
      rw [yields_performing callable]
      constructor
      · rintro ⟨stop, spurious, taken, performed, ends⟩
        have step : (client.threaded setting).step t true c.config _ :=
          ⟨isVisible, stop, spurious, some taken.1,
            step?_of_operation ⟨t, stop, spurious⟩ rfl operates performed⟩
        cases silent : (taken.1.failure? : Option (Failure User)) with
        | some failure =>
            rw [silent] at ends
            refine ⟨_, ⟨_, step, .refl, idle_of_failure silent⟩, ?_⟩
            simpa [Context.Ends, Config.after, silent] using ends
        | none =>
            rw [silent] at ends
            obtain ⟨d, locals, idle, ended⟩ := (yields_goOn client
              (c := { c with memory := taken.2 }) member).mp ends
            rw [← moved silent] at locals
            exact ⟨d, ⟨_, step, locals, idle⟩, ended⟩
      · rintro ⟨d, ⟨middle, ⟨_, stop, spurious, shown, step⟩, locals, idle⟩, ended⟩
        obtain ⟨_, ⟨user, code, _⟩ | ⟨op', further, taken, operates', performed, _, rfl⟩⟩ :=
          step?_cases step
        · rw [code] at operates
          cases operates
        · rw [operates] at operates'
          obtain ⟨rfl, rfl⟩ := Prod.mk.inj (Option.some.inj operates')
          refine ⟨stop, spurious, taken, performed, ?_⟩
          cases silent : (taken.1.failure? : Option (Failure User)) with
          | some failure =>
              rw [eq_of_idle locals (idle_of_failure silent)] at ended
              simpa [Context.Ends, Config.after, silent] using ended
          | none =>
              have onward : ReflTransGen ((client.threaded setting).step t false)
                  ({ c with memory := taken.2 }.at_ t
                    (client.code (resume (op.response c.memory taken.1)))) d :=
                moved silent ▸ locals
              exact (yields_goOn client (c := { c with memory := taken.2 }) member).mpr
                ⟨d, onward, idle, ended⟩

/-! ### The context after a turn -/

/-- The steps of a thread do not change what others have left to do. -/
theorem codes_of_step {s s' : Config Tid Local Value User} {visible : Bool}
    (step : (client.threaded setting).step t visible s s') (apart : u ≠ t) :
    s'.codes u = s.codes u := by
  obtain ⟨_, stop, spurious, shown, step⟩ := step
  obtain ⟨_, ⟨user, _, _, rfl⟩ | ⟨op, further, taken, _, _, _, rfl⟩⟩ := step?_cases step
  · rfl
  · exact Function.update_of_ne apart _ _

theorem codes_of_locals {s s' : Config Tid Local Value User}
    (locals : ReflTransGen ((client.threaded setting).step t false) s s') (apart : u ≠ t) :
    s'.codes u = s.codes u := by
  induction locals with
  | refl => rfl
  | tail _ last inductionHypothesis => rw [codes_of_step last apart, inductionHypothesis]

/-- A turn consists of steps of its thread, and leaves it without local steps. -/
theorem Context.Goes.parts {d : Config Tid Local Value User} (goes : c.Goes client setting t d) :
    ReflTransGen (client.threaded setting).Any c.config d ∧ (client.threaded setting).Idle t d ∧
      ∀ u, u ≠ t → d.codes u = (c.fibers u).code := by
  have any : ∀ {s s' : Config Tid Local Value User},
      ReflTransGen ((client.threaded setting).step t false) s s' →
      ReflTransGen (client.threaded setting).Any s s' := by
    intro s s' locals
    exact ReflTransGen.mono (fun _ _ step => ⟨t, false, step⟩) _ _ locals
  cases fiber : c.fibers t with
  | finished => simp [Context.Goes, fiber] at goes
  | fresh code =>
      simp only [Context.Goes, fiber] at goes
      exact ⟨any goes.1, goes.2, fun u apart => codes_of_locals goes.1 apart⟩
  | parked op scheds resume =>
      simp only [Context.Goes, fiber] at goes
      obtain ⟨middle, first, locals, idle⟩ := goes
      refine ⟨(any locals).head ⟨t, true, first⟩, idle, fun u apart => ?_⟩
      rw [codes_of_locals locals apart, codes_of_step first apart]
      rfl

/-- The context after a turn stands for the configuration it has led to. -/
theorem config_left {d : Config Tid Local Value User} (goes : c.Goes client setting t d)
    (fine : d.failure = none) : (c.left t d).config = d := by
  obtain ⟨_, idle, others⟩ := goes.parts
  have codes : ∀ fiber : Fiber Local Value User, fiber.code = d.codes t →
      (fun u => (Function.update c.fibers t fiber u).code) = d.codes := by
    intro fiber same
    funext u
    by_cases isOwn : u = t
    · subst isOwn
      rw [Function.update_self, same]
    · rw [Function.update_of_ne isOwn, others u isOwn]
  rcases (idle_iff fine).mp idle with done | calls
  · simp only [Context.left, done, Context.config, codes .finished done.symm, fine.symm]
  · cases code : d.codes t with
    | call op scheds resume =>
        have same : (Fiber.parked op scheds resume).code = d.codes t := code.symm
        simp only [Context.left, code, Context.config, Code.fiber, codes _ same, fine.symm]
    | finish | assert | act =>
        rw [code] at calls
        cases calls

omit [Fintype Tid] [DecidableEq Value] in
/-- Threads are running until they are finished, also after a turn. -/
theorem Context.Sound.left (sound : c.Sound) {d : Config Tid Local Value User}
    (member : t ∈ c.running) : (c.left t d).Sound := by
  cases code : d.codes t with
  | call op scheds resume =>
      simp only [Context.left, code, Code.fiber]
      refine ⟨sound.nodup, fun u => ?_⟩
      by_cases isOwn : u = t
      · subst isOwn
        simp [member]
      · simp [Function.update_of_ne isOwn, sound.running u]
  | finish | assert | act =>
      simp only [Context.left, code]
      refine ⟨sound.nodup.erase t, fun u => ?_⟩
      rw [sound.nodup.mem_erase_iff]
      by_cases isOwn : u = t
      · subst isOwn
        simp
      · simp [sound.running u, isOwn]

/-! ### The scheduler -/

/-- At a scheduling point some running thread takes its turn. -/
theorem yields_sched (sound : c.Sound) (busy : c.running ≠ []) {left : Nat}
    {result : Option (Failure User)} :
    (Context.sched client setting (left + 1) c).Yields result ↔
      ∃ t ∈ c.running, ∃ d, c.Goes client setting t d ∧
        c.Ends (Context.sched client setting left) t d result := by
  simp only [Context.sched, Tree.yields_bind, yields_chooseThread busy]
  constructor
  · rintro ⟨_, ⟨t, member, rfl⟩, yields⟩
    exact ⟨t, member, (yields_switchTo member ((sound.running t).mp member)).mp yields⟩
  · rintro ⟨t, member, goes⟩
    exact ⟨some t, ⟨t, member, rfl⟩,
      (yields_switchTo member ((sound.running t).mp member)).mpr goes⟩

/-! ### Failures of iterations -/

/-- What an iteration fails with, threads can fail with. -/
theorem fails_of_yields {left : Nat} (sound : c.Sound) (busy : c.running ≠ [])
    {failure : Failure User}
    (yields : (Context.sched client setting left c).Yields (some failure)) :
    failure = .livelock ∨ ∃ d, ReflTransGen (client.threaded setting).Any c.config d ∧
      d.failure = some failure := by
  induction left generalizing c with
  | zero => exact .inl (Option.some.inj yields).symm
  | succ left inductionHypothesis =>
      obtain ⟨t, member, d, goes, ends⟩ := (yields_sched sound busy).mp yields
      have run := goes.parts.1
      rw [Context.Ends] at ends
      cases ended : d.failure with
      | some another =>
          rw [ended] at ends
          exact .inr ⟨d, run, ended.trans ends.symm⟩
      | none =>
          simp only [ended] at ends
          split_ifs at ends with last
          have further : (c.left t d).running ≠ [] := by
            simpa using last
          rcases inductionHypothesis (sound.left member) further ends with
            livelock | ⟨e, onward, failed⟩
          · exact .inl livelock
          · rw [config_left goes ended] at onward
            exact .inr ⟨e, run.trans onward, failed⟩

/-- No iteration that goes on from here fails. -/
def Context.Spared (client : Client Tid Local Value User) (setting : Setting) (left : Nat)
    (c : Context Tid Local Value User) : Prop :=
  c.running = [] ∨ ∀ failure, ¬ (Context.sched client setting left c).Yields (some failure)

/-- A turn after which no iteration fails does not fail itself. -/
theorem spared_of_ends {left : Nat} {d : Config Tid Local Value User}
    (ends : ∀ failure, ¬ c.Ends (Context.sched client setting left) t d (some failure)) :
    d.failure = none ∧ (c.left t d).Spared client setting left := by
  cases ended : d.failure with
  | some failure =>
      refine absurd ?_ (ends failure)
      simp [Context.Ends, ended]
  | none =>
      refine ⟨rfl, ?_⟩
      by_cases last : (c.left t d).running = []
      · exact .inl last
      · refine .inr fun failure yields => ends failure ?_
        simpa [Context.Ends, ended, last] using yields

/-- If no iteration fails, no turn does, and the same holds after it. -/
theorem Context.Spared.goes {left : Nat} (spared : c.Spared client setting left) (sound : c.Sound)
    (member : t ∈ c.running) {d : Config Tid Local Value User} (goes : c.Goes client setting t d) :
    d.failure = none ∧ ∃ left', (c.left t d).Spared client setting left' := by
  have busy : c.running ≠ [] := List.ne_nil_of_mem member
  have never := spared.resolve_left busy
  cases left with
  | zero => exact absurd rfl (never .livelock)
  | succ left =>
      obtain ⟨fine, after⟩ := spared_of_ends fun failure ended =>
        never failure ((yields_sched sound busy).mpr ⟨t, member, d, goes, ended⟩)
      exact ⟨fine, left, after⟩

/-- A thread that has not begun. -/
def Fiber.isFresh : Fiber Local Value User → Bool
  | .fresh _ => true
  | _ => false

omit [Fintype Tid] [DecidableEq Value] in
/-- After its turn a thread has begun. -/
theorem isFresh_left (c : Context Tid Local Value User) (t u : Tid)
    (d : Config Tid Local Value User) :
    ((c.left t d).fibers u).isFresh = if u = t then false else (c.fibers u).isFresh := by
  by_cases isOwn : u = t
  · subst isOwn
    cases code : d.codes u <;> simp [Context.left, code, Code.fiber, Fiber.isFresh]
  · cases code : d.codes t <;> simp [Context.left, code, isOwn]

/-- If no iteration fails, no sequence of turns does. -/
theorem spared_turns {left : Nat} (spared : c.Spared client setting left) (sound : c.Sound)
    (begun : ∀ t, (c.fibers t).isFresh = false) {e : Config Tid Local Value User}
    (turns : ReflTransGen (fun s s' => ∃ t, (client.threaded setting).Turn t s s') c.config e) :
    e.failure = none := by
  generalize start : c.config = s at turns
  induction turns using ReflTransGen.head_induction_on generalizing c left with
  | refl => rw [← start]; rfl
  | @head _ next first _ inductionHypothesis =>
      obtain ⟨t, turn⟩ := first
      subst start
      obtain ⟨middle, ⟨isVisible, _⟩, _⟩ := id turn
      cases fiber : c.fibers t with
      | fresh code =>
          have never := begun t
          rw [fiber] at never
          cases never
      | finished => simp [Context.config, fiber, Fiber.code, Code.calls] at isVisible
      | parked op scheds resume =>
          have member : t ∈ c.running := (sound.running t).mpr (by simp [fiber])
          have goes : c.Goes client setting t next := by
            rw [Context.Goes, fiber]
            exact turn
          obtain ⟨fine, left', sparedAfter⟩ := spared.goes sound member goes
          apply inductionHypothesis sparedAfter (sound.left member) _ (config_left goes fine)
          intro u
          rw [isFresh_left, begun u, ite_self]

/-- If no iteration fails, all threads can begin, and none of them fails before its
first scheduling point. -/
theorem spared_begins {left : Nat} (spared : c.Spared client setting left) (sound : c.Sound) :
    ∃ (left' : Nat) (c' : Context Tid Local Value User), c'.Spared client setting left' ∧ c'.Sound ∧
      (∀ t, (c'.fibers t).isFresh = false) ∧
      ReflTransGen (client.threaded setting).Local c.config c'.config := by
  generalize count : (Finset.univ.filter fun t => (c.fibers t).isFresh = true).card = fresh
  induction fresh generalizing c left with
  | zero =>
      refine ⟨left, c, spared, sound, fun t => ?_, .refl⟩
      have none := Finset.filter_eq_empty_iff.mp (Finset.card_eq_zero.mp count) (Finset.mem_univ t)
      simpa using none
  | succ fresh inductionHypothesis =>
      obtain ⟨t, isFresh⟩ := Finset.card_pos.mp (Nat.lt_of_lt_of_eq (Nat.succ_pos fresh) count.symm)
      have isFresh := (Finset.mem_filter.mp isFresh).2
      cases fiber : c.fibers t with
      | parked | finished =>
          rw [fiber] at isFresh
          cases isFresh
      | fresh code =>
          have member : t ∈ c.running := (sound.running t).mpr (by simp [fiber])
          obtain ⟨d, locals, idle⟩ := settles client setting c.config t
          have goes : c.Goes client setting t d := by
            rw [Context.Goes, fiber]
            exact ⟨locals, idle⟩
          obtain ⟨fine, left', sparedAfter⟩ := spared.goes sound member goes
          have fewer : (Finset.univ.filter fun u => ((c.left t d).fibers u).isFresh = true).card =
              fresh := by
            have same : (Finset.univ.filter fun u => ((c.left t d).fibers u).isFresh = true) =
                (Finset.univ.filter fun u => (c.fibers u).isFresh = true).erase t := by
              ext u
              by_cases isOwn : u = t <;> simp [isFresh_left, isOwn]
            rw [same, Finset.card_erase_of_mem (by simp [isFresh]), count, Nat.add_sub_cancel]
          obtain ⟨left'', c', sparedEnd, soundEnd, begun, onward⟩ :=
            inductionHypothesis sparedAfter (sound.left member) fewer
          rw [config_left goes fine] at onward
          have first : ReflTransGen (client.threaded setting).Local c.config d :=
            ReflTransGen.mono (fun _ _ step => ⟨t, step⟩) _ _ locals
          exact ⟨left'', c', sparedEnd, soundEnd, begun, first.trans onward⟩

/-- If no iteration fails that goes on from here, no interleaving does, also of those
that come from where local steps lead here. -/
theorem fine_of_spared [Inhabited Value] {random : Bool} {left : Nat}
    {s e : Config Tid Local Value User} (reached : Reached random s)
    (before : ReflTransGen (client.threaded (source random)).Local s c.config) (sound : c.Sound)
    (spared : c.Spared client (source random) left)
    (run : ReflTransGen (client.threaded (source random)).Any s e) : e.failure = none := by
  obtain ⟨left', c', sparedAfter, soundAfter, begun, locals⟩ := spared_begins spared sound
  have settled : (client.threaded (source random)).Settled c'.config := by
    intro t
    rw [idle_iff rfl]
    cases fiber : c'.fibers t with
    | fresh code =>
        have never := begun t
        rw [fiber] at never
        cases never
    | finished => exact .inl (by simp [Context.config, fiber, Fiber.code])
    | parked op scheds resume =>
        exact .inr (by simp [Context.config, fiber, Fiber.code, Code.calls])
  by_contra failed
  have bad : (client.threaded (source random)).Bad e := Option.isSome_iff_ne_none.mpr failed
  have fine : ¬ (client.threaded (source random)).Bad c'.config := by
    simp [Client.threaded, Context.config]
  obtain ⟨e', turns, badToo⟩ := (moves client random).turns_of_any reached run bad
    (before.trans locals) settled fine
  have never := spared_turns sparedAfter soundAfter begun turns
  simp [Client.threaded, never] at badToo

/-! ### The verdict of the search -/

/-- Runs of the test are sequences of steps of its threads. -/
theorem exists_steps_iff {s d : Config Tid Local Value User} :
    (∃ shown, (client.runs setting).Steps s shown d) ↔
      ReflTransGen (client.threaded setting).Any s d := by
  constructor
  · rintro ⟨shown, run⟩
    induction run with
    | refl => exact .refl
    | @step _ current _ _ _ transition _ inductionHypothesis =>
        obtain ⟨⟨t, stop, spurious⟩, step⟩ := transition
        exact inductionHypothesis.tail ⟨t, (current.codes t).calls, rfl, stop, spurious, _, step⟩
  · intro run
    induction run with
    | refl => exact ⟨[], .refl⟩
    | tail _ last inductionHypothesis =>
        obtain ⟨shown, run⟩ := inductionHypothesis
        obtain ⟨t, visible, _, stop, spurious, event, step⟩ := last
        exact ⟨shown ++ [event], run.snoc ⟨⟨t, stop, spurious⟩, step⟩⟩

/-- The context an iteration begins with. -/
def Context.fresh {others : Nat} (client : Client (Fin (others + 1)) Local Value User)
    (memory : State (Fin (others + 1)) Value) : Context (Fin (others + 1)) Local Value User :=
  ⟨memory, fun t => .fresh (client.code (client.start t)), List.finRange (others + 1)⟩

omit [DecidableEq Value] in
theorem Context.fresh_sound {others : Nat} (client : Client (Fin (others + 1)) Local Value User)
    (memory : State (Fin (others + 1)) Value) : (Context.fresh client memory).Sound where
  nodup := List.nodup_finRange _
  running t := by simp [Context.fresh]

/-- An iteration begins with any of the threads. -/
theorem yields_iterationOf {others : Nat} {client : Client (Fin (others + 1)) Local Value User}
    {memory : Fin (others + 1) → State (Fin (others + 1)) Value} {limit : Nat}
    {result : Option (Failure User)} :
    (iterationOf client setting memory limit).Yields result ↔
      ∃ t d, (Context.fresh client (memory t)).Goes client setting t d ∧
        (Context.fresh client (memory t)).Ends (Context.sched client setting (limit + 1)) t d
          result := by
  have switches : ∀ t, ((Context.fresh client (memory t)).switchTo client setting
      (Context.sched client setting (limit + 1)) t).Yields result ↔ _ := fun t =>
    yields_switchTo (by simp [Context.fresh]) (by simp [Context.fresh])
  have busy : List.finRange (others + 1) ≠ [] := List.ne_nil_of_mem (List.mem_finRange 0)
  simp only [iterationOf, Tree.yields_bind, yields_randThread busy]
  constructor
  · rintro ⟨_, ⟨t, _, rfl⟩, yields⟩
    exact ⟨t, (switches t).mp yields⟩
  · rintro ⟨t, goes⟩
    exact ⟨some t, ⟨t, List.mem_finRange t, rfl⟩, (switches t).mpr goes⟩

/-- What an iteration fails with, the threads can fail with. -/
theorem fails_of_iterationOf {others : Nat} {client : Client (Fin (others + 1)) Local Value User}
    {memory : Fin (others + 1) → State (Fin (others + 1)) Value} {limit : Nat}
    {failure : Failure User}
    (yields : (iterationOf client setting memory limit).Yields (some failure)) :
    failure = .livelock ∨ ∃ first d, ReflTransGen (client.threaded setting).Any
      (client.begin (memory first)) d ∧ d.failure = some failure := by
  obtain ⟨first, d, goes, ends⟩ := yields_iterationOf.mp yields
  have run := goes.parts.1
  rw [Context.Ends] at ends
  cases ended : d.failure with
  | some another =>
      rw [ended] at ends
      exact .inr ⟨first, d, run, ended.trans ends.symm⟩
  | none =>
      simp only [ended] at ends
      split_ifs at ends with last
      have sound := (Context.fresh_sound client (memory first)).left (d := d)
        (by simp [Context.fresh] : first ∈ (Context.fresh client (memory first)).running)
      rcases fails_of_yields sound (by simpa using last) ends with livelock | ⟨e, onward, failed⟩
      · exact .inl livelock
      · rw [config_left goes ended] at onward
        exact .inr ⟨first, e, run.trans onward, failed⟩

/-- If no iteration fails, no interleaving does. -/
theorem fine_of_yields [Inhabited Value] {random : Bool} {others : Nat}
    {client : Client (Fin (others + 1)) Local Value User}
    {memory : Fin (others + 1) → State (Fin (others + 1)) Value} {limit : Nat}
    {first : Fin (others + 1)} {e : Config (Fin (others + 1)) Local Value User}
    (reached : Reached random (client.begin (memory first)))
    (never : ∀ failure, ¬ (iterationOf client (source random) memory limit).Yields (some failure))
    (run : ReflTransGen (client.threaded (source random)).Any (client.begin (memory first)) e) :
    e.failure = none := by
  -- the first thread begins
  obtain ⟨d, locals, idle⟩ := settles client (source random) (client.begin (memory first)) first
  have goes : (Context.fresh client (memory first)).Goes client (source random) first d :=
    ⟨locals, idle⟩
  have ends : ∀ failure, ¬ (Context.fresh client (memory first)).Ends
      (Context.sched client (source random) (limit + 1)) first d (some failure) := by
    intro failure ended
    exact never failure (yields_iterationOf.mpr ⟨first, d, goes, ended⟩)
  obtain ⟨fine, spared⟩ := spared_of_ends ends
  have sound := (Context.fresh_sound client (memory first)).left (d := d)
    (by simp [Context.fresh] : first ∈ (Context.fresh client (memory first)).running)
  have before : ReflTransGen (client.threaded (source random)).Local (client.begin (memory first))
      ((Context.fresh client (memory first)).left first d).config := by
    rw [config_left goes fine]
    exact ReflTransGen.mono (fun _ _ step => ⟨first, step⟩) _ _ locals
  exact fine_of_spared reached before sound spared run

/-- Nothing follows the report of a race, and no thread goes on after it. -/
theorem unraced_of_running {s d : State Tid Value} {events : List (Event Tid Value)}
    (run : (machine setting).Steps s events d) (running : d.failed = false) :
    ∀ event ∈ events, event.isRaced = false := by
  induction run with
  | refl => simp
  | @step _ current event _ _ transition _ inductionHypothesis =>
      obtain ⟨runningBefore, effect⟩ := effect_of_step transition
      intro other member
      rcases List.mem_append.mp member with earlier | last
      · exact inductionHypothesis runningBefore other earlier
      · obtain rfl := List.mem_singleton.mp last
        cases effect with
        | racedLoad | racedStore => cases running
        | _ => rfl

/-- The operations of a test that does not fail are operations of the memory. -/
theorem memory_of_run [Inhabited Value] {random : Bool} {events : List (Event Tid Value)}
    {s d : Config Tid Local Value User}
    (start : (machine (source random)).Steps initial events s.memory) (reached : Reached random s)
    {shown : List (Option (Event Tid Value))}
    (run : (client.runs (source random)).Steps s shown d) :
    Reached random d ∧ (d.failure = none →
      (machine (source random)).Steps initial (events ++ shown.reduceOption) d.memory) := by
  induction run with
  | refl => exact ⟨reached, fun _ => by simpa [List.reduceOption] using start⟩
  | @step shown current event next _ transition _ inductionHypothesis =>
      obtain ⟨reachedCurrent, inductionHypothesis⟩ := inductionHypothesis
      obtain ⟨⟨t, stop, spurious⟩, step⟩ := transition
      refine ⟨reachedCurrent.step step, fun fine => ?_⟩
      obtain ⟨fineCurrent, forms⟩ := step?_cases step
      rcases forms with ⟨user, _, _, rfl⟩ | ⟨op, further, taken, _, performed, rfl, rfl⟩
      · cases fine
      · have moved : (machine (source random)).Step current.memory taken.1 taken.2 := by
          refine ⟨⟨t, op, stop, spurious⟩, ?_⟩
          simp [Relacy.step?, reachedCurrent.running fineCurrent, performed]
        have longer : (shown ++ [some taken.1]).reduceOption = shown.reduceOption ++ [taken.1] :=
          List.reduceOption_append _ _
        rw [longer, ← List.append_assoc]
        exact (inductionHypothesis fineCurrent).snoc moved

/-! ### `race_test` -/

/-- Where a thread of `race_test` is between two scheduling points. -/
inductive RaceTest where
  | thread (index : Fin 2)
  | stored
  | loaded (value : Int)

/-- `race_test`, with the atomic `a` and the variable `x` at address 0. -/
def raceTest : Client (Fin 2) RaceTest Int Unit where
  start := .thread
  code
    | .thread 0 =>
        .act (.varStore 0 1) rfl fun _ => .call (.store 0 1 .relaxed) rfl fun _ => .stored
    | .thread 1 => .call (.load 0 .relaxed) rfl fun
        | .value value => .loaded value
        | _ => .loaded 0
    | .stored => .finish
    | .loaded value => if value = 1 then .act (.varStore 0 2) rfl fun _ => .finish else .finish

/-- `race_test::before` and the fence after it, in the thread that is first. -/
def raceTestBefore (first : Fin 2) : Option (List (Event (Fin 2) Int) × State (Fin 2) Int) :=
  System.run? (step? (source false)) initial
    ([.store 0 0 .seqCst, .varStore 0 0, .globalFence].map fun op =>
      ⟨first, op, fun _ => true, false⟩)

/-- What it leaves. -/
def raceTestMemory (first : Fin 2) : State (Fin 2) Int :=
  ((raceTestBefore first).getD ([], initial)).2

/-- **The full search speaks about all interleavings.** The threads of a test start
from what the one that is first has left in the memory. If the search reports success,
then no interleaving of their operations fails, whichever is first, and none has two
conflicting accesses that are not ordered in the simulator's order. If it reports a
failure other than a livelock, some interleaving ends in this failure. The threads do
not yield or park, and the test has no invariant and nothing to do after its threads. -/
theorem search_verdict [Inhabited Value] [DecidableEq User] {others : Nat}
    (client : Client (Fin (others + 1)) Local Value User)
    {memory : Fin (others + 1) → State (Fin (others + 1)) Value}
    {events : Fin (others + 1) → List (Event (Fin (others + 1)) Value)}
    (before : ∀ first, (machine (source false)).Steps initial (events first) (memory first))
    (running : ∀ first, (memory first).failed = false)
    (limit spare : Nat) (collectHistory outputHistory : Bool) :
    ∃ report, simulate ⟨collectHistory, outputHistory, []⟩
        (iterationOf client (source false) memory limit)
        ((iterationOf client (source false) memory limit).leaves.length + spare) = .ok report ∧
      (report.testResult = none → ∀ first shown c,
        (client.runs (source false)).Steps (client.begin (memory first)) shown c →
          c.failure = none ∧ ∀ i j, ¬ Race (events first ++ shown.reduceOption) i j) ∧
      ∀ failure, report.testResult = some failure → failure ≠ .livelock → ∃ first shown c,
        (client.runs (source false)).Steps (client.begin (memory first)) shown c ∧
          c.failure = some failure := by
  obtain ⟨report, ran, reports⟩ := simulate_fresh (iterationOf client (source false) memory limit)
    collectHistory outputHistory spare
  refine ⟨report, ran, ?_, ?_⟩
  · intro succeeded first shown c run
    have reached : Reached false (client.begin (memory first)) :=
      ⟨⟨_, before first⟩, fun _ => running first⟩
    have never : ∀ failure,
        ¬ (iterationOf client (source false) memory limit).Yields (some failure) := by
      intro failure yields
      obtain ⟨answers, led⟩ := Tree.yields_iff.mp yields
      cases reports.succeeds_iff.mp succeeded answers _ led
    have fine := fine_of_yields reached never (exists_steps_iff.mp ⟨shown, run⟩)
    obtain ⟨reachedEnd, memoryRun⟩ := memory_of_run (before first) reached run
    have unraced := unraced_of_running (memoryRun fine) (reachedEnd.running fine)
    refine ⟨fine, fun i j race => ?_⟩
    obtain ⟨_, run', _⟩ := whole_of_source (memoryRun fine)
    obtain ⟨event, found, raced⟩ := (raced_iff_race run' j).mpr ⟨i, race⟩
    rw [unraced event (List.mem_of_getElem? found)] at raced
    cases raced
  · intro failure failed other
    obtain ⟨answers, led, _⟩ := reports.fails failed
    rcases fails_of_iterationOf (Tree.yields_iff.mpr ⟨answers, led⟩) with
      livelock | ⟨first, d, run, ended⟩
    · exact absurd livelock other
    · obtain ⟨shown, steps⟩ := exists_steps_iff.mpr run
      exact ⟨first, shown, d, steps, ended⟩

/-- The search finds the race of `race_test`. -/
theorem search_verdict_raceTest : ∃ first shown c,
    (raceTest.runs (source false)).Steps (raceTest.begin (raceTestMemory first)) shown c ∧
      c.failure = some .dataRace := by
  have begun : ∀ first, (raceTestBefore first).any (fun done => !done.2.failed) = true := by
    decide +kernel
  have starts : ∀ first, ∃ events,
      (machine (source false)).Steps initial events (raceTestMemory first) ∧
        (raceTestMemory first).failed = false := by
    intro first
    have begunFirst := begun first
    cases ran : raceTestBefore first with
    | none => simp [ran] at begunFirst
    | some done =>
        have memory : raceTestMemory first = done.2 := by
          simp [raceTestMemory, ran]
        rw [memory]
        exact ⟨done.1, System.steps_of_run? ran, by simpa [ran] using begunFirst⟩
  choose events before running using starts
  have found : (simulate ⟨false, false, []⟩
      (iterationOf raceTest (source false) raceTestMemory 1999)
      (9 + 0)).toOption.map (·.testResult) = some (some .dataRace) := by
    decide +kernel
  have nine : (iterationOf raceTest (source false) raceTestMemory 1999).leaves.length = 9 := by
    decide +kernel
  obtain ⟨report, ran, _, fails⟩ := search_verdict raceTest before running 1999 0 false false
  rw [nine] at ran
  rw [ran] at found
  exact fails .dataRace (by simpa [Except.toOption] using found) (by decide)

end LockFree.Relacy
