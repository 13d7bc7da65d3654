import LockFree.Aba.Detect.Stages

/-!
# What the stack holds

The value 666 does not come into the stack through a push, and there are more
values in the stack and in pushes to come than pops of `t1` and `t2` to come. A
step on the stack keeps this as long as `t1` does not install another pointer
than the `next` of the first node.
-/

namespace LockFree.Aba.Detect

open Raw (Addr Pc)

/-- The value that a call in progress pushes. -/
def pushed : Pc Int → Option Int
  | .make data | .load data _ | .assign data _ _ | .publish data _ => some data
  | _ => none

/-- A thread does not push 666. -/
structure Avoids (thread : Raw.Thread Int) : Prop where
  calls : .push 666 ∉ thread.calls
  pc : pushed thread.pc ≠ some 666

/-- The nodes that a thread has still to unlink. -/
def pops (thread : Raw.Thread Int) : Nat :=
  thread.calls.count .pop +
    match thread.pc with
    | .popLoad | .test _ | .exchange _ _ => 1
    | _ => 0

/-- The nodes that a thread has still to publish. -/
def pushes (thread : Raw.Thread Int) : Nat :=
  (thread.calls.countP fun call => call.pushing.isSome) + (pushed thread.pc).toList.length

section Steps

variable {s s' : Raw.State Who Int} {event : Raw.Event Who Int} {values values' : List Int}

/-- No step brings 666 into the stack. -/
theorem avoids_step (effect : Raw.Effect s event s') (change : Raw.Change s event values values')
    (avoids : ∀ t, Avoids (s.threads t)) (clean : 666 ∉ values) :
    (∀ t, Avoids (s'.threads t)) ∧ 666 ∉ values' := by
  -- a step that leaves the calls to make and the value to push
  have keep : ∀ {t : Who} {pc : Pc Int} (memory : Addr → Raw.Block Int), pushed pc ≠ some 666 →
      ∀ u, Avoids ((s.put t pc memory).threads u) := by
    intro t pc memory other u
    by_cases same : u = t
    · subst same
      exact ⟨by simpa using (avoids u).calls, by simpa using other⟩
    · rw [Raw.put_threads_other s same]
      exact avoids u
  have own : ∀ t, pushed (s.threads t).pc ≠ some 666 := fun t => (avoids t).pc
  cases effect with
  | @called t call calls pc next =>
      cases change
      refine ⟨fun u => ?_, clean⟩
      by_cases same : u = t
      · subst same
        have todo := (avoids u).calls
        rw [next, List.mem_cons, not_or] at todo
        simp only [Function.update_self]
        refine ⟨todo.2, ?_⟩
        cases call with
        | pop => simp [Raw.Call.entry, pushed]
        | push data => simpa [Raw.Call.entry, pushed, eq_comm] using todo.1
      · simp only [Function.update_of_ne same]
        exact avoids u
  | @published t data n content pc found =>
      cases change with
      | @published _ data' _ _ pc' =>
          refine ⟨keep s.memory (by simp [pushed]), ?_⟩
          have other := own t
          rw [pc'] at other
          simpa [pushed, eq_comm, clean] using other
      | kept notPublished => exact absurd rfl (notPublished t n)
  | @unlinked t a next pc top =>
      cases change with
      | unlinked =>
          exact ⟨keep s.memory (by simp [pushed]),
            fun member => clean (List.mem_cons_of_mem _ member)⟩
      | kept _ notUnlinked => exact absurd rfl (notUnlinked t a next _)
  | @made t data n pc | @loadedPush t data n value pc
  | @assigned t data n loaded content previous pc
  | @pushFailed t data n content expected spurious pc =>
      cases change
      have other := own t
      rw [pc] at other
      exact ⟨keep _ other, clean⟩
  | faulted =>
      cases change
      exact ⟨avoids, clean⟩
  | _ =>
      cases change
      exact ⟨keep _ (by simp [pushed]), clean⟩

/-- A step takes no more values than it takes pops, and adds those of its pushes. -/
theorem demand_step (effect : Raw.Effect s event s')
    (change : Raw.Change s event values values') :
    pops (s'.threads event.thread) + pushes (s.threads event.thread) + values.length ≤
      pops (s.threads event.thread) + pushes (s'.threads event.thread) + values'.length := by
  cases effect with
  | @called t call calls pc next =>
      cases change
      cases call <;>
        simp [pops, pushes, Raw.Event.thread, next, pc, pushed, Raw.Call.entry, Call.pushing]
  | @published t data n content pc found =>
      cases change with
      | published =>
          simp [pops, pushes, Raw.Event.thread, pc, pushed]
          omega
      | kept notPublished => exact absurd rfl (notPublished t n)
  | @unlinked t a next pc top =>
      cases change with
      | unlinked =>
          simp [pops, pushes, Raw.Event.thread, pc, pushed]
          omega
      | kept _ notUnlinked => exact absurd rfl (notUnlinked t a next _)
  | faulted =>
      cases change
      exact Nat.le_refl _
  | made pc | loadedPush pc | assigned pc | pushFailed pc | loadedPop pc | foundEmpty pc
  | readNext pc | popFailed pc | moved pc | deleted pc | returned pc =>
      cases change
      simp [pops, pushes, Raw.Event.thread, pc, pushed]

end Steps

/-- What holds of the stack until `main` pops. -/
structure Stocked (s : State) (values : List Int) : Prop where
  inv : Raw.Inv (· ≠ .t1) s.stack values
  avoids : ∀ t, Avoids (s.stack.threads t)
  clean : 666 ∉ values
  enough : 1 + pops (s.stack.threads .t1) + pops (s.stack.threads .t2) ≤
    values.length + pushes (s.stack.threads .t1) + pushes (s.stack.threads .t2)

variable {s : State} {values : List Int}

/-- A step of `t1` or `t2` on the stack. -/
theorem Stocked.step {event : Raw.Event Who Int} {stack : Raw.State Who Int}
    (stocked : Stocked s values) (effect : Raw.Effect s.stack event stack)
    (notMain : event.thread ≠ .main) (notMade : ∀ a, event ≠ .made .t1 a)
    (waiting : (s.stack.threads .main).pc = .idle)
    (installs : ∀ a installed actual, event = .unlinked .t1 a installed actual →
      actual = installed) :
    ∃ values', Stocked { s with stack, freed := freedAfter s.freed event } values' ∧
      event ≠ .faulted event.thread := by
  have sound : Raw.Sound (· ≠ .t1) s.stack event := by
    cases effect with
    | @made t data n pc fresh =>
        intro u guarded old
        cases u with
        | t1 => exact guarded rfl
        | main => simp [waiting, Pc.oldHead] at old
        | t2 =>
            cases t with
            | t1 => exact notMade n rfl
            | t2 => simp [pc, Pc.oldHead] at old
            | main => exact notMain rfl
    | @unlinked t a next pc top =>
        by_cases first : t = .t1
        · subst first
          exact .inr (installs a next _ rfl)
        · exact .inl first
    | _ => trivial
  obtain ⟨values', inv, change, notFaulted⟩ := stocked.inv.effect effect sound
  obtain ⟨avoids, clean⟩ := avoids_step effect change stocked.avoids stocked.clean
  refine ⟨values', ⟨inv, avoids, clean, ?_⟩, notFaulted⟩
  have demand := demand_step effect change
  have enough := stocked.enough
  have others : ∀ u, u ≠ event.thread → stack.threads u = s.stack.threads u := fun u other =>
    (effect.thread_cases u).resolve_right other
  cases thread : event.thread with
  | main => exact absurd thread notMain
  | t1 =>
      rw [thread] at demand
      rw [others .t2 (by simp [thread])]
      simp only
      omega
  | t2 =>
      rw [thread] at demand
      rw [others .t1 (by simp [thread])]
      simp only
      omega

/-- The construction of `node(666)`. -/
theorem Stocked.constructed {node : Addr} (stocked : Stocked s values)
    (fresh : s.stack.view node = none) : Stocked (construct s node).2 values where
  inv := by
    have inv := stocked.inv
    have unreached : ¬ Memory.Reaches s.stack.next s.stack.head node := by
      intro reaches
      obtain ⟨_, _, found⟩ := inv.live reaches
      rw [fresh] at found
      cases found
    have views : ∀ b, b ≠ node → (construct s node).2.stack.view b = s.stack.view b := by
      intro b other
      simp [construct, Raw.State.view, other]
    refine ⟨Raw.stores_written unreached views rfl inv.stores, fun t => ?_, inv.separate⟩
    refine (inv.holds t).written unreached views rfl fun own => ?_
    obtain ⟨_, _, found⟩ := (inv.holds t).live node own
    rw [fresh] at found
    cases found
  avoids := stocked.avoids
  clean := stocked.clean
  enough := stocked.enough

end LockFree.Aba.Detect
