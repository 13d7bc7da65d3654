import LockFree.Relacy.Ring

/-!
# Operations that are not scheduling points

Fences other than the sequentially consistent ones and accesses to variables do
not call `sched`. Such an operation commutes with every operation of another
thread that a test program can call, unless the two race; and if they do, each of
the two orders ends in a failure.
-/

namespace LockFree.Relacy

/-- Whether an operation of a test program calls `sched` before it does anything.
Operations that only the simulator performs have no answer, nor have those whose
memory order their function does not accept. -/
def Op.scheds? {Value : Type} : Op Value → Option Bool
  | .load _ order => order.load?.map fun _ => true
  | .store _ _ order => order.store?.map fun _ => true
  | .compareExchange _ _ _ _ order failure => (order.failure? failure).map fun _ => true
  | .rmw .. => some true
  | .fence .relaxed => none
  | .fence .seqCst => some true
  | .fence _ => some false
  | .varLoad _ | .varStore .. => some false
  | .acquire _ | .release _ | .acqRel _ | .yield | .globalFence => none

/-- The variable an operation accesses. -/
def Op.variableOf {Value : Type} : Op Value → Option Address
  | .varLoad v | .varStore v _ => some v
  | _ => none

/-- The step reports a race, or an access to something uninitialized. -/
def Event.isFailure {Tid Value : Type} : Event Tid Value → Bool
  | .raced .. | .uninitialized _ => true
  | _ => false

variable {Tid Value : Type} [DecidableEq Tid]

/-! ### What an operation leaves alone -/

/-- A change of states that an operation of a thread neither reads nor overwrites. -/
structure Aside (t : Tid) (op : Op Value) (change : State Tid Value → State Tid Value) : Prop where
  threads : ∀ s, (change s).threads t = s.threads t
  atomics : ∀ s, (change s).atomics = s.atomics
  vars : ∀ s v, op.variableOf = some v → (change s).vars v = s.vars v
  seqCstFenceOrder : ∀ s, (change s).seqCstFenceOrder = s.seqCstFenceOrder
  setThread : ∀ s th, (change s).setThread t th = change (s.setThread t th)
  setAtomic : ∀ s x data, (change s).setAtomic x data = change (s.setAtomic x data)
  setVar : ∀ s v data, op.variableOf = some v →
    (change s).setVar v data = change (s.setVar v data)
  setSeqCst : ∀ s order, { change s with seqCstFenceOrder := order } =
    change { s with seqCstFenceOrder := order }
  setFailed : ∀ s failed, { change s with failed } = change { s with failed }

/-- The clocks of other threads. -/
theorem aside_setThread {t u : Tid} (apart : t ≠ u) (op : Op Value) (th : ThreadInfo Tid) :
    Aside t op fun s => s.setThread u th where
  threads _ := Function.update_of_ne apart _ _
  atomics _ := rfl
  vars _ _ _ := rfl
  seqCstFenceOrder _ := rfl
  setThread s th' := by simp [State.setThread, Function.update_comm apart.symm]
  setAtomic _ _ _ := rfl
  setVar _ _ _ _ := rfl
  setSeqCst _ _ := rfl
  setFailed _ _ := rfl

/-- The variables it does not access. -/
theorem aside_setVar (t : Tid) {op : Op Value} {v : Address} (other : op.variableOf ≠ some v)
    (data : Var Tid Value) : Aside t op fun s => s.setVar v data where
  threads _ := rfl
  atomics _ := rfl
  vars _ w accessed := by
    have apart : w ≠ v := by
      rintro rfl
      exact other accessed
    exact Function.update_of_ne apart _ _
  seqCstFenceOrder _ := rfl
  setThread _ _ := rfl
  setAtomic _ _ _ := rfl
  setVar s w data' accessed := by
    have apart : v ≠ w := by
      rintro rfl
      exact other accessed
    simp [State.setVar, Function.update_comm apart]
  setSeqCst _ _ := rfl
  setFailed _ _ := rfl

/-- One change after the other. -/
theorem Aside.comp {t : Tid} {op : Op Value} {first second : State Tid Value → State Tid Value}
    (aside : Aside t op second) (asideFirst : Aside t op first) :
    Aside t op fun s => second (first s) where
  threads s := (aside.threads _).trans (asideFirst.threads s)
  atomics s := (aside.atomics _).trans (asideFirst.atomics s)
  vars s v accessed := (aside.vars _ v accessed).trans (asideFirst.vars s v accessed)
  seqCstFenceOrder s := (aside.seqCstFenceOrder _).trans (asideFirst.seqCstFenceOrder s)
  setThread s th := by rw [aside.setThread, asideFirst.setThread]
  setAtomic s x data := by rw [aside.setAtomic, asideFirst.setAtomic]
  setVar s v data accessed := by rw [aside.setVar _ v _ accessed, asideFirst.setVar _ v _ accessed]
  setSeqCst s order := by rw [aside.setSeqCst, asideFirst.setSeqCst]
  setFailed s failed := by rw [aside.setFailed, asideFirst.setFailed]

section Aside

variable {setting : Setting} {t : Tid} {op : Op Value} {change : State Tid Value → State Tid Value}
  {stop : Nat → Bool} {spurious : Bool}

theorem Aside.fail (aside : Aside t op change) (s : State Tid Value) (event : Event Tid Value) :
    fail (change s) event = ((fail s event).1, change (fail s event).2) :=
  congrArg (Prod.mk event) (aside.setFailed s true)

theorem Aside.atomicLoad (aside : Aside t op change) (s : State Tid Value) (x : Address)
    (order : MemoryOrder) (index : Nat) :
    atomicLoad setting (change s) t x order index =
      change (atomicLoad setting s t x order index) := by
  simp only [Relacy.atomicLoad, aside.threads, aside.atomics, aside.setThread, aside.setAtomic]

theorem Aside.atomicStore (aside : Aside t op change) (s : State Tid Value) (x : Address)
    (order : MemoryOrder) (rmw : Bool) (value : Value) :
    atomicStore setting (change s) t x order rmw value =
      change (atomicStore setting s t x order rmw value) := by
  simp only [Relacy.atomicStore, aside.threads, aside.atomics, aside.setThread, aside.setAtomic]

variable [Fintype Tid]

theorem Aside.loadImpl (aside : Aside t op change) (s : State Tid Value) (x : Address)
    (order : MemoryOrder) (rmw : Bool) :
    loadImpl setting (change s) t x order rmw stop =
      ((loadImpl setting s t x order rmw stop).1,
        change (loadImpl setting s t x order rmw stop).2) := by
  simp only [Relacy.loadImpl, aside.threads, aside.atomics]
  split <;> simp [aside.fail, aside.atomicLoad]

/-- An operation does the same beside the change. -/
theorem Aside.perform [DecidableEq Value] (aside : Aside t op change)
    (known : op.scheds?.isSome = true) (s : State Tid Value) :
    perform setting (change s) t stop spurious op =
      (perform setting s t stop spurious op).map fun taken => (taken.1, change taken.2) := by
  cases op with
  | load x order =>
      simp only [Relacy.perform, aside.loadImpl, Option.map_map]
      rfl
  | store x value order =>
      simp only [Relacy.perform, storeImpl, aside.atomics, aside.atomicStore, Option.map_map]
      rfl
  | compareExchange weak x expected desired order failure =>
      simp only [Relacy.perform, compareSwapImpl, aside.atomics, aside.loadImpl, aside.setAtomic,
        atomicRmw, aside.atomicLoad, aside.atomicStore, aside.fail, Option.map_map]
      congr 1
      funext order
      simp only [Function.comp]
      split_ifs <;> simp [aside.loadImpl]
  | rmw x modify order =>
      simp only [Relacy.perform, rmwImpl, aside.atomics, atomicRmw, aside.atomicLoad,
        aside.atomicStore, aside.fail, Option.map_some]
      split_ifs <;> rfl
  | fence order =>
      cases order <;>
        simp [Relacy.perform, threadFence, aside.threads, aside.seqCstFenceOrder, aside.setThread,
          aside.setSeqCst]
  | varLoad v =>
      simp only [Relacy.perform, varLoad, aside.vars _ v rfl, aside.threads, aside.setThread,
        aside.setVar _ v _ rfl, aside.fail, Option.map_some]
      split_ifs <;> rfl
  | varStore v value =>
      simp only [Relacy.perform, varStore, aside.vars _ v rfl, aside.threads, aside.setThread,
        aside.setVar _ v _ rfl, aside.fail, Option.map_some]
      split_ifs <;> rfl
  | acquire | release | acqRel | yield | globalFence => simp [Op.scheds?] at known

/-! ### What an operation leaves as it was -/

/-- The clocks of another thread. -/
theorem perform_threads [DecidableEq Value] {s s' : State Tid Value} {event : Event Tid Value}
    {u : Tid} (apart : t ≠ u) (known : op.scheds?.isSome = true)
    (result : perform setting s t stop spurious op = some (event, s')) :
    s'.threads u = s.threads u := by
  have same : perform setting (s.setThread u (s.threads u)) t stop spurious op = _ :=
    (aside_setThread apart op (s.threads u)).perform known s
  have idle : s.setThread u (s.threads u) = s := by
    simp [State.setThread]
  rw [idle, result, Option.map_some, Option.some.injEq, Prod.mk.injEq] at same
  rw [same.2]
  simp [State.setThread]

/-- The variables it does not access. -/
theorem perform_vars [DecidableEq Value] {s s' : State Tid Value} {event : Event Tid Value}
    {v : Address} (other : op.variableOf ≠ some v) (known : op.scheds?.isSome = true)
    (result : perform setting s t stop spurious op = some (event, s')) : s'.vars v = s.vars v := by
  have same : perform setting (s.setVar v (s.vars v)) t stop spurious op = _ :=
    (aside_setVar t other (s.vars v)).perform known s
  have idle : s.setVar v (s.vars v) = s := by
    simp [State.setVar]
  rw [idle, result, Option.map_some, Option.some.injEq, Prod.mk.injEq] at same
  rw [same.2]
  simp [State.setVar]

end Aside

/-! ### Operations that are not scheduling points -/

section Quiet

variable {setting : Setting} {s s' : State Tid Value} {t u : Tid} {a op : Op Value}
  {event : Event Tid Value} {stop stop' : Nat → Bool} {spurious spurious' : Bool}

/-- A variable after a load at a time. -/
def Var.loaded (data : Var Tid Value) (t : Tid) (timestamp : Nat) : Var Tid Value :=
  { data with loadTimestamp := Function.update data.loadTimestamp t timestamp }

/-- What such an operation does when it does not fail: a change that depends on its
thread and on its variable only. -/
structure Quiet [Fintype Tid] [DecidableEq Value] (setting : Setting) (s : State Tid Value)
    (u : Tid) (a : Op Value) (event : Event Tid Value)
    (change : State Tid Value → State Tid Value) : Prop where
  performs : ∀ s', s'.threads u = s.threads u →
    (∀ v, a.variableOf = some v → s'.vars v = s.vars v) →
    ∀ stop spurious, perform setting s' u stop spurious a = some (event, change s')
  aside : ∀ t op, t ≠ u → (op.variableOf = none ∨ op.variableOf ≠ a.variableOf) → Aside t op change
  atomics : ∀ s', (change s').atomics = s'.atomics

variable [Fintype Tid] [DecidableEq Value]

omit [DecidableEq Value] in
/-- A load of a variable that another thread has stored unnoticed. -/
theorem varLoad_races {v : Address} (initialized : (s.vars v).initialized = true)
    (raced : uncovered (s.threads t).acqRelOrder (s.vars v).storeTimestamp = true) :
    varLoad s t v = fail s (.raced t v false) := by
  simp [varLoad, initialized, raced]

omit [DecidableEq Value] in
/-- A load that is no race. -/
theorem varLoad_ordered {v : Address} (initialized : (s.vars v).initialized = true)
    (ordered : uncovered (s.threads t).acqRelOrder (s.vars v).storeTimestamp = false) :
    varLoad s t v = (.access t v false (s.vars v).value,
      (s.setThread t ((s.threads t).tick t)).setVar v
        ((s.vars v).loaded t (((s.threads t).tick t).acqRelOrder t))) := by
  simp [varLoad, initialized, ordered, Var.loaded]

/-- What is known of a load that does not fail. -/
theorem varLoad_fine {v : Address}
    (result : perform setting s t stop spurious (.varLoad v) = some (event, s'))
    (fine : event.isFailure = false) :
    (s.vars v).initialized = true ∧
      uncovered (s.threads t).acqRelOrder (s.vars v).storeTimestamp = false ∧
      event = .access t v false (s.vars v).value ∧
      s' = (s.setThread t ((s.threads t).tick t)).setVar v
        ((s.vars v).loaded t (((s.threads t).tick t).acqRelOrder t)) := by
  simp only [perform, varLoad, Option.some.injEq] at result
  split_ifs at result with uninitialized raced
  · obtain ⟨rfl, -⟩ := Prod.mk.inj result
    cases fine
  · obtain ⟨rfl, -⟩ := Prod.mk.inj result
    cases fine
  · obtain ⟨rfl, rfl⟩ := Prod.mk.inj result
    exact ⟨by simpa using uninitialized, by simpa using raced, rfl, rfl⟩

/-- The change of an operation that is not a scheduling point. -/
theorem exists_quiet (quiet : a.scheds? = some false)
    (result : perform setting s u stop spurious a = some (event, s'))
    (fine : event.isFailure = false) :
    ∃ change, s' = change s ∧ Quiet setting s u a event change := by
  cases a with
  | load x order => cases order <;> simp [Op.scheds?, MemoryOrder.load?] at quiet
  | store x value order => cases order <;> simp [Op.scheds?, MemoryOrder.store?] at quiet
  | compareExchange weak x expected desired order failure =>
      cases order <;> cases failure <;> simp [Op.scheds?, MemoryOrder.failure?] at quiet
  | fence order =>
      cases order with
      | relaxed | seqCst => simp [Op.scheds?] at quiet
      | consume | acquire | release | acqRel =>
          simp only [perform, threadFence, Option.some.injEq, Prod.mk.injEq] at result
          obtain ⟨rfl, rfl⟩ := result
          exact ⟨fun s => s.setThread u _, rfl,
            ⟨fun s' threads _ stop spurious => by simp only [perform, threadFence, threads],
              fun t op apart _ => aside_setThread apart op _, fun _ => rfl⟩⟩
  | varLoad v =>
      obtain ⟨initialized, ordered, rfl, rfl⟩ := varLoad_fine result fine
      refine ⟨fun s' => (s'.setThread u _).setVar v _, rfl, ?_, ?_, fun _ => rfl⟩
      · intro s' threads vars stop spurious
        rw [perform, varLoad_ordered (by simpa [vars v rfl] using initialized)
          (by simpa [threads, vars v rfl] using ordered), threads, vars v rfl]
      · intro t op apart other
        apply Aside.comp (aside_setVar t _ _) (aside_setThread apart op _)
        rcases other with none | other
        · simp [none]
        · exact other
  | varStore v value =>
      simp only [perform, varStore, Option.some.injEq] at result
      split_ifs at result with raced
      · obtain ⟨rfl, -⟩ := Prod.mk.inj result
        cases fine
      · obtain ⟨rfl, rfl⟩ := Prod.mk.inj result
        refine ⟨fun s' => (s'.setThread u _).setVar v _, rfl, ?_, ?_, fun _ => rfl⟩
        · intro s' threads vars stop spurious
          simp only [perform, varStore, threads, vars v rfl, if_neg raced]
        · intro t op apart other
          apply Aside.comp (aside_setVar t _ _) (aside_setThread apart op _)
          rcases other with none | other
          · simp [none]
          · exact other
  | rmw | acquire | release | acqRel | yield | globalFence => simp [Op.scheds?] at quiet

omit [DecidableEq Value] in
/-- A store to a variable another thread has accessed unnoticed. -/
theorem varStore_races {v : Address} {value : Value} (initialized : (s.vars v).initialized = true)
    (late : (s.threads t).acqRelOrder u < (s.vars v).storeTimestamp u ∨
      (s.threads t).acqRelOrder u < (s.vars v).loadTimestamp u) :
    varStore s t v value = fail s (.raced t v true) := by
  have raced : (uncovered (s.threads t).acqRelOrder (s.vars v).storeTimestamp ||
      uncovered (s.threads t).acqRelOrder (s.vars v).loadTimestamp) = true := by
    rw [Bool.or_eq_true]
    rcases late with late | late
    · exact .inl (decide_eq_true ⟨u, late⟩)
    · exact .inr (decide_eq_true ⟨u, late⟩)
  simp [varStore, initialized, raced]

/-- Two accesses to one variable by different threads: two loads commute, and
otherwise the second one fails. -/
theorem accesses_commute {v : Address} (apart : t ≠ u)
    (known : (s.threads t).acqRelOrder u ≤ (s.threads u).acqRelOrder u)
    (accesses : a.variableOf = some v) (accessesToo : op.variableOf = some v)
    {s₁ s₂ : State Tid Value} {first second : Event Tid Value}
    (resultFirst : perform setting s u stop' spurious' a = some (first, s₁))
    (fine : first.isFailure = false)
    (result : perform setting s t stop spurious op = some (second, s₂)) :
    ∃ event s₃, perform setting s₁ t stop spurious op = some (event, s₃) ∧
      (event.isFailure = true ∨
        event = second ∧ perform setting s₂ u stop' spurious' a = some (first, s₃)) := by
  have late : (s.threads t).acqRelOrder u < (s.threads u).acqRelOrder u + 1 := by
    omega
  cases a with
  | varLoad w =>
      cases accesses
      obtain ⟨initialized, ordered, rfl, rfl⟩ := varLoad_fine resultFirst fine
      cases op with
      | varLoad w =>
          cases accessesToo
          cases raced : uncovered (s.threads t).acqRelOrder (s.vars v).storeTimestamp with
          | true =>
              refine ⟨.raced t v false, _, congrArg some (varLoad_races ?_ ?_), .inl rfl⟩
              · simpa [Var.loaded] using initialized
              · simpa [Function.update_of_ne apart, Var.loaded] using raced
          | false =>
              obtain ⟨rfl, rfl⟩ := Prod.mk.inj
                (Option.some.inj ((congrArg some (varLoad_ordered initialized raced)).symm.trans
                  result))
              have forth := varLoad_ordered (t := t) (v := v)
                (s := (s.setThread u ((s.threads u).tick u)).setVar v
                  ((s.vars v).loaded u (((s.threads u).tick u).acqRelOrder u)))
                (by simpa [Var.loaded] using initialized)
                (by simpa [Function.update_of_ne apart, Var.loaded] using raced)
              have back := varLoad_ordered (t := u) (v := v)
                (s := (s.setThread t ((s.threads t).tick t)).setVar v
                  ((s.vars v).loaded t (((s.threads t).tick t).acqRelOrder t)))
                (by simpa [Var.loaded] using initialized)
                (by simpa [Function.update_of_ne apart.symm, Var.loaded] using ordered)
              refine ⟨_, _, congrArg some forth, .inr ⟨?_, (congrArg some back).trans ?_⟩⟩
              · simp [Var.loaded]
              · simp [State.setThread, State.setVar, Var.loaded, Function.update_of_ne apart,
                  Function.update_of_ne apart.symm, Function.update_comm apart]
      | varStore w value =>
          cases accessesToo
          refine ⟨.raced t v true, _, congrArg some (varStore_races (u := u) ?_ (.inr ?_)),
            .inl rfl⟩
          · simpa [Var.loaded] using initialized
          · simpa [Function.update_of_ne apart, Var.loaded] using late
      | _ => cases accessesToo
  | varStore w value =>
      cases accesses
      simp only [perform, varStore, Option.some.injEq] at resultFirst
      split_ifs at resultFirst with raced
      · obtain ⟨rfl, -⟩ := Prod.mk.inj resultFirst
        cases fine
      · obtain ⟨rfl, rfl⟩ := Prod.mk.inj resultFirst
        cases op with
        | varLoad w =>
            cases accessesToo
            refine ⟨.raced t v false, _, congrArg some (varLoad_races ?_ ?_), .inl rfl⟩
            · simp
            · apply decide_eq_true
              exact ⟨u, by simpa [Function.update_of_ne apart] using late⟩
        | varStore w value =>
            cases accessesToo
            refine ⟨.raced t v true, _, congrArg some (varStore_races (u := u) ?_ (.inl ?_)),
              .inl rfl⟩
            · simp
            · simpa [Function.update_of_ne apart] using late
        | _ => cases accessesToo
  | _ => cases accesses

/-- An operation that is not a scheduling point commutes with the operations of
other threads, as long as the two do not race. -/
theorem quiet_commutes (apart : t ≠ u)
    (known : (s.threads t).acqRelOrder u ≤ (s.threads u).acqRelOrder u)
    (quiet : a.scheds? = some false) (callable : op.scheds?.isSome = true)
    {s₁ s₂ : State Tid Value} {first second : Event Tid Value}
    (resultFirst : perform setting s u stop' spurious' a = some (first, s₁))
    (fine : first.isFailure = false)
    (result : perform setting s t stop spurious op = some (second, s₂)) :
    ∃ event s₃, perform setting s₁ t stop spurious op = some (event, s₃) ∧
      (event.isFailure = true ∨
        event = second ∧ perform setting s₂ u stop' spurious' a = some (first, s₃)) := by
  by_cases shared : ∃ v, a.variableOf = some v ∧ op.variableOf = some v
  · obtain ⟨v, accesses, accessesToo⟩ := shared
    exact accesses_commute apart known accesses accessesToo resultFirst fine result
  · obtain ⟨change, rfl, changes⟩ := exists_quiet quiet resultFirst fine
    have aside : Aside t op change := by
      apply changes.aside t op apart
      cases accessed : op.variableOf with
      | none => exact .inl rfl
      | some v => exact .inr fun same => shared ⟨v, same.symm, accessed⟩
    refine ⟨second, change s₂, ?_, .inr ⟨rfl, ?_⟩⟩
    · rw [aside.perform callable, result, Option.map_some]
    · apply changes.performs
      · exact perform_threads apart callable result
      · intro v accesses
        apply perform_vars _ callable result
        intro accessesToo
        exact shared ⟨v, accesses, accessesToo⟩

/-- What a test program calls performs something. -/
theorem exists_perform (setting : Setting) (s : State Tid Value) (t : Tid) (stop : Nat → Bool)
    (spurious : Bool) (callable : op.scheds?.isSome = true) :
    ∃ taken, perform setting s t stop spurious op = some taken := by
  cases op with
  | load x order => cases order <;> simp_all [Op.scheds?, perform, MemoryOrder.load?]
  | store x value order => cases order <;> simp_all [Op.scheds?, perform, MemoryOrder.store?]
  | compareExchange weak x expected desired order failure =>
      rw [Op.scheds?, Option.isSome_map] at callable
      obtain ⟨order', accepted⟩ := Option.isSome_iff_exists.mp callable
      exact ⟨_, by rw [perform, accepted, Option.map_some]⟩
  | fence order => cases order <;> simp_all [Op.scheds?, perform, threadFence]
  | rmw | varLoad | varStore => exact ⟨_, rfl⟩
  | acquire | release | acqRel | yield | globalFence => simp [Op.scheds?] at callable

/-- An operation that is not a scheduling point leaves nothing to the scheduler. -/
theorem quiet_determined (quiet : a.scheds? = some false) (s : State Tid Value) :
    perform setting s t stop spurious a = perform setting s t stop' spurious' a := by
  cases a with
  | load x order => cases order <;> simp [Op.scheds?, MemoryOrder.load?] at quiet
  | store x value order => cases order <;> simp [Op.scheds?, MemoryOrder.store?] at quiet
  | compareExchange weak x expected desired order failure =>
      cases order <;> cases failure <;> simp [Op.scheds?, MemoryOrder.failure?] at quiet
  | fence | varLoad | varStore => rfl
  | rmw | acquire | release | acqRel | yield | globalFence => simp [Op.scheds?] at quiet

end Quiet

end LockFree.Relacy
