import LockFree.Aba.Raw.Invariant
import LockFree.Semantics.Lives

/-!
# Without reuse under a `pop` the raw-pointer stack is correct

When no `new` answers with the `old_head` of a `pop` in flight, a run linearizes
to the sequential stack, no access leaves the nodes in use, and `Life` follows
every address through the life of its nodes: made and published by one thread,
unlinked, emptied and deleted by one thread.
-/

namespace LockFree.Aba.Raw

open Memory Linearization

variable {Tid T : Type}

/-- How far a call has come at a position. -/
def Pc.phase (view : Addr → Option (T × Option Addr)) : Pc T → Phase (Call T) (Result T)
  | .make data | .load data _ | .assign data _ _ | .publish data _ => .pending (.push data)
  | .popLoad | .test (some _) | .exchange _ _ => .pending .pop
  | .test none => .settled .outOfRange
  | .move oldHead =>
      match view oldHead with
      | some (data, _) => .settled (.value data)
      | none => .idle
  | .delete _ tmp => .settled (.value tmp)
  | .leave result => .settled result
  | .idle => .idle

/-- The phases of all threads. -/
def State.phase (s : State Tid T) (t : Tid) : Phase (Call T) (Result T) :=
  (s.threads t).pc.phase s.view

/-! ### The life of a node -/

/-- Whose the node at an address is. -/
inductive Life (Tid : Type) where
  | absent
  | held (thread : Tid)
  | linked
  | taken (thread : Tid)
  | emptied (thread : Tid)
deriving DecidableEq, Repr

/-- The node that a step takes on in its life, from where and to where. -/
def Event.turn : Event Tid T → Option (Addr × Life Tid × Life Tid)
  | .made t node => some (node, .absent, .held t)
  | .published t node => some (node, .held t, .linked)
  | .unlinked t node _ _ => some (node, .linked, .taken t)
  | .moved t node => some (node, .taken t, .emptied t)
  | .deleted t node => some (node, .emptied t, .absent)
  | _ => none

/-- The address at which a step unlinks a node. -/
def Event.unlinks : Event Tid T → Option Addr
  | .unlinked _ node _ _ => some node
  | _ => none

/-- The address at which a step deletes a node. -/
def Event.deletes : Event Tid T → Option Addr
  | .deleted _ node => some node
  | _ => none

/-- How often a node has been unlinked at `a`. -/
def timesUnlinked (a : Addr) (events : List (Event Tid T)) : Nat :=
  events.countP fun event => event.unlinks = some a

/-- How often a node has been deleted at `a`. -/
def timesDeleted (a : Addr) (events : List (Event Tid T)) : Nat :=
  events.countP fun event => event.deletes = some a

/-- One for a node that is unlinked and not yet deleted. -/
def Life.pending : Life Tid → Nat
  | .taken _ | .emptied _ => 1
  | _ => 0

variable [DecidableEq Tid]

/-- What an event makes of the node at `a`, unless it comes out of order. -/
def Life.after (a : Addr) (event : Event Tid T) (life : Life Tid) : Option (Life Tid) :=
  match event.turn with
  | none => some life
  | some (node, before, after) =>
      if node = a then if life = before then some after else none else some life

/-- The life of the node at `a` after the events of a run. -/
def lifeOf (a : Addr) (events : List (Event Tid T)) : Option (Life Tid) :=
  events.foldlM (fun life event => life.after a event) .absent

/-- An event about another node. -/
theorem Life.after_other {a : Addr} {event : Event Tid T} (life : Life Tid)
    (other : ∀ before after, event.turn ≠ some (a, before, after)) :
    life.after a event = some life := by
  unfold Life.after
  split
  · rfl
  · next node before after turn =>
      refine if_neg fun same => other before after ?_
      rw [turn, same]

/-- An event about the node, in order. -/
theorem Life.after_turn {a : Addr} {event : Event Tid T} {before after : Life Tid}
    (turn : event.turn = some (a, before, after)) : before.after a event = some after := by
  simp [Life.after, turn]

/-- An event in order unlinks a node, or ends the wait for its deletion, as it says. -/
theorem Life.after_pending {a : Addr} {event : Event Tid T} {life life' : Life Tid}
    (after : life.after a event = some life') :
    (if event.unlinks = some a then 1 else 0) + life.pending =
      (if event.deletes = some a then 1 else 0) + life'.pending := by
  cases event with
  | made _ node | published _ node | unlinked _ node | moved _ node | deleted _ node =>
      simp only [Life.after, Event.turn] at after
      split at after
      · split at after
        · cases after
          simp_all [Event.unlinks, Event.deletes, Life.pending]
        · cases after
      · cases after
        simp_all [Event.unlinks, Event.deletes]
  | _ =>
      cases after
      simp [Event.unlinks, Event.deletes]

/-- The nodes unlinked at an address are deleted, but for one that may be waiting. -/
theorem unlinked_eq_deleted {a : Addr} {events : List (Event Tid T)} {life life' : Life Tid}
    (known : events.foldlM (fun life event => life.after a event) life = some life') :
    timesUnlinked a events + life.pending = timesDeleted a events + life'.pending := by
  have counts := begun_eq_ended Life.after_pending known
  simpa only [timesUnlinked, timesDeleted, countP_eq_sum, decide_eq_true_eq] using counts

/-- The node that is a thread's own, and what it is. -/
def Pc.life (t : Tid) : Pc T → Option (Addr × Life Tid)
  | .load _ newNode | .assign _ newNode _ | .publish _ newNode => some (newNode, .held t)
  | .move oldHead => some (oldHead, .taken t)
  | .delete oldHead _ => some (oldHead, .emptied t)
  | _ => none

/-- A state agrees with the life of the node at `a`. -/
inductive Fits (s : State Tid T) (a : Addr) : Life Tid → Prop where
  | absent (free : s.view a = none) : Fits s a .absent
  | linked (reached : Reaches s.next s.head a) : Fits s a .linked
  | own {t life} (own : (s.threads t).pc.life t = some (a, life)) : Fits s a life

variable {guarded : Tid → Prop} {s s' : State Tid T} {values : List T} {event : Event Tid T}
    {a : Addr} {t : Tid}

/-- What `head` reaches stays reached until it is unlinked. -/
theorem Inv.reached (inv : Inv guarded s values) (effect : Effect s event s')
    (sound : Sound guarded s event)
    (notUnlinked : ∀ t next actual, event ≠ .unlinked t a next actual)
    (reaches : Reaches s.next s.head a) : Reaches s'.next s'.head a := by
  have write : ∀ {t : Tid} {pc : Pc T} {n : Addr} {block : Block T},
      ¬ Reaches s.next s.head n →
        Reaches (s.put t pc (Function.update s.memory n block)).next s.head a := by
    intro t pc n block unreached
    refine reaches.congr fun b before => ?_
    have other : b ≠ n := fun same => unreached (same ▸ before)
    rw [State.next, view_update, if_neg other, State.next]
  cases effect with
  | made pc fresh =>
      refine write fun reaches => ?_
      obtain ⟨_, _, found⟩ := inv.live reaches
      rw [fresh] at found
      cases found
  | @assigned t data n loaded content previous pc found =>
      exact write ((inv.holds t).apart n (by rw [pc]; rfl))
  | @pushFailed t data n content expected spurious pc found flag =>
      exact write ((inv.holds t).apart n (by rw [pc]; rfl))
  | @deleted t n tmp data next pc found => exact write ((inv.holds t).apart n (by rw [pc]; rfl))
  | @published t data n content pc found =>
      have link : s.next n = s.head := by simp [State.next, found]
      exact (reaches_publish link).mpr (.inr reaches)
  | @unlinked t b next pc top =>
      have installs := inv.installs pc top sound
      rw [top] at reaches
      cases reaches with
      | here => exact absurd rfl (notUnlinked t next _)
      | there rest => exact installs ▸ rest
  | _ => exact reaches

omit [DecidableEq Tid] in
/-- A node that is a thread's own is owned by it. -/
theorem Pc.owned_of_life {pc : Pc T} {life : Life Tid} (own : pc.life t = some (a, life)) :
    pc.owned = some a := by
  cases pc <;> simp_all [Pc.life, Pc.owned]

omit [DecidableEq Tid] in
/-- The node at an address is one thing at a time. -/
theorem Fits.unique {life life' : Life Tid} (inv : Inv guarded s values) (fits : Fits s a life)
    (fits' : Fits s a life') : life = life' := by
  have dead : s.view a = none → ¬ ∃ data next, s.view a = some (data, next) := by
    rintro free ⟨data, next, found⟩
    rw [free] at found
    cases found
  cases fits with
  | absent free =>
      cases fits' with
      | absent => rfl
      | linked reached => exact absurd (inv.live reached) (dead free)
      | @own u _ own => exact absurd ((inv.holds u).live a (Pc.owned_of_life own)) (dead free)
  | linked reached =>
      cases fits' with
      | absent free => exact absurd (inv.live reached) (dead free)
      | linked => rfl
      | @own u _ own => exact absurd reached ((inv.holds u).apart a (Pc.owned_of_life own))
  | @own t _ own =>
      cases fits' with
      | absent free => exact absurd ((inv.holds t).live a (Pc.owned_of_life own)) (dead free)
      | linked reached => exact absurd reached ((inv.holds t).apart a (Pc.owned_of_life own))
      | @own u _ own' =>
          obtain rfl : t = u := by
            by_contra different
            exact (inv.separate t u different).owned a (Pc.owned_of_life own)
              (Pc.owned_of_life own')
          rw [own] at own'
          cases own'
          rfl

/-- An event about other nodes leaves what the node at `a` is. -/
theorem Fits.keep {life : Life Tid} (inv : Inv guarded s values) (fits : Fits s a life)
    (effect : Effect s event s') (sound : Sound guarded s event)
    (other : ∀ before after, event.turn ≠ some (a, before, after)) : Fits s' a life := by
  cases fits with
  | absent free =>
      have write : ∀ {t : Tid} {pc : Pc T} {n : Addr} {block : Block T}, n ≠ a →
          Fits (s.put t pc (Function.update s.memory n block)) a .absent := by
        intro t pc n block different
        refine .absent ?_
        rw [view_update, if_neg (Ne.symm different)]
        exact free
      cases effect with
      | @made t _ n => exact write fun same => other .absent (.held t) (by rw [Event.turn, same])
      | @deleted t n =>
          exact write fun same => other (.emptied t) .absent (by rw [Event.turn, same])
      | assigned pc found | pushFailed pc found flag =>
          refine write fun same => ?_
          rw [same] at found
          exact absurd (found.symm.trans free) (by simp)
      | _ => exact .absent free
  | linked reached =>
      refine .linked (inv.reached effect sound (fun t next actual same => ?_) reached)
      exact other .linked (.taken t) (by rw [same, Event.turn])
  | @own u _ own =>
      refine .own (t := u) ?_
      rcases effect.thread_cases u with same | rfl
      · rw [same]
        exact own
      · cases effect with
        | @called t call => simp_all [Pc.life, Event.thread]
        | _ => simp_all [Pc.life, Event.thread, Event.turn]

/-- An event about the node at `a` finds and leaves it as the event says. -/
theorem Fits.turn {before after : Life Tid} (effect : Effect s event s')
    (turn : event.turn = some (a, before, after)) : Fits s a before ∧ Fits s' a after := by
  cases effect with
  | @made t data n pc fresh =>
      cases turn
      exact ⟨.absent fresh, .own (t := t) (by simp [Pc.life])⟩
  | @published t data n content pc found =>
      cases turn
      exact ⟨.own (t := t) (by simp [Pc.life, pc]), .linked .here⟩
  | @unlinked t b next pc top =>
      cases turn
      exact ⟨.linked (top.symm ▸ .here), .own (t := t) (by simp [Pc.life])⟩
  | @moved t b data next pc found =>
      cases turn
      exact ⟨.own (t := t) (by simp [Pc.life, pc]), .own (t := t) (by simp [Pc.life])⟩
  | @deleted t b tmp data next pc found =>
      cases turn
      exact ⟨.own (t := t) (by simp [Pc.life, pc]), .absent (by simp [view_update])⟩
  | _ => cases turn

/-- Every step takes the node at every address on in its life. -/
theorem Fits.step {life : Life Tid} (inv : Inv guarded s values) (fits : Fits s a life)
    (effect : Effect s event s') (sound : Sound guarded s event) :
    ∃ life', life.after a event = some life' ∧ Fits s' a life' := by
  by_cases about : ∃ before after, event.turn = some (a, before, after)
  · obtain ⟨before, after, turn⟩ := about
    obtain ⟨found, left⟩ := Fits.turn effect turn
    obtain rfl := fits.unique inv found
    exact ⟨after, Life.after_turn turn, left⟩
  · push Not at about
    exact ⟨life, Life.after_other life about, fits.keep inv effect sound about⟩

/-! ### The instants -/

/-- A step leaves the nodes of the other threads as they are. -/
theorem Inv.view_owned (inv : Inv guarded s values) (effect : Effect s event s') {u : Tid}
    (other : u ≠ event.thread) (own : (s.threads u).pc.owned = some a) :
    s'.view a = s.view a := by
  have write : ∀ {t : Tid} {pc : Pc T} {n : Addr} {block : Block T}, n ≠ a →
      (s.put t pc (Function.update s.memory n block)).view a = s.view a := by
    intro t pc n block different
    rw [view_update, if_neg (Ne.symm different)]
  have apart : ∀ {n : Addr}, (s.threads event.thread).pc.owned = some n → n ≠ a :=
    fun {n} held same => (inv.separate _ u (Ne.symm other)).owned n held (same ▸ own)
  cases effect with
  | @made t data n pc fresh =>
      refine write fun same => ?_
      obtain ⟨_, _, found⟩ := (inv.holds u).live a own
      rw [← same, fresh] at found
      cases found
  | @assigned t data n loaded content previous pc found =>
      exact write (apart (by simp [Event.thread, pc, Pc.owned]))
  | @pushFailed t data n content expected spurious pc found flag =>
      exact write (apart (by simp [Event.thread, pc, Pc.owned]))
  | @deleted t n tmp data next pc found =>
      exact write (apart (by simp [Event.thread, pc, Pc.owned]))
  | _ => rfl

/-- The other threads stay in their phases. -/
theorem Inv.phase (inv : Inv guarded s values) (effect : Effect s event s') {u : Tid}
    (other : u ≠ event.thread) : s'.phase u = s.phase u := by
  unfold State.phase
  rw [(effect.thread_cases u).resolve_right other]
  cases pc : (s.threads u).pc with
  | move a =>
      have same := inv.view_owned effect other (a := a) (by rw [pc]; rfl)
      simp only [Pc.phase, same]
  | test oldHead => cases oldHead <;> rfl
  | _ => rfl

omit [DecidableEq Tid] in
/-- A null `head` stores nothing. -/
theorem Inv.eq_nil (inv : Inv guarded s values) (top : s.head = none) : values = [] := by
  have stores := inv.stores
  rw [Stores, top] at stores
  exact stores.eq_nil

/-- What a step does to the sequential stack. -/
theorem Inv.matched (inv : Inv guarded s values) (sound : Sound guarded s event)
    (transition : machine.Step s event s') :
    ∃ marks values', (atomic (Lifo false)).Steps ⟨values, s.phase⟩ marks ⟨values', s'.phase⟩ ∧
      marks.filterMap Mark.visible = event.action.toList ∧ Inv guarded s' values' := by
  obtain ⟨_, effect⟩ := step_effect transition
  obtain ⟨values', inv', change, notFaulted⟩ := inv.effect effect sound
  have others : ∀ u, u ≠ event.thread → s'.phase u = s.phase u := fun u other =>
    inv.phase effect other
  -- a step that neither shows an action nor moves its thread to another phase
  have silent : event.action = none → s'.phase event.thread = s.phase event.thread →
      values' = values →
      ∃ marks values', (atomic (Lifo false)).Steps ⟨values, s.phase⟩ marks ⟨values', s'.phase⟩ ∧
        marks.filterMap Mark.visible = event.action.toList ∧ Inv guarded s' values' := by
    rintro noAction same rfl
    exact ⟨[], values', accepts_none others same, by simp [noAction], inv'⟩
  cases effect with
  | @called t call calls pc next =>
      cases change
      refine ⟨[.call t call], values, accepts_call ?_ others ?_, rfl, inv'⟩
      · simp [State.phase, pc, Pc.phase]
      · cases call <;> simp [State.phase, Call.entry, Pc.phase]
  | made pc fresh =>
      cases change
      exact silent rfl (by simp [State.phase, pc, Event.thread, Pc.phase]) rfl
  | loadedPush pc seen =>
      cases change
      exact silent rfl (by simp [State.phase, pc, Event.thread, Pc.phase]) rfl
  | assigned pc found =>
      cases change
      exact silent rfl (by simp [State.phase, pc, Event.thread, Pc.phase]) rfl
  | @published t data n content pc found =>
      cases change with
      | @published _ data' _ _ pc' =>
          rw [pc] at pc'
          cases pc'
          refine ⟨[.instant t (.push data) .done], data :: values,
            accepts_instant ?_ .push others ?_, rfl, inv'⟩
          · simp [State.phase, pc, Pc.phase]
          · simp [State.phase, Pc.phase]
      | kept notPublished => exact absurd rfl (notPublished t n)
  | pushFailed pc found flag =>
      cases change
      exact silent rfl (by simp [State.phase, pc, Event.thread, Pc.phase]) rfl
  | @loadedPop t pc =>
      cases change
      rcases Option.eq_none_or_eq_some s.head with top | ⟨a, top⟩
      · -- the stack is empty at this load
        obtain rfl : values = [] := inv.eq_nil top
        refine ⟨[.instant t .pop .outOfRange], [], accepts_instant ?_ .empty others ?_, rfl, inv'⟩
        · simp [State.phase, pc, Pc.phase]
        · simp [State.phase, top, Pc.phase]
      · exact silent rfl (by simp [State.phase, pc, top, Event.thread, Pc.phase]) rfl
  | foundEmpty pc =>
      cases change
      exact silent rfl (by simp [State.phase, pc, Event.thread, Pc.phase]) rfl
  | readNext pc shown =>
      cases change
      exact silent rfl (by simp [State.phase, pc, Event.thread, Pc.phase]) rfl
  | @unlinked t a next pc top =>
      cases change with
      | @unlinked _ _ data link _ found =>
          refine ⟨[.instant t .pop (.value data)], values',
            accepts_instant ?_ .pop others ?_, rfl, inv'⟩
          · simp [State.phase, pc, Pc.phase]
          · have shown : ((s.put t (.move a) s.memory).setHead (s.next a)).view a =
                some (data, s.next a) := found
            simp [State.phase, Pc.phase, shown]
      | kept _ notUnlinked => exact absurd rfl (notUnlinked t a next _)
  | @popFailed t a next spurious pc flag =>
      cases change
      rcases Option.eq_none_or_eq_some s.head with top | ⟨b, top⟩
      · -- the failed compare-exchange has seen the empty stack
        obtain rfl : values = [] := inv.eq_nil top
        refine ⟨[.instant t .pop .outOfRange], [], accepts_instant ?_ .empty others ?_, rfl, inv'⟩
        · simp [State.phase, pc, Pc.phase]
        · simp [State.phase, top, Pc.phase]
      · exact silent rfl (by simp [State.phase, pc, top, Event.thread, Pc.phase]) rfl
  | moved pc found =>
      cases change
      exact silent rfl (by simp [State.phase, pc, found, Event.thread, Pc.phase]) rfl
  | deleted pc found =>
      cases change
      exact silent rfl (by simp [State.phase, pc, Event.thread, Pc.phase]) rfl
  | @returned t result pc =>
      cases change
      refine ⟨[.ret t result], values, accepts_ret ?_ others ?_, rfl, inv'⟩
      · simp [State.phase, pc, Pc.phase]
      · simp [State.phase, Pc.phase]
  | faulted accesses dead => exact absurd rfl notFaulted

/-- Runs without reuse are matched by the sequential stack. -/
def simulation : Simulation machine NoReuse (Lifo (T := T) false)
    (Event.action : Event Tid T → _) where
  Represents := Inv fun _ => True
  phaseOf := State.phase
  matched inv noReuse transition := inv.matched noReuse.sound transition

/-! ### Runs -/

section Runs

variable {program : Tid → List (Call T)} {events : List (Event Tid T)}

/-- Every run without reuse keeps the invariant and accesses no node that is not
in use. -/
theorem inv_of_run (run : machine.StepsWhere NoReuse (initial program) events s) :
    (∃ values, Inv (fun _ => True) s values) ∧ ∀ t, .faulted t ∉ events := by
  induction run with
  | refl => exact ⟨⟨[], inv_initial program⟩, by simp⟩
  | step prior transition noReuse inductionHypothesis =>
      obtain ⟨⟨values, inv⟩, clean⟩ := inductionHypothesis
      obtain ⟨values', inv', _, notFaulted⟩ :=
        inv.effect (step_effect transition).2 noReuse.sound
      refine ⟨⟨values', inv'⟩, fun t member => ?_⟩
      rcases List.mem_append.mp member with earlier | last
      · exact clean t earlier
      · rw [List.mem_singleton] at last
        subst last
        exact notFaulted rfl

/-- Along a run without reuse no event comes out of order. -/
theorem fits_of_run (run : machine.StepsWhere NoReuse (initial program) events s) (a : Addr) :
    ∃ life, lifeOf a events = some life ∧ Fits s a life := by
  have born : lifeOf a ([] : List (Event Tid T)) = some .absent := rfl
  refine run.life (fun s life => Fits s a life) born (.absent rfl) ?_
  intro trace current event next life prior noReuse transition fits
  obtain ⟨⟨values, inv⟩, _⟩ := inv_of_run prior
  exact fits.step inv (step_effect transition).2 noReuse.sound

omit [DecidableEq Tid] in
/-- With no operation in flight no node waits for its deletion. -/
theorem Fits.not_pending {life : Life Tid} (fits : Fits s a life) (quiescent : s.Quiescent) :
    life.pending = 0 := by
  cases fits with
  | @own t _ own => simp [quiescent t, Pc.life] at own
  | _ => rfl

/-- Runs of the raw-pointer stack in which no `new` answers with the `old_head`
of a `pop` in flight linearize to the sequential stack, which holds the values
stored, and each pushed value is returned at most once. Every node is published
by the thread that made it, and deleted, once, by the thread that unlinked it.
What `head` reaches is in use, nothing that is not in use is written, moved from
or deleted, and `push` puts its node in front of the current `head`. -/
theorem linearizable_without_reuse
    (run : machine.StepsWhere NoReuse (initial program) events s) :
    (∃ marks final, Linearizes (Lifo false) [] (events.filterMap Event.action) marks final ∧
      Stores s final.object) ∧
    (returned (events.filterMap Event.action)).Subperm (requested (events.filterMap Event.action)) ∧
    (∀ a, ∃ life, lifeOf a events = some life ∧ Fits s a life ∧
      timesUnlinked a events = timesDeleted a events + life.pending) ∧
    (s.Quiescent → ∀ a, timesUnlinked a events = timesDeleted a events) ∧
    (∀ a, Reaches s.next s.head a → ∃ data next, s.memory a = .live data next) ∧
    (∀ t, .faulted t ∉ events) ∧
    ∀ {t n past future}, events = past ++ .published t n :: future →
      ∃ before after, machine.StepsWhere NoReuse (initial program) past before ∧
        machine.StepsWhere NoReuse after future s ∧
        before.next n = before.head ∧ after.next n = before.head ∧ after.head = some n := by
  obtain ⟨⟨values, inv⟩, clean⟩ := inv_of_run run
  obtain ⟨marks, object, represents, linearizes⟩ :=
    simulation.linearizes run (inv_initial program) fun t => by
      simp [simulation, State.phase, initial, Pc.phase]
  have fits := fits_of_run run
  have counts : ∀ a, ∃ life, lifeOf a events = some life ∧ Fits s a life ∧
      timesUnlinked a events = timesDeleted a events + life.pending := by
    intro a
    obtain ⟨life, known, fits⟩ := fits a
    exact ⟨life, known, fits, by simpa [Life.pending] using unlinked_eq_deleted known⟩
  refine ⟨⟨marks, _, linearizes, represents.stores⟩, returned_subperm_requested linearizes,
    counts, ?_, ?_, clean, ?_⟩
  · intro quiescent a
    obtain ⟨life, _, fits, count⟩ := counts a
    rw [count, fits.not_pending quiescent, Nat.add_zero]
  · intro a reaches
    obtain ⟨data, next, found⟩ := inv.live reaches
    exact ⟨data, next, view_eq_some.mp found⟩
  · intro t n past future parts
    obtain ⟨before, after, prior, transition, _, rest⟩ := run.stepAt parts
    refine ⟨before, after, prior, rest, ?_⟩
    cases (step_effect transition).2 with
    | @published _ data _ content pc found =>
        have link : before.next n = before.head := by simp [State.next, found]
        exact ⟨link, link, rfl⟩

end Runs

/-- One thread pushes two values and pops one, another pops one. -/
def pushesAndPops : Fin 2 → List (Call Nat)
  | 0 => [.push 1, .push 2, .pop]
  | 1 => [.pop]

/-- A run in which a `pop` reads the `next` of a node that has been deleted. -/
theorem linearizable_without_reuse_run : ∃ (events : List (Event (Fin 2) Nat))
    (s : State (Fin 2) Nat) (marks : _) (final : _),
    .readNext 1 8 (some 99) ∈ events ∧ returned (events.filterMap Event.action) = [2, 1] ∧
      Linearizes (Lifo false) [] (events.filterMap Event.action) marks final ∧
      Stores s final.object ∧ timesDeleted 8 events = 1 ∧
      timesUnlinked 8 events = timesDeleted 8 events := by
  obtain ⟨events, s, run, quiescent, stale, popped, deleted⟩ :
      ∃ events s, (System.ofStep? (System.guard? step? NoReuse)).Steps (initial pushesAndPops)
        events s ∧ s.Quiescent ∧ .readNext 1 8 (some 99) ∈ events ∧
        returned (events.filterMap Event.action) = [2, 1] ∧ timesDeleted 8 events = 1 :=
    System.exists_steps [.run 0, .allocate 0 7, .see 0 none, .run 0, .run 0, .run 0,
      .run 0, .allocate 0 8, .see 0 none, .run 0, .run 0, .run 0, .run 0,
      .run 1, .run 1, .run 0, .run 0, .run 0, .run 0, .run 0, .run 0, .run 0,
      .stale 1 (some 99), .run 1, .run 1, .run 1, .run 1, .run 1, .run 1] (by decide +kernel)
  obtain ⟨⟨marks, final, linearizes, stores⟩, _, _, exact_, _⟩ :=
    linearizable_without_reuse (System.stepsWhere_of_guard? run)
  exact ⟨events, s, marks, final, stale, popped, linearizes, stores, deleted, exact_ quiescent 8⟩

end LockFree.Aba.Raw
