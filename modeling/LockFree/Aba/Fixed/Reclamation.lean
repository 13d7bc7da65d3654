import LockFree.Aba.Fixed.Invariant
import LockFree.Semantics.Lives
import Mathlib.Algebra.GroupWithZero.Nat

/-!
# Memory reclamation of the reference-counted stack

`Life` is what a node is for from its construction to its destruction. The
events of a run take every address through it in order: constructed, published,
unlinked, emptied, destroyed. That no event comes out of order is the exactness
of the reclamation; the counts of constructions and destructions follow.
-/

namespace LockFree.Aba.Fixed

open Memory

variable {Tid T : Type}

/-- The node a step constructs. -/
def Event.created : Event Tid T → Option Addr
  | .made _ node => some node
  | _ => none

/-- The nodes a step destroys. -/
def Event.destroyed : Event Tid T → List Addr
  | .released _ _ destroyed => destroyed
  | _ => []

/-- The node whose `next` or `data` a step reads or writes. -/
def Event.accessed : Event Tid T → Option Addr
  | .assigned _ node | .published _ node | .readNext _ node | .moved _ node
  | .moveFailed _ node => some node
  | _ => none

/-- The node of a `push` that has not published it. -/
def Pc.private : Pc T → Option Addr
  | .load _ newNode | .assign _ newNode _ | .publish _ newNode => some newNode
  | _ => none

/-- The life of the node at an address. -/
inductive Life where
  | absent
  | held
  | linked
  | taken
  | emptied
deriving DecidableEq, Repr

/-- What an event makes of the node at `a`, unless it comes out of order. -/
def Life.after (a : Addr) : Event Tid T → Life → Option Life
  | .made _ node, life =>
      if node = a then if life = .absent then some .held else none else some life
  | .published _ node, life =>
      if node = a then if life = .held then some .linked else none else some life
  | .unlinked _ node, life =>
      if node = a then if life = .linked then some .taken else none else some life
  | .moved _ node, life =>
      if node = a then if life = .taken then some .emptied else none else some life
  | .released _ _ destroyed, life =>
      if destroyed.count a = 0 then some life
      else if destroyed.count a = 1 ∧ life ≠ .absent then some .absent else none
  | _, life => some life

/-- The life of the node at `a` after the events of a run. -/
def lifeOf (a : Addr) (events : List (Event Tid T)) : Option Life :=
  events.foldlM (fun life event => life.after a event) .absent

/-- How often a node has been constructed at `a`. -/
def timesMade (a : Addr) (events : List (Event Tid T)) : Nat :=
  events.countP fun event => event.created = some a

/-- How often the node at `a` has been destroyed. -/
def timesDestroyed (a : Addr) (events : List (Event Tid T)) : Nat :=
  (events.map fun event => event.destroyed.count a).sum

/-- One for a node that is live. -/
def Life.alive : Life → Nat
  | .absent => 0
  | _ => 1

/-- An event in order makes a node live or ends its life as it says. -/
theorem Life.after_alive {a : Addr} {event : Event Tid T} {life life' : Life}
    (after : life.after a event = some life') :
    (if event.created = some a then 1 else 0) + life.alive =
      event.destroyed.count a + life'.alive := by
  cases event with
  | made _ node | published _ node | unlinked _ node | moved _ node =>
      simp only [Life.after] at after
      split at after
      · split at after
        · cases after
          simp_all [Event.created, Event.destroyed, Life.alive]
        · cases after
      · cases after
        simp_all [Event.created, Event.destroyed]
  | released _ _ destroyed =>
      simp only [Life.after] at after
      split at after
      · cases after
        simp_all [Event.created, Event.destroyed]
      · split at after
        · cases after
          cases life <;> simp_all [Event.created, Event.destroyed, Life.alive]
        · cases after
  | _ =>
      cases after
      simp [Event.created, Event.destroyed]

/-- Constructions and destructions alternate. -/
theorem made_eq_destroyed {a : Addr} {events : List (Event Tid T)} {life life' : Life}
    (known : events.foldlM (fun life event => life.after a event) life = some life') :
    timesMade a events + life.alive = timesDestroyed a events + life'.alive := by
  have counts := begun_eq_ended Life.after_alive known
  simpa only [timesMade, timesDestroyed, countP_eq_sum, decide_eq_true_eq] using counts

/-- Once its data is moved out, a node is emptied until it is destroyed, and
absent until another one is constructed. -/
theorem spent_until_made {a : Addr} {events : List (Event Tid T)} {life life' : Life}
    (spent : life = .emptied ∨ life = .absent) (notMade : ∀ t, .made t a ∉ events)
    (known : events.foldlM (fun life event => life.after a event) life = some life') :
    life' = .emptied ∨ life' = .absent := by
  induction events generalizing life with
  | nil =>
      cases known
      exact spent
  | cons event events inductionHypothesis =>
      rw [List.foldlM_cons] at known
      obtain ⟨middle, after, rest⟩ := Option.bind_eq_some_iff.mp known
      refine inductionHypothesis ?_ (fun t later => notMade t (List.mem_cons_of_mem _ later)) rest
      cases event with
      | made t node =>
          have other : node ≠ a := fun same => notMade t (same ▸ List.mem_cons_self)
          simp only [Life.after, if_neg other, Option.some.injEq] at after
          exact after ▸ spent
      | published _ node | unlinked _ node | moved _ node =>
          simp only [Life.after] at after
          rcases spent with rfl | rfl <;> split at after <;> simp_all
      | released _ _ destroyed =>
          simp only [Life.after] at after
          split at after
          · simp_all
          · split at after <;> simp_all
      | _ =>
          cases after
          exact spent

/-- Between two moves out of the node at an address, another node is
constructed there. -/
theorem made_between_moves {a : Addr} {t u : Tid} {before between after : List (Event Tid T)}
    (known : (lifeOf a (before ++ .moved t a :: between ++ .moved u a :: after)).isSome) :
    ∃ v, .made v a ∈ between := by
  by_contra notMade
  push Not at notMade
  obtain ⟨last, known⟩ := Option.isSome_iff_exists.mp known
  rw [lifeOf, List.append_assoc, List.foldlM_append] at known
  obtain ⟨life, _, known⟩ := Option.bind_eq_some_iff.mp known
  rw [List.cons_append, List.foldlM_cons] at known
  obtain ⟨moved, first, known⟩ := Option.bind_eq_some_iff.mp known
  rw [List.foldlM_append] at known
  obtain ⟨spent, middle, known⟩ := Option.bind_eq_some_iff.mp known
  rw [List.foldlM_cons] at known
  obtain ⟨again, second, _⟩ := Option.bind_eq_some_iff.mp known
  have isEmptied : moved = .emptied := by
    simp only [Life.after, if_true] at first
    split at first <;> simp_all
  rcases spent_until_made (.inl isEmptied) notMade middle with rfl | rfl <;>
    simp [Life.after] at second

/-- A state agrees with the life of the node at `a`. -/
structure Fits (s : State Tid T) (a : Addr) (life : Life) : Prop where
  live : a ∈ s.heap ↔ life ≠ .absent
  held : ∀ t, (s.threads t).pc.private = some a → life = .held
  linked : Reaches s.heap.next s.head a → life = .linked
  moving : ∀ t, (s.threads t).pc = .move a → life = .taken

variable [DecidableEq Tid] {s s' : State Tid T} {event : Event Tid T} {a : Addr}

/-- A step changes the live nodes by those it constructs and destroys. -/
theorem Effect.mem_heap (effect : Effect s event s') :
    a ∈ s'.heap ↔ (a ∈ s.heap ∧ a ∉ event.destroyed) ∨ event.created = some a := by
  have same : ∀ {heap : Heap Addr (Option T)}, (∀ b, heap.view b = s.heap.view b) →
      (a ∈ heap ↔ (a ∈ s.heap ∧ a ∉ ([] : List Addr)) ∨ (none : Option Addr) = some a) := by
    intro heap views
    simp [Heap.mem_iff_view, views]
  have write : ∀ {heap : Heap Addr (Option T)} {n : Addr} {old new},
      s.heap.view n = some old → (∀ b, heap.view b = if b = n then some new else s.heap.view b) →
      (a ∈ heap ↔ (a ∈ s.heap ∧ a ∉ ([] : List Addr)) ∨ (none : Option Addr) = some a) := by
    intro heap n old new found views
    rw [Heap.mem_iff_view, Heap.mem_iff_view, views]
    by_cases here : a = n <;> simp [here, found]
  cases effect with
  | made ready pc fresh =>
      simp [Event.destroyed, Event.created, Heap.create, Finmap.mem_insert, or_comm, eq_comm]
  | released waiting effect =>
      simp only [Event.destroyed, Event.created, put_heap, reduceCtorEq, or_false]
      constructor
      · intro live
        refine ⟨?_, fun gone => ?_⟩
        · rw [Heap.mem_iff_view, ← effect.view_of_mem live]
          exact Heap.mem_iff_view.mp live
        · rw [Heap.mem_iff_view, effect.gone a gone] at live
          cases live
      · rintro ⟨live, kept⟩
        rw [Heap.mem_iff_view, effect.kept a kept]
        exact Heap.mem_iff_view.mp live
  | assigned ready pc found views | pushFailed ready pc found views
  | moved ready pc found views => exact write found views
  | loadedPush ready pc views | loadedPop ready pc views | loadedScan ready pc views
  | published ready pc found views | readNext ready pc found views
  | popFailed ready pc views => exact same views
  | _ => exact same fun _ => rfl

/-- A private node was private before, or has just been constructed. -/
theorem Effect.private (effect : Effect s event s') (u : Tid)
    (private_ : (s'.threads u).pc.private = some a) :
    (s.threads u).pc.private = some a ∨ event.created = some a := by
  rcases effect.thread_cases u with same | rfl
  · exact .inl (same ▸ private_)
  · cases effect with
    | made ready pc fresh =>
        exact .inr (by simpa [Pc.private, Event.thread, Event.created] using private_)
    | @called t call =>
        cases call <;> simp [Pc.private, Event.thread, Call.entry] at private_
    | loadedPush ready pc | assigned ready pc =>
        exact .inl (by simpa [Pc.private, Event.thread, pc] using private_)
    | loadedScan =>
        cases top : s.head <;> simp [Pc.private, Event.thread, top] at private_
    | pushFailed | released => exact .inl (by simpa [Event.thread] using private_)
    | _ => simp [Pc.private, Event.thread] at private_

/-- A thread about to move data out was so before, or has just unlinked the node. -/
theorem Effect.moving (effect : Effect s event s') (u : Tid)
    (moving : (s'.threads u).pc = .move a) :
    (s.threads u).pc = .move a ∨ event = .unlinked u a := by
  rcases effect.thread_cases u with same | rfl
  · exact .inl (same ▸ moving)
  · cases effect with
    | @called t call =>
        cases call <;> simp [Event.thread, Call.entry] at moving
    | loadedScan =>
        cases top : s.head <;> simp [Event.thread, top] at moving
    | unlinked => exact .inr (by simpa [Event.thread] using moving)
    | pushFailed | released => exact .inl (by simpa [Event.thread] using moving)
    | _ => simp [Event.thread] at moving

/-- Publishing a node is the only step from one of these positions to the other. -/
theorem Effect.published_of {data : T} (effect : Effect s event s')
    (before : (s.threads event.thread).pc = .publish data a)
    (after : (s'.threads event.thread).pc = .leave .done) : event = .published event.thread a := by
  cases effect <;> simp_all [Event.thread]

/-- A node reached from `head` was so before, or has just been published. -/
theorem Kept.reached [Fintype Tid] {values : List T} (kept : Kept s event.thread s' values)
    (effect : Effect s event s') (reaches : Reaches s'.heap.next s'.head a) :
    Reaches s.heap.next s.head a ∨ event = .published event.thread a := by
  rcases kept.frame.reached a reaches with before | ⟨_, data, before, after⟩
  · exact .inl before
  · exact .inr (effect.published_of before after)

section Fits

variable [Fintype Tid] {values values' : List T} {life : Life}

omit [DecidableEq Tid] in
/-- A private node is referred to by its own thread only. -/
theorem Inv.private (inv : Inv s values) {t : Tid} (private_ : (s.threads t).pc.private = some a) :
    Private s t a ∧ a ∈ (s.threads t).refs := by
  have holds := inv.holds t
  cases pc : (s.threads t).pc with
  | load data n | assign data n loaded | publish data n =>
      rw [pc] at holds private_
      obtain rfl : n = a := by simpa [Pc.private] using private_
      exact ⟨holds.1, by simp [Thread.refs, pc]⟩
  | _ => simp [pc, Pc.private] at private_

omit [DecidableEq Tid] in
/-- What is referred to, and what is reached, is live. -/
theorem Inv.live_of_reached (inv : Inv s values) (reaches : Reaches s.heap.next s.head a) :
    a ∈ s.heap := by
  rcases reaches.pointer_or_pred with top | ⟨b, _, link⟩
  · exact inv.exact.live_of_root (mem_roots_of_head top)
  · exact inv.exact.live_of_next link

/-- The node at an address stays what it is when the event is about other nodes. -/
theorem Fits.keep (fits : Fits s a life) (effect : Effect s event s')
    (kept : Kept s event.thread s' values') (notMade : event.created ≠ some a)
    (notDestroyed : a ∉ event.destroyed) (notPublished : event ≠ .published event.thread a)
    (notUnlinked : ∀ t, event ≠ .unlinked t a) : Fits s' a life where
  live := by
    rw [effect.mem_heap, ← fits.live]
    simp [notMade, notDestroyed]
  held t private_ := fits.held t ((effect.private t private_).resolve_right notMade)
  linked reaches := fits.linked ((kept.reached effect reaches).resolve_right notPublished)
  moving t moving := fits.moving t ((effect.moving t moving).resolve_right (notUnlinked t))

/-- A node whose data a thread is about to move is live. -/
theorem Inv.live_of_moving (inv : Inv s values) {t : Tid} (moving : (s.threads t).pc = .move a) :
    a ∈ s.heap :=
  inv.exact.live_of_root (mem_roots_of_refs (t := t) (by simp [Thread.refs, moving]))

/-- A node that is not live is none of those a life tells apart. -/
theorem Fits.absent (inv : Inv s values) (dead : a ∉ s.heap) : Fits s a .absent where
  live := by simp [dead]
  held _ private_ :=
    absurd (inv.exact.live_of_root (mem_roots_of_refs (inv.private private_).2)) dead
  linked reaches := absurd (inv.live_of_reached reaches) dead
  moving _ moving := absurd (inv.live_of_moving moving) dead

/-- Every step takes the node at every address on in its life. -/
theorem Fits.step (inv : Inv s values) (fits : Fits s a life) (effect : Effect s event s')
    (kept : Kept s event.thread s' values') :
    ∃ life', life.after a event = some life' ∧ Fits s' a life' := by
  have keep := fits.keep effect kept
  have live := effect.mem_heap (a := a)
  cases effect with
  | @made t data n ready pc fresh =>
      by_cases here : n = a
      · subst here
        have absent : life = .absent := by
          by_contra present
          exact fresh (fits.live.mpr present)
        refine ⟨.held, by simp [Life.after, absent], ?_, fun _ _ => rfl,
          fun reaches => ?_, fun u moving => ?_⟩
        · rw [live]
          simp [Event.created]
        · rcases kept.reached (.made ready pc fresh) reaches with before | published
          · exact absurd (inv.live_of_reached before) fresh
          · cases published
        · rcases Effect.moving (.made ready pc fresh) u moving with before | unlinked
          · exact absurd (inv.live_of_moving before) fresh
          · cases unlinked
      · exact ⟨life, by simp [Life.after, here], keep (by simp [Event.created, here])
          (by simp [Event.destroyed]) (by simp) (by simp)⟩
  | @published t data n content heap ready pc found views =>
      by_cases here : n = a
      · subst here
        have isPrivate : (s.threads t).pc.private = some n := by rw [pc]; rfl
        obtain ⟨private_, member⟩ := inv.private isPrivate
        have held := fits.held t isPrivate
        refine ⟨.linked, by simp [Life.after, held], ?_, fun u privateToo => ?_, fun _ => rfl,
          fun u moving => ?_⟩
        · rw [live, fits.live, held]
          simp [Event.destroyed]
        · by_cases same : u = t
          · subst same
            simp [Pc.private] at privateToo
          · rw [put_threads_other s same] at privateToo
            exact absurd (inv.private privateToo).2 (private_.notShared u same)
        · by_cases same : u = t
          · subst same
            simp at moving
          · rw [put_threads_other s same] at moving
            exact absurd (by simp [Thread.refs, moving]) (private_.notShared u same)
      · exact ⟨life, by simp [Life.after, here], keep (by simp [Event.created])
          (by simp [Event.destroyed]) (by simp [here]) (by simp)⟩
  | @unlinked t n next ready pc top =>
      by_cases here : n = a
      · subst here
        have linked := fits.linked (top ▸ .here)
        have holds := kept.inv.holds t
        rw [put_threads_self] at holds
        refine ⟨.taken, by simp [Life.after, linked], ?_, fun u privateToo => ?_, fun reaches => ?_,
          fun _ _ => rfl⟩
        · rw [live, fits.live, linked]
          simp [Event.destroyed]
        · rcases Effect.private (.unlinked ready pc top) u privateToo with before | created
          · exact absurd top (inv.private before).1.notHead
          · cases created
        · exact absurd reaches holds.1.notReached
      · exact ⟨life, by simp [Life.after, here], keep (by simp [Event.created])
          (by simp [Event.destroyed]) (by simp) (by simp [here])⟩
  | @moved t n data link heap ready pc found views =>
      by_cases here : n = a
      · subst here
        have taken := fits.moving t pc
        have holds := inv.holds t
        rw [pc] at holds
        refine ⟨.emptied, by simp [Life.after, taken], ?_, fun u privateToo => ?_,
          fun reaches => ?_, fun u moving => ?_⟩
        · rw [live, fits.live, taken]
          simp [Event.destroyed]
        · rcases Effect.private (.moved ready pc found views) u privateToo with before | created
          · have held := fits.held u before
            rw [taken] at held
            cases held
          · cases created
        · rcases kept.reached (.moved ready pc found views) reaches with before | published
          · exact absurd before holds.1.notReached
          · cases published
        · by_cases same : u = t
          · subst same
            simp at moving
          · rw [put_threads_other s same] at moving
            exact absurd moving (holds.1.notMoving u same)
      · exact ⟨life, by simp [Life.after, here], keep (by simp [Event.created])
          (by simp [Event.destroyed]) (by simp) (by simp)⟩
  | @released t n rest destroyed heap waiting effect =>
      by_cases here : a ∈ destroyed
      · have present := fits.live.mp (effect.live a here)
        have once : destroyed.count a = 1 := List.count_eq_one_of_mem effect.nodup here
        refine ⟨.absent, by simp [Life.after, once, present], Fits.absent kept.inv ?_⟩
        rw [live]
        simp [Event.destroyed, Event.created, here]
      · have never : destroyed.count a = 0 := List.count_eq_zero_of_not_mem here
        exact ⟨life, by simp [Life.after, never], keep (by simp [Event.created]) here (by simp)
          (by simp)⟩
  | _ =>
      exact ⟨life, rfl, keep (by simp [Event.created]) (by simp [Event.destroyed]) (by simp)
        (by simp)⟩

/-- Along a run no event comes out of order. -/
theorem fits_of_run {throws : Throws} {events earlier : List (Event Tid T)} {start : State Tid T}
    (inv : Inv start values) (begun : ∀ a, ∃ life, lifeOf a earlier = some life ∧ Fits start a life)
    (run : (machine throws).Steps start events s) :
    ∀ a, ∃ life, lifeOf a (earlier ++ events) = some life ∧ Fits s a life := by
  intro a
  obtain ⟨born, known, fits⟩ := begun a
  refine run.life (fun s life => Fits s a life) known fits ?_
  intro trace current event next life prior _ transition fits
  obtain ⟨⟨middle, invMiddle⟩, _⟩ := inv.steps prior
  obtain ⟨values', effect, _, _, kept⟩ := invMiddle.step transition
  exact fits.step invMiddle effect kept

end Fits

/-! ### What is referred to -/

/-- `head`, a live node or a variable of a thread refers to `a`. -/
def Referenced (s : State Tid T) (a : Addr) : Prop :=
  s.head = some a ∨ (∃ b, s.heap.next b = some a) ∨ ∃ t, a ∈ (s.threads t).refs

section Runs

variable [Fintype Tid] {values values' : List T}

/-- What is referred to is live. -/
theorem Inv.live_of_referenced (inv : Inv s values) (referenced : Referenced s a) : a ∈ s.heap := by
  rcases referenced with top | ⟨b, link⟩ | ⟨t, held⟩
  · exact inv.exact.live_of_root (mem_roots_of_head top)
  · exact inv.exact.live_of_next link
  · exact inv.exact.live_of_root (mem_roots_of_refs held)

/-- A step reads and writes live nodes. -/
theorem Effect.accessed (effect : Effect s event s') (inv : Inv s values)
    (accessed : event.accessed = some a) : a ∈ s.heap := by
  have ofView : ∀ {n shown}, s.heap.view n = some shown → n ∈ s.heap := fun found =>
    Heap.mem_iff_view.mpr (by simp [found])
  cases effect with
  | assigned ready pc found | published ready pc found | readNext ready pc found
  | moved ready pc found =>
      cases accessed
      exact ofView found
  | moveFailed ready pc =>
      cases accessed
      exact inv.live_of_moving pc
  | _ => cases accessed

omit [DecidableEq Tid] in
/-- With no operation in flight the live nodes are those reached from `head`. -/
theorem Inv.live_iff_reached (inv : Inv s values) (quiescent : s.Quiescent) :
    a ∈ s.heap ↔ Reaches s.heap.next s.head a := by
  refine ⟨fun live => ?_, inv.live_of_reached⟩
  obtain ⟨root, member, reaches⟩ := inv.exact.reached inv.acyclic live
  have noRefs : ∑ t, (s.threads t).refs = 0 :=
    Finset.sum_eq_zero fun t _ => by simp [Thread.refs, (quiescent t).1, (quiescent t).2]
  rw [State.roots, noRefs, add_zero] at member
  cases top : s.head with
  | none => simp [top] at member
  | some b =>
      obtain rfl : root = b := by simpa [top] using member
      exact reaches

/-- Only `t` is left, running `~stack`, and it stops at a null `head`. -/
structure Destroying (t : Tid) (s : State Tid T) : Prop where
  others : ∀ u, u ≠ t → s.threads u = ⟨[], .idle, [], false⟩
  calls : (s.threads t).calls = []
  gone : (s.threads t).pc = .gone → s.head = none ∧ (s.threads t).drops = []

omit [Fintype Tid] in
/-- `~stack` goes on alone. -/
theorem Destroying.step {t : Tid} (destroying : Destroying t s) (effect : Effect s event s') :
    Destroying t s' := by
  have own_ : event.thread = t := by
    by_contra other
    have idle := destroying.others _ other
    cases effect <;> simp_all [Event.thread]
  have others : ∀ u, u ≠ t → s'.threads u = ⟨[], .idle, [], false⟩ := fun u other =>
    ((effect.thread_cases u).resolve_right (own_ ▸ other)).trans (destroying.others u other)
  subst own_
  refine ⟨others, ?_, ?_⟩
  · have calls := destroying.calls
    cases effect <;> simp_all [Event.thread]
  · have calls := destroying.calls
    have gone := destroying.gone
    cases effect with
    | @called t call => cases call <;> simp [Call.entry, Event.thread]
    | loadedScan ready pc views =>
        rcases Option.eq_none_or_eq_some s.head with top | ⟨b, top⟩ <;> simp [top, Event.thread]
    | _ => simp_all [Event.thread]

/-- When `~stack` has returned, no node is left. -/
theorem Destroying.empty {t : Tid} (destroying : Destroying t s) (inv : Inv s values)
    (gone : (s.threads t).pc = .gone) : a ∉ s.heap := by
  intro live
  obtain ⟨root, member, _⟩ := inv.exact.reached inv.acyclic live
  obtain ⟨top, drops⟩ := destroying.gone gone
  have noRefs : ∑ u, (s.threads u).refs = 0 := by
    refine Finset.sum_eq_zero fun u _ => ?_
    by_cases same : u = t
    · simp [same, Thread.refs, gone, drops]
    · simp [Thread.refs, destroying.others u same]
  simp [State.roots, noRefs, top] at member

/-- Every run of `~stack` keeps `t` alone. -/
theorem Destroying.steps {throws : Throws} {t : Tid} {events : List (Event Tid T)}
    (destroying : Destroying t s) (inv : Inv s values)
    (run : (machine throws).Steps s events s') : Destroying t s' := by
  induction run with
  | refl => exact destroying
  | step prior transition _ inductionHypothesis =>
      obtain ⟨⟨middle, invMiddle⟩, _⟩ := inv.steps prior
      obtain ⟨values', effect, _⟩ := invMiddle.step transition
      exact inductionHypothesis.step effect

omit [Fintype Tid] in
/-- `~stack` starts alone. -/
theorem destroying_destroy (s : State Tid T) (t : Tid) : Destroying t (s.destroy t) where
  others u other := by simp [State.destroy, other]
  calls := by simp [State.destroy]
  gone pc := by simp [State.destroy] at pc

omit [Fintype Tid] in
/-- Starting `~stack` changes no node's life. -/
theorem Fits.destroy {life : Life} (fits : Fits s a life) (t : Tid) :
    Fits (s.destroy t) a life where
  live := fits.live
  held u private_ := by
    by_cases same : u = t <;> simp [State.destroy, same, Pc.private] at private_
  linked := fits.linked
  moving u moving := by
    by_cases same : u = t <;> simp [State.destroy, same] at moving

/-- Along a run of calls no event comes out of order. -/
theorem fits_of_calls {throws : Throws} {program : Tid → List (Call T)}
    {events : List (Event Tid T)} (run : (machine throws).Steps (initial program) events s)
    (a : Addr) :
    ∃ life, lifeOf a events = some life ∧ Fits s a life := by
  have begun : ∀ a, ∃ life, lifeOf a ([] : List (Event Tid T)) = some life ∧
      Fits (initial program) a life := fun a =>
    ⟨.absent, rfl, .absent (inv_initial program) Finmap.notMem_empty⟩
  simpa using fits_of_run (inv_initial program) begun run a

/-- Reclamation is exact. In every reachable state the links have no cycle and
what is referred to is live, so that a step destroys nodes to which nothing
refers, accesses live nodes, and constructs nodes at addresses to which nothing
refers. The data of a node is moved out once at most. With no operation in
flight the live nodes are those reached from `head`, and when `~stack` has run
then, every node constructed has been destroyed once. -/
theorem reclamation_exact {throws : Throws} {program : Tid → List (Call T)}
    {events : List (Event Tid T)} (run : (machine throws).Steps (initial program) events s) :
    Acyclic s.heap.next ∧
    (∀ a, Referenced s a → a ∈ s.heap) ∧
    (∀ {event s'}, (machine throws).Step s event s' →
      (∀ a ∈ event.destroyed, ¬ Referenced s' a) ∧
      (∀ a, event.accessed = some a → a ∈ s.heap) ∧
      (∀ a, event.created = some a → ¬ Referenced s a) ∧
      ∀ t, event ≠ .faulted t) ∧
    (∀ {a t u before between after},
      events = before ++ .moved t a :: between ++ .moved u a :: after → ∃ v, .made v a ∈ between) ∧
    (s.Quiescent →
      (∀ a, a ∈ s.heap ↔ Reaches s.heap.next s.head a) ∧
      ∀ {t events' s'}, (machine throws).Steps (s.destroy t) events' s' →
        (s'.threads t).pc = .gone → ∀ a, a ∉ s'.heap ∧
          lifeOf a (events ++ events') = some .absent ∧
          timesMade a (events ++ events') = timesDestroyed a (events ++ events')) := by
  obtain ⟨⟨values, inv⟩, _⟩ := (inv_initial program).steps run
  have fits := fits_of_calls run
  refine ⟨inv.acyclic, fun a => inv.live_of_referenced, ?_, ?_, fun quiescent => ⟨?_, ?_⟩⟩
  · intro event s' transition
    obtain ⟨values', effect, _, _, kept⟩ := inv.step transition
    refine ⟨fun a gone referenced => ?_, fun a => effect.accessed inv,
      fun a created referenced => ?_, fun t fault => ?_⟩
    · have live := kept.inv.live_of_referenced referenced
      rw [effect.mem_heap] at live
      rcases live with ⟨_, kept⟩ | created
      · exact kept gone
      · cases event <;> simp [Event.created, Event.destroyed] at created gone
    · have live := inv.live_of_referenced referenced
      cases effect with
      | made ready pc fresh =>
          cases created
          exact fresh live
      | _ => cases created
    · subst fault
      cases effect
  · rintro a t u before between after rfl
    obtain ⟨life, known, _⟩ := fits a
    exact made_between_moves (Option.isSome_iff_exists.mpr ⟨life, known⟩)
  · exact fun a => inv.live_iff_reached quiescent
  · intro t events' s' destruction gone a
    have inv₀ := inv.destroy quiescent t
    obtain ⟨⟨values', inv'⟩, _⟩ := inv₀.steps destruction
    have dead : a ∉ s'.heap :=
      ((destroying_destroy s t).steps inv₀ destruction).empty inv' gone
    obtain ⟨life, known, fits'⟩ := fits_of_run inv₀ (fun a => by
      obtain ⟨life, known, fits⟩ := fits a
      exact ⟨life, known, fits.destroy t⟩) destruction a
    obtain rfl : life = .absent := by
      by_contra present
      exact dead (fits'.live.mpr present)
    exact ⟨dead, known, by simpa using made_eq_destroyed known⟩

/-- One thread pushes two values, another pops one. -/
def overtaken : Fin 2 → List (Call Nat)
  | 0 => [.push 1, .push 2]
  | 1 => [.pop]

/-- A `push` overtakes a `pop`, which fails once, and the first thread destroys
the stack. -/
theorem reclamation_exact_run : ∃ (events events' : List (Event (Fin 2) Nat)),
    Event.exchangeFailed 1 false ∈ events ∧ Event.released 1 8 [8] ∈ events ∧
      Event.released 0 7 [7] ∈ events' ∧
      ∀ a, timesMade a (events ++ events') = timesDestroyed a (events ++ events') := by
  let choices : List (Choice (Fin 2)) := List.replicate 11 (.run 0)
  obtain ⟨events, s, run, failed, popped, quiescent, destroys⟩ :
      ∃ events s, (machine ⟨true, true⟩).Steps (initial overtaken) events s ∧
        Event.exchangeFailed 1 false ∈ events ∧ Event.released 1 8 [8] ∈ events ∧
        s.Quiescent ∧ (System.run? (step? ⟨true, true⟩) (s.destroy 0) choices).elim false
          (fun done => (done.2.threads 0).pc = .gone ∧ Event.released 0 7 [7] ∈ done.1) = true :=
    System.exists_steps (.run 0 :: .allocate 0 7 :: List.replicate 6 (.run 0) ++
      .allocate 0 8 :: .run 0 :: List.replicate 3 (.run 1) ++ List.replicate 5 (.run 0) ++
      List.replicate 9 (.run 1)) (by decide +kernel)
  obtain ⟨events', s', destruction, gone, released⟩ :
      ∃ events' s', (machine ⟨true, true⟩).Steps (s.destroy 0) events' s' ∧
        (s'.threads 0).pc = .gone ∧ Event.released 0 7 [7] ∈ events' :=
    System.exists_steps choices destroys
  obtain ⟨_, _, _, _, atRest⟩ := reclamation_exact run
  exact ⟨events, events', failed, popped, released, fun a =>
    ((atRest quiescent).2 destruction gone a).2.2⟩

end Runs

end LockFree.Aba.Fixed
