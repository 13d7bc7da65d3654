import LockFree.Aba.Fixed.Reclamation

/-!
# Pinned nodes

An unlinked node keeps its `next`. While a suspended operation still refers to
it, the successor stays live, also after the `pop` that unlinked the successor
has let go of it: the successor is pinned. Releasing the first node then
destroys both.

`Pins` is the step that makes it so, a release of the last direct reference to a
node that another unlinked node still has as its `next`. Runs without such a
step never pin a node, and `~stack` takes no such step.
-/

namespace LockFree.Aba.Fixed

open Memory

variable {Tid T : Type}

/-- An operation in flight refers to `a`: by a variable or a temporary, or by
the `next` of its unpublished node. -/
def Direct (s : State Tid T) (a : Addr) : Prop :=
  (∃ t, a ∈ (s.threads t).refs) ∨
    ∃ t n, (s.threads t).pc.private = some n ∧ s.heap.next n = some a

/-- Every live node is reached from `head` or referred to by an operation in flight. -/
def Unpinned (s : State Tid T) : Prop :=
  ∀ a ∈ s.heap, Reaches s.heap.next s.head a ∨ Direct s a

/-- The step gives up the last direct reference to a node that the stack has
lost and another live node still has as its successor. -/
def Pins [Fintype Tid] (s : State Tid T) : Event Tid T → Prop
  | .released _ a _ =>
      ¬ Reaches s.heap.next s.head a ∧ (∃ b, s.heap.next b = some a) ∧ s.roots.count a = 1 ∧
        ∀ t n, (s.threads t).pc.private = some n → s.heap.next n ≠ some a
  | _ => False

variable [DecidableEq Tid] [Fintype Tid] {s s' : State Tid T} {event : Event Tid T} {a : Addr}
  {values values' : List T}

/-- A reached node stays reached, unless it is the one unlinked. -/
theorem Inv.reaches (inv : Inv s values) (effect : Effect s event s')
    (kept : Kept s event.thread s' values') (reaches : Reaches s.heap.next s.head a) :
    Reaches s'.heap.next s'.head a ∨ event = .unlinked event.thread a := by
  have same : ∀ {heap : Heap Addr (Option T)}, (∀ b, heap.view b = s.heap.view b) →
      heap.next = s.heap.next := fun views => by
    rw [Heap.next_eq_bind, Heap.next_eq_bind, funext views]
  have written : ∀ {heap : Heap Addr (Option T)} {t n shown},
      (s.threads t).pc.private = some n →
      (∀ b, heap.view b = if b = n then some shown else s.heap.view b) →
      Reaches heap.next s.head a := fun {heap t n shown} isPrivate views =>
    reaches.congr fun x way => by
      rw [Heap.next_eq_view, views, if_neg, ← Heap.next_eq_view]
      exact fun here => (inv.private isPrivate).1.not_reached (here ▸ way)
  cases effect with
  | @made t data n ready pc fresh =>
      refine .inl (reaches.mono fun x y link => ?_)
      have other : x ≠ n := fun here => fresh (here ▸ Heap.mem_of_next link)
      rw [put_heap, Heap.next_eq_view, Heap.create, Heap.view_insert, if_neg other,
        ← Heap.next_eq_view]
      exact link
  | @published t data n content heap ready pc found views =>
      refine .inl (.there ?_)
      rw [put_heap, same views, Heap.next_eq_view, found]
      exact reaches
  | @unlinked t n next ready pc top =>
      rw [top] at reaches
      have holds := inv.holds t
      rw [pc] at holds
      obtain ⟨content, found⟩ := holds
      cases reaches with
      | here => exact .inr rfl
      | there rest =>
          rw [Heap.next_eq_view, found] at rest
          exact .inl rest
  | assigned ready pc found views | pushFailed ready pc found views =>
      exact .inl (written (by rw [pc]; rfl) views)
  | @moved t n data link heap ready pc found views =>
      refine .inl (reaches.mono fun x y linked => ?_)
      rw [put_heap, Heap.next_eq_view, views]
      by_cases here : x = n
      · rw [here, Heap.next_eq_view, found] at linked
        rw [if_pos here]
        exact linked
      · rw [if_neg here, ← Heap.next_eq_view]
        exact linked
  | @released t n rest destroyed heap waiting effect =>
      refine .inl (effect.reaches kept.inv.exact reaches fun b top => ?_).1
      exact kept.inv.exact.live_of_root (mem_roots_of_head (by simpa using top))
  | loadedPush ready pc views | loadedPop ready pc views | loadedScan ready pc views
  | readNext ready pc found views | popFailed ready pc views =>
      refine .inl ?_
      rw [put_heap, same views]
      exact reaches
  | _ => exact .inl reaches

omit [Fintype Tid] in
/-- What a step leaves of the references of its own thread: they are kept, become
links of the list or of the private node, or one of them is released. -/
theorem Effect.own_refs (effect : Effect s event s')
    (held : a ∈ (s.threads event.thread).refs) :
    Reaches s'.heap.next s'.head a ∨ Direct s' a ∨
      ∃ destroyed, event = .released event.thread a destroyed := by
  have keep : a ∈ (s'.threads event.thread).refs → Reaches s'.heap.next s'.head a ∨ Direct s' a ∨
      ∃ destroyed, event = .released event.thread a destroyed := fun held' =>
    .inr (.inl (.inl ⟨_, held'⟩))
  cases effect with
  | @assigned t data n loaded content previous heap ready pc found views =>
      rw [Event.thread, Thread.refs, pc, ready, refs_assign] at held
      simp only [Multiset.coe_nil, add_zero, Multiset.mem_add, Multiset.mem_singleton] at held
      rcases held with rfl | loads
      · exact keep (by simp [Event.thread, Thread.refs])
      · refine .inr (.inl (.inr ⟨t, n, by simp [Pc.private], ?_⟩))
        rw [put_heap, Heap.next_eq_view, views, if_pos rfl]
        simpa [own, eq_comm] using loads
  | @unlinked t n next ready pc top =>
      rw [Event.thread, Thread.refs, pc, ready, refs_exchange] at held
      simp only [Multiset.coe_nil, add_zero, Multiset.mem_add, Multiset.mem_singleton] at held
      rcases held with rfl | link
      · exact keep (by simp [Event.thread, Thread.refs])
      · have first : next = some a := by simpa [own, eq_comm] using link
        exact .inl (by rw [put_head, first]; exact .here)
  | @released t n rest destroyed heap waiting effect =>
      rw [Event.thread, Thread.refs, waiting, ← Multiset.cons_coe, Multiset.mem_add,
        Multiset.mem_cons] at held
      rcases held with inPc | rfl | later
      · exact keep (by simp [Event.thread, Thread.refs, inPc])
      · exact .inr (.inr ⟨destroyed, rfl⟩)
      · exact keep (by simpa [Event.thread, Thread.refs] using .inr later)
  | pushFailed ready pc =>
      refine keep ?_
      simp_all [Event.thread, Thread.refs]
  | loadedScan ready pc => simp [Event.thread, Thread.refs, ready, pc] at held
  | called ready pc | made ready pc | makeFailed ready pc | loadedPush ready pc
  | loadedPop ready pc | published ready pc | foundEmpty ready pc | readNext ready pc
  | popFailed ready pc | moved ready pc | moveFailed ready pc | resultMoved ready pc
  | resultMoveFailed ready pc | returned ready pc | popped ready pc | terminated ready pc =>
      simp only [Event.thread, Thread.refs, ready, pc] at held
      refine keep ?_
      simp_all [Event.thread, Thread.refs, own]

/-- What a step leaves of the link of its own thread's private node. -/
theorem Inv.own_link (inv : Inv s values) (effect : Effect s event s')
    (kept : Kept s event.thread s' values') {n : Addr}
    (isPrivate : (s.threads event.thread).pc.private = some n) (link : s.heap.next n = some a) :
    Direct s' a := by
  have holds := inv.holds event.thread
  cases effect with
  | loadedPush ready pc views =>
      simp only [Event.thread, pc, Pc.private, Option.some.injEq] at holds isPrivate
      subst isPrivate
      rw [Heap.next_eq_view, holds.2] at link
      cases link
  | assigned ready pc found views =>
      simp only [Event.thread, pc, Pc.private, Option.some.injEq] at holds isPrivate
      subst isPrivate
      rw [Heap.next_eq_view, holds.2.1] at link
      cases link
  | @published t data _ content heap ready pc found views =>
      simp only [Event.thread, pc, Pc.private, Option.some.injEq] at isPrivate
      subst isPrivate
      rw [Heap.next_eq_view, found] at link
      have top : s.head = some a := link
      exact .inl ⟨t, by simp [Thread.refs, top]⟩
  | @pushFailed t data _ content expected heap spurious ready pc found views flag =>
      simp only [Event.thread, pc, Pc.private, Option.some.injEq] at isPrivate
      subst isPrivate
      rw [Heap.next_eq_view, found] at link
      have old : expected = some a := link
      exact .inl ⟨t, by simp [Thread.refs, old]⟩
  | @released t b rest destroyed heap waiting effect =>
      have stillPrivate : ((s.put t { s.threads t with drops := rest } heap s.head).threads
          t).pc.private = some n := by simpa [Event.thread] using isPrivate
      refine .inr ⟨t, n, stillPrivate, ?_⟩
      have live := kept.inv.exact.live_of_root
        (mem_roots_of_refs (kept.inv.private stillPrivate).2)
      rw [put_heap, Heap.next_eq_view, effect.view_of_mem live, ← Heap.next_eq_view]
      exact link
  | called ready pc | made ready pc | makeFailed ready pc | loadedPop ready pc
  | loadedScan ready pc | foundEmpty ready pc | readNext ready pc | unlinked ready pc
  | popFailed ready pc | moved ready pc | moveFailed ready pc | resultMoved ready pc
  | resultMoveFailed ready pc | returned ready pc | popped ready pc | terminated ready pc =>
      simp [Event.thread, pc, Pc.private] at isPrivate

/-- A step keeps the link of every private node a direct reference. -/
theorem Inv.link (inv : Inv s values) (effect : Effect s event s')
    (kept : Kept s event.thread s' values') {u : Tid} {n : Addr}
    (isPrivate : (s.threads u).pc.private = some n) (link : s.heap.next n = some a) :
    Direct s' a := by
  by_cases stepped : u = event.thread
  · exact inv.own_link effect kept (stepped ▸ isPrivate) link
  · refine .inr ⟨u, n, by rwa [kept.frame.others u stepped], ?_⟩
    rcases kept.frame.views u stepped n (inv.private isPrivate).2 with same | ⟨_, same, _⟩
    · rw [Heap.next_eq_view, same, ← Heap.next_eq_view]
      exact link
    · rw [same]
      exact link

/-- A step keeps the direct references, but for the one it releases. -/
theorem Inv.direct (inv : Inv s values) (effect : Effect s event s')
    (kept : Kept s event.thread s' values') (direct : Direct s a) :
    Reaches s'.heap.next s'.head a ∨ Direct s' a ∨
      ∃ destroyed, event = .released event.thread a destroyed := by
  rcases direct with ⟨u, held⟩ | ⟨u, n, isPrivate, link⟩
  · by_cases stepped : u = event.thread
    · exact effect.own_refs (stepped ▸ held)
    · exact .inr (.inl (.inl ⟨u, by rwa [kept.frame.others u stepped]⟩))
  · exact .inr (.inl (inv.link effect kept isPrivate link))

omit [DecidableEq Tid] in
/-- A root is reached from `head` or a direct reference. -/
theorem covered_of_root (root : a ∈ s.roots) : Reaches s.heap.next s.head a ∨ Direct s a := by
  rcases Multiset.mem_add.mp root with top | held
  · cases head : s.head with
    | none => simp [head] at top
    | some b =>
        obtain rfl : a = b := by simpa [head] using top
        exact .inl .here
  · obtain ⟨t, _, member⟩ := Multiset.mem_sum.mp held
    exact .inr (.inl ⟨t, member⟩)

/-- In a state without pinned nodes, a release destroys one node at most. -/
theorem Inv.single (inv : Inv s values) (unpinned : Unpinned s) (effect : Effect s event s') :
    event.destroyed.length ≤ 1 := by
  cases effect with
  | @released t a rest destroyed heap waiting effect =>
      by_contra several
      obtain ⟨b, link, last⟩ := effect.single (Nat.lt_of_not_le several)
      have lastA : ¬ 1 < s.heap.uses a := fun shared => by
        simp [Event.destroyed, effect.shared shared] at several
      have countA := inv.exact.counted a
      have countB := inv.exact.counted b
      have linked := Heap.inRefs_pos link
      -- the reference being released is the only one to `a`
      rw [roots_drop s.heap waiting, Multiset.count_cons_self] at countA
      have notRoot : a ∉ (s.put t { s.threads t with drops := rest } s.heap s.head).roots :=
        fun root => by
          have := Multiset.count_pos.mpr root
          omega
      have notLinked : ∀ x, s.heap.next x ≠ some a := fun x link => by
        have := Heap.inRefs_pos link
        omega
      have noRoot : b ∉ s.roots := fun root => by
        have := Multiset.count_pos.mpr root
        omega
      have only : ∀ x, s.heap.next x = some b → x = a := fun x link' => by
        by_contra different
        have := Heap.one_lt_inRefs link' link different
        omega
      rcases unpinned b (inv.exact.live_of_next link) with
        reaches | ⟨u, held⟩ | ⟨u, n, isPrivate, link'⟩
      · rcases reaches.pointer_or_pred with top | ⟨x, before, link'⟩
        · exact noRoot (mem_roots_of_head top)
        · obtain rfl := only x link'
          rcases before.pointer_or_pred with top | ⟨y, _, link''⟩
          · exact notRoot (mem_roots_of_head (by simpa using top))
          · exact notLinked y link''
      · exact noRoot (mem_roots_of_refs held)
      · obtain rfl := only n link'
        obtain ⟨private_, held⟩ := inv.private isPrivate
        by_cases same : u = t
        · subst same
          refine notRoot (mem_roots_of_refs (t := u) ?_)
          rw [put_threads_self, Thread.refs, Multiset.mem_add]
          left
          cases pc : (s.threads u).pc <;> simp_all [Pc.private]
        · exact private_.notShared t (Ne.symm same) (by simp [Thread.refs, waiting])
  | _ => simp [Event.destroyed]

/-- A step that does not pin leaves no node pinned. -/
theorem Inv.unpinned (inv : Inv s values) (unpinned : Unpinned s) (effect : Effect s event s')
    (kept : Kept s event.thread s' values') (notPinning : ¬ Pins s event) : Unpinned s' := by
  intro a live
  rcases effect.mem_heap.mp live with ⟨before, _⟩ | created
  · rcases unpinned a before with reaches | direct
    · rcases inv.reaches effect kept reaches with reaches' | unlinked
      · exact .inl reaches'
      · generalize event.thread = t at unlinked
        subst unlinked
        cases effect
        exact .inr (.inl ⟨t, by simp [Thread.refs]⟩)
    · rcases inv.direct effect kept direct with reaches' | direct' | ⟨destroyed, released⟩
      · exact .inl reaches'
      · exact .inr direct'
      -- the last case gives up a reference to `a`: what else does not pin it covers it
      · generalize event.thread = t at released
        subst released
        cases effect with
        | @released _ _ rest _ heap waiting effect =>
            by_contra uncovered
            rw [not_or] at uncovered
            have notRoot : a ∉ (s.put t { s.threads t with drops := rest } heap s.head).roots :=
              fun root => (covered_of_root root).elim uncovered.1 uncovered.2
            refine notPinning ⟨fun reaches => ?_, ?_, ?_, fun u n isPrivate link => ?_⟩
            · rcases inv.reaches (.released waiting effect) kept reaches with reaches' | unlinked
              · exact uncovered.1 reaches'
              · cases unlinked
            · rcases kept.inv.exact.referenced live with root | ⟨x, link⟩
              · exact absurd root notRoot
              · exact ⟨x, effect.next_sub link⟩
            · rw [roots_drop heap waiting, Multiset.count_cons_self,
                Multiset.count_eq_zero.mpr notRoot]
            · exact uncovered.2 (inv.link (.released waiting effect) kept isPrivate link)
  · cases effect with
    | @made t data n =>
        obtain rfl : n = a := by simpa [Event.created] using created
        exact .inr (.inl ⟨t, by simp [Thread.refs]⟩)
    | _ => cases created

/-- A step that pins leaves a node pinned. -/
theorem Inv.pinned (inv : Inv s values) (effect : Effect s event s')
    (kept : Kept s event.thread s' values') (pins : Pins s event) : ¬ Unpinned s' := by
  cases effect with
  | @released t a rest destroyed heap waiting effect =>
      obtain ⟨notReached, ⟨b, link⟩, once, notPrivate⟩ := pins
      have counted := inv.exact.counted a
      have linked := Heap.inRefs_pos link
      have shared := effect.shared (by omega)
      subst shared
      have notRoot : a ∉ (s.put t { s.threads t with drops := rest } heap s.head).roots := by
        rw [roots_drop heap waiting, Multiset.count_cons_self] at once
        exact Multiset.count_eq_zero.mp (by omega)
      intro unpinned
      rcases unpinned a (by rw [put_heap, Heap.mem_iff_view, effect.kept a (by simp)]; exact
        Heap.mem_iff_view.mp (inv.exact.live_of_next link)) with reaches | ⟨u, held⟩ |
          ⟨u, n, isPrivate, link'⟩
      · rcases kept.reached (.released waiting effect) reaches with before | published
        · exact notReached before
        · cases published
      · exact notRoot (mem_roots_of_refs held)
      · rcases Effect.private (.released waiting effect) u isPrivate with before | created
        · exact notPrivate u n before (effect.next_sub link')
        · cases created
  | _ => exact pins.elim

/-! ### `~stack` -/

/-- The positions of `~stack` while `head` does not change under it. -/
def Pc.Undisturbed (head : Option Addr) : Pc T → Prop
  | .make _ | .load _ _ | .assign _ _ _ | .publish _ _ => False
  | .test (some oldHead) | .exchange oldHead _ => head = some oldHead
  | _ => True

/-- `~stack` is alone, and refers to one unlinked node at most. -/
structure Alone (t : Tid) (s : State Tid T) : Prop extends Destroying t s where
  position : (s.threads t).pc.Undisturbed s.head
  lost : ∀ a ∈ (s.threads t).refs, ∀ b ∈ (s.threads t).refs, ¬ Reaches s.heap.next s.head a →
    ¬ Reaches s.heap.next s.head b → a = b

omit [DecidableEq Tid] [Fintype Tid] in
/-- When all references of `~stack` are reached, it refers to no unlinked node. -/
theorem lost_of_reached {t : Tid}
    (reached : ∀ a ∈ (s.threads t).refs, Reaches s.heap.next s.head a) :
    ∀ a ∈ (s.threads t).refs, ∀ b ∈ (s.threads t).refs, ¬ Reaches s.heap.next s.head a →
      ¬ Reaches s.heap.next s.head b → a = b :=
  fun a member _ _ notReached => absurd (reached a member) notReached

omit [DecidableEq Tid] [Fintype Tid] in
/-- When `~stack` refers to one node only, it refers to one unlinked node at most. -/
theorem lost_of_single {t : Tid} (single : ∀ b ∈ (s.threads t).refs, b = a) :
    ∀ a ∈ (s.threads t).refs, ∀ b ∈ (s.threads t).refs, ¬ Reaches s.heap.next s.head a →
      ¬ Reaches s.heap.next s.head b → a = b :=
  fun x first y second _ _ => (single x first).trans (single y second).symm

/-- `~stack` stays alone. -/
theorem Alone.step {t : Tid} (alone : Alone t s) (inv : Inv s values) (effect : Effect s event s')
    (kept : Kept s event.thread s' values') : Alone t s' := by
  have destroying := alone.toDestroying.step effect
  have own_ : event.thread = t := by
    by_contra other
    have idle := alone.others _ other
    cases effect <;> simp_all [Event.thread]
  have same : ∀ {heap : Heap Addr (Option T)}, (∀ b, heap.view b = s.heap.view b) →
      heap.next = s.heap.next := fun views => by
    rw [Heap.next_eq_bind, Heap.next_eq_bind, funext views]
  have fromHead : ∀ {a}, a ∈ own s.head → Reaches s.heap.next s.head a := fun {a} member => by
    have top : s.head = some a := by simpa [own, eq_comm] using member
    rw [top]
    exact .here
  have calls := alone.calls
  have position := alone.position
  subst own_
  cases effect with
  | called ready pc next =>
      rw [Event.thread, next] at calls
      cases calls
  | made ready pc | makeFailed ready pc | loadedPush ready pc | assigned ready pc
  | published ready pc | pushFailed ready pc =>
      rw [Event.thread, pc] at position
      exact position.elim
  | @loadedPop t heap ready pc views =>
      refine ⟨destroying, ?_, lost_of_reached fun a member => ?_⟩
      · cases top : s.head <;> simp [Event.thread, Pc.Undisturbed]
      · simp only [Event.thread, put_threads_self, Thread.refs, refs_test, ready, Multiset.coe_nil,
          add_zero] at member
        simpa [same views] using fromHead member
  | @loadedScan t heap ready pc views =>
      refine ⟨destroying, ?_, lost_of_reached fun a member => ?_⟩
      · rcases Option.eq_none_or_eq_some s.head with top | ⟨b, top⟩ <;>
          simp [Event.thread, top, Pc.Undisturbed]
      · have loaded : a ∈ own s.head := by
          rw [Event.thread, put_threads_self, Thread.refs] at member
          cases top : s.head <;> simp_all [own]
        simpa [same views] using fromHead loaded
  | @readNext t n content next heap ready pc found views =>
      rw [Event.thread, pc] at position
      have top : s.head = some n := position
      refine ⟨destroying, by simpa [Event.thread, Pc.Undisturbed] using top,
        lost_of_reached fun a member => ?_⟩
      simp only [Event.thread, put_threads_self, Thread.refs, refs_exchange, ready,
        Multiset.coe_nil, add_zero, Multiset.mem_add, Multiset.mem_singleton] at member
      rw [put_head, put_heap, same views, top]
      rcases member with rfl | link
      · exact .here
      · refine .there ?_
        have first : next = some a := by simpa [own, eq_comm] using link
        rw [Heap.next_eq_view, found, first]
        exact .here
  | @unlinked t n next ready pc top =>
      exact ⟨destroying, by simp [Event.thread, Pc.Undisturbed],
        lost_of_single (a := n) fun b member => by simpa [Event.thread, Thread.refs] using member⟩
  | @popFailed t n next heap spurious ready pc views flag =>
      rw [Event.thread, pc] at position
      have top : s.head = some n := position
      have holds := inv.holds t
      rw [pc] at holds
      obtain ⟨content, found⟩ := holds
      refine ⟨destroying, ?_, lost_of_reached fun a member => ?_⟩
      · simp [Event.thread, top, Pc.Undisturbed]
      · rw [put_head, put_heap, same views, top]
        have cases_ : a = n ∨ next = some a := by
          simp only [Event.thread, put_threads_self, Thread.refs, refs_test, top] at member
          simpa [own, eq_comm] using member
        rcases cases_ with rfl | first
        · exact .here
        · refine .there ?_
          rw [Heap.next_eq_view, found, first]
          exact .here
  | @moved t n _ _ _ ready | @moveFailed t n ready | @resultMoved t n _ ready
  | @resultMoveFailed t n _ ready =>
      exact ⟨destroying, by simp [Event.thread, Pc.Undisturbed], lost_of_single (a := n)
        fun b member => by simpa [Event.thread, Thread.refs, ready] using member⟩
  | @released t n rest destroyed heap waiting effect =>
      have fewer : ∀ a ∈ ((s.put t { s.threads t with drops := rest } heap s.head).threads t).refs,
          a ∈ (s.threads t).refs := fun a member => by
        rw [put_threads_self, Thread.refs] at member
        rw [Thread.refs, waiting, ← Multiset.cons_coe, Multiset.add_cons]
        exact Multiset.mem_cons_of_mem member
      have stays : ∀ a, Reaches s.heap.next s.head a → Reaches heap.next s.head a :=
        fun a reaches =>
          (inv.reaches (.released waiting effect) kept reaches).resolve_right (by simp)
      refine ⟨destroying, by simpa [Event.thread] using position, fun a first b second => ?_⟩
      intro notA notB
      exact alone.lost a (fewer a first) b (fewer b second) (fun reaches => notA (stays a reaches))
        fun reaches => notB (stays b reaches)
  | foundEmpty ready pc | returned ready pc | popped ready pc | terminated ready pc =>
      exact ⟨destroying, by simp [Event.thread, Pc.Undisturbed], lost_of_reached fun a member => by
        simp [Event.thread, Thread.refs, ready] at member⟩

/-- `~stack` pins nothing. -/
theorem Alone.not_pins {t : Tid} (alone : Alone t s) (inv : Inv s values) (unpinned : Unpinned s)
    (effect : Effect s event s') : ¬ Pins s event := by
  have idle : ∀ u, u ≠ t → (s.threads u).refs = 0 ∧ (s.threads u).pc.private = none := by
    intro u other
    rw [alone.others u other]
    exact ⟨rfl, rfl⟩
  have notPushing : (s.threads t).pc.private = none := by
    have position := alone.position
    cases pc : (s.threads t).pc <;> simp_all [Pc.private, Pc.Undisturbed]
  cases effect with
  | @released u a rest destroyed heap waiting effect =>
      rintro ⟨notReached, ⟨b, link⟩, -, -⟩
      have mine : u = t := by
        by_contra other
        simp [alone.others u other] at waiting
      subst mine
      have held : a ∈ (s.threads u).refs := by simp [Thread.refs, waiting]
      rcases unpinned b (Heap.mem_of_next link) with reaches | ⟨v, heldB⟩ | ⟨v, n, isPrivate, _⟩
      · exact notReached (reaches.snoc link)
      · obtain rfl : v = u := by
          by_contra other
          simp [(idle v other).1] at heldB
        have same := alone.lost a held b heldB notReached fun reaches =>
          notReached (reaches.snoc link)
        subst same
        exact inv.acyclic a (.single link)
      · by_cases other : v = u
        · rw [other, notPushing] at isPrivate
          cases isPrivate
        · rw [(idle v other).2] at isPrivate
          cases isPrivate
  | _ => exact fun pins => pins

/-! ### Runs -/

/-- Every run of `~stack` keeps every state without pinned nodes, and every
release destroys one node at most. -/
theorem unpinned_of_destruction {throws : Throws} {t : Tid} {events : List (Event Tid T)}
    (inv : Inv s values) (quiescent : s.Quiescent)
    (run : (machine throws).Steps (s.destroy t) events s') :
    (Unpinned s' ∧ Alone t s') ∧ ∀ event ∈ events, event.destroyed.length ≤ 1 := by
  have inv₀ := inv.destroy quiescent t
  induction run with
  | refl =>
      refine ⟨⟨fun a live => .inl ((inv.live_iff_reached quiescent).mp live),
        destroying_destroy s t, ?_, lost_of_reached fun a member => ?_⟩, by simp⟩
      · simp [State.destroy, Pc.Undisturbed]
      · simp [State.destroy, Thread.refs] at member
  | step prior transition _ inductionHypothesis =>
      obtain ⟨⟨unpinned, alone⟩, single⟩ := inductionHypothesis
      obtain ⟨⟨values, inv⟩, _⟩ := inv₀.steps prior
      obtain ⟨values', effect, _, _, kept⟩ := inv.step transition
      refine ⟨⟨inv.unpinned unpinned effect kept (alone.not_pins inv unpinned effect),
        alone.step inv effect kept⟩, fun event member => ?_⟩
      rcases List.mem_append.mp member with earlier | last
      · exact single event earlier
      · rw [List.mem_singleton.mp last]
        exact inv.single unpinned effect

/-- One thread pushes two values and pops them, another pushes a third. -/
def cascading : Fin 2 → List (Call Nat)
  | 0 => [.push 1, .push 2, .pop, .pop]
  | 1 => [.push 3]

/-- A condition that can be tested: a node that is released is one of the first two
of the list, or is covered without it. -/
def Harmless (s : State Tid T) : Event Tid T → Prop
  | .released _ a _ =>
      s.head = some a ∨ s.head.bind s.heap.next = some a ∨
        ¬ ((∃ b ∈ s.heap.keys, s.heap.next b = some a) ∧ s.roots.count a = 1 ∧
          ∀ t, (s.threads t).pc.private.bind s.heap.next ≠ some a)
  | _ => True

instance (s : State Tid T) (event : Event Tid T) : Decidable (Harmless s event) :=
  match event with
  | .released _ _ _ => inferInstanceAs (Decidable (_ ∨ _ ∨ ¬ (_ ∧ _ ∧ _)))
  | .called _ _ | .made _ _ | .makeFailed _ | .loaded _ _ | .assigned _ _ | .published _ _
  | .readNext _ _ | .foundEmpty _ | .unlinked _ _ | .exchangeFailed _ _ | .moved _ _
  | .moveFailed _ _ | .resultMoved _ _ | .resultMoveFailed _ _ | .returned _ _ | .popped _
  | .faulted _ => .isTrue trivial

omit [DecidableEq Tid] in
/-- A step that meets the condition does not pin. -/
theorem Harmless.not_pins (harmless : Harmless s event) : ¬ Pins s event := by
  cases event with
  | released t a destroyed =>
      rintro ⟨notReached, ⟨b, link⟩, once, notPrivate⟩
      rcases harmless with first | second | covered
      · exact notReached (first ▸ .here)
      · obtain ⟨x, first, link⟩ := Option.bind_eq_some_iff.mp second
        refine notReached (first ▸ .there ?_)
        rw [link]
        exact .here
      · refine covered ⟨⟨b, Finmap.mem_keys.mpr (Heap.mem_of_next link), link⟩, once, ?_⟩
        intro u linked
        obtain ⟨n, isPrivate, linked⟩ := Option.bind_eq_some_iff.mp linked
        exact notPrivate u n isPrivate linked
  | _ => exact id

end LockFree.Aba.Fixed
