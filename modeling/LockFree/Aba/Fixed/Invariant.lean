import LockFree.Aba.Fixed.Effects

/-!
# The invariant of the reference-counted stack

A node is private to a `push` until its compare-exchange succeeds: nothing else
refers to it. A node held by a `pop` is not private to anyone, so its successor
no longer changes, and a node that has been unlinked does not come back. `Inv`
joins these facts with the exact counts, the acyclic links and the list of
stored values, and every step keeps it.
-/

namespace LockFree.Aba.Fixed

open Memory

variable {Tid T : Type}

/-- Only thread `t` refers to `n`. -/
structure Private (s : State Tid T) (t : Tid) (n : Addr) : Prop where
  notHead : s.head ≠ some n
  notLinked : ∀ a, s.heap.next a ≠ some n
  notShared : ∀ u, u ≠ t → n ∉ (s.threads u).refs

/-- The stack has lost `a`, and no thread but `t` is going to move its data. -/
structure Unlinked (s : State Tid T) (t : Tid) (a : Addr) : Prop where
  notReached : ¬ Reaches s.heap.next s.head a
  notMoving : ∀ u, u ≠ t → (s.threads u).pc ≠ .move a

/-- What thread `t` may rely on at a position. -/
def Holds (s : State Tid T) (t : Tid) : Pc T → Prop
  | .load data n => Private s t n ∧ s.heap.view n = some (some data, none)
  | .assign data n loaded =>
      Private s t n ∧ s.heap.view n = some (some data, none) ∧ loaded ≠ some n
  | .publish data n => Private s t n ∧ ∃ link, s.heap.view n = some (some data, link)
  | .exchange a next => ∃ content, s.heap.view a = some (content, next)
  | .move a => Unlinked s t a ∧ ∃ data link, s.heap.view a = some (some data, link)
  | _ => True

/-- The values stored in the stack, top first. None of them has been moved out. -/
def Stores (s : State Tid T) (values : List T) : Prop :=
  Lists s.heap.view s.head (values.map some)

/-- How a step changes the stored values: a successful compare-exchange does. -/
inductive Change (s : State Tid T) : Event Tid T → List T → List T → Prop where
  | published {t data n values} (pc : (s.threads t).pc = .publish data n) :
      Change s (.published t n) values (data :: values)
  | unlinked {t a data link values} (found : s.heap.view a = some (some data, link)) :
      Change s (.unlinked t a) (data :: values) values
  | kept {event values} (notPublished : ∀ t n, event ≠ .published t n)
      (notUnlinked : ∀ t a, event ≠ .unlinked t a) : Change s event values values

/-- The invariant of all runs, for a state in which the stack stores `values`. -/
structure Inv [Fintype Tid] (s : State Tid T) (values : List T) : Prop where
  safe : s.fault = false
  exact : s.heap.Exact s.roots
  acyclic : Acyclic s.heap.next
  stores : Stores s values
  holds : ∀ t, Holds s t (s.threads t).pc

/-- Where a reference of thread `t` can come from: it held one, or `head` or a
node did. -/
def Sourced (s : State Tid T) (t : Tid) (a : Addr) : Prop :=
  a ∈ (s.threads t).refs ∨ s.head = some a ∨ ∃ b, s.heap.next b = some a

/-- What a step of thread `t` leaves to the other threads. -/
structure Frame (s : State Tid T) (t : Tid) (s' : State Tid T) : Prop where
  others : ∀ u, u ≠ t → s'.threads u = s.threads u
  refs : ∀ a ∈ (s'.threads t).refs, Sourced s t a ∨ a ∉ s.heap
  head : ∀ a, s'.head = some a → Sourced s t a
  links : ∀ a b, s'.heap.next a = some b → Sourced s t b
  views : ∀ u, u ≠ t → ∀ a ∈ (s.threads u).refs, s'.heap.view a = s.heap.view a ∨
    (s.threads t).pc = .move a ∧ s'.heap.next a = s.heap.next a ∧ (s'.heap.view a).isSome
  moves : ∀ a, (s'.threads t).pc = .move a → (s.threads t).pc = .move a ∨ s.head = some a
  reached : ∀ a, Reaches s'.heap.next s'.head a → Reaches s.heap.next s.head a ∨
    Private s t a ∧ ∃ data, (s.threads t).pc = .publish data a ∧ (s'.threads t).pc = .leave .done

variable {s s' : State Tid T} {t u : Tid} {n a : Addr} {values values' : List T}

/-- `head` does not lead to a private node. -/
theorem Private.not_reached (private_ : Private s t n) : ¬ Reaches s.heap.next s.head n := by
  intro reaches
  rcases reaches.pointer_or_pred with top | ⟨b, _, link⟩
  · exact private_.notHead top
  · exact private_.notLinked b link

/-- Nothing comes from a private node of another thread. -/
theorem Private.not_sourced (private_ : Private s u n) (other : u ≠ t) : ¬ Sourced s t n := by
  rintro (held | top | ⟨b, link⟩)
  · exact private_.notShared t (Ne.symm other) held
  · exact private_.notHead top
  · exact private_.notLinked b link

/-- The private nodes of the other threads stay private. -/
theorem Frame.private (frame : Frame s t s') (other : u ≠ t) (private_ : Private s u n)
    (live : n ∈ s.heap) : Private s' u n where
  notHead top := private_.not_sourced other (frame.head n top)
  notLinked a link := private_.not_sourced other (frame.links a n link)
  notShared v different held := by
    by_cases stepped : v = t
    · subst stepped
      rcases frame.refs n held with sourced | dead
      · exact private_.not_sourced other sourced
      · exact dead live
    · rw [frame.others v stepped] at held
      exact private_.notShared v different held

/-- What the other threads rely on is kept. -/
theorem Frame.holds (frame : Frame s t s') (other : u ≠ t)
    (holds : Holds s u (s.threads u).pc) : Holds s' u (s'.threads u).pc := by
  rw [frame.others u other]
  have held : ∀ {a}, a ∈ (s.threads u).pc.refs → a ∈ (s.threads u).refs := fun member =>
    Multiset.mem_add.mpr (.inl member)
  -- the node of a `push` is not the one whose data `t` moves
  have kept : ∀ {n}, Private s u n → n ∈ (s.threads u).refs → s'.heap.view n = s.heap.view n := by
    intro n private_ member
    rcases frame.views u other n member with same | ⟨moving, _⟩
    · exact same
    · exact absurd (show n ∈ (s.threads t).refs by simp [Thread.refs, moving])
        (private_.notShared t (Ne.symm other))
  cases pc : (s.threads u).pc with
  | load data n =>
      rw [pc] at holds held
      obtain ⟨private_, found⟩ := holds
      have member := held (a := n) (by simp)
      exact ⟨frame.private other private_ (Heap.mem_iff_view.mpr (by simp [found])),
        (kept private_ member).trans found⟩
  | assign data n loaded =>
      rw [pc] at holds held
      obtain ⟨private_, found, different⟩ := holds
      have member := held (a := n) (by simp)
      exact ⟨frame.private other private_ (Heap.mem_iff_view.mpr (by simp [found])),
        (kept private_ member).trans found, different⟩
  | publish data n =>
      rw [pc] at holds held
      obtain ⟨private_, link, found⟩ := holds
      have member := held (a := n) (by simp)
      exact ⟨frame.private other private_ (Heap.mem_iff_view.mpr (by simp [found])),
        link, (kept private_ member).trans found⟩
  | exchange a next =>
      rw [pc] at holds held
      obtain ⟨content, found⟩ := holds
      rcases frame.views u other a (held (by simp)) with same | ⟨_, link, present⟩
      · exact ⟨content, same.trans found⟩
      · obtain ⟨⟨content', next'⟩, found'⟩ := Option.isSome_iff_exists.mp present
        rw [Heap.next_eq_view, Heap.next_eq_view, found, found'] at link
        have link : next' = next := link
        exact ⟨content', link ▸ found'⟩
  | move a =>
      rw [pc] at holds held
      obtain ⟨unlinked, data, link, found⟩ := holds
      have member := held (a := a) (by simp)
      refine ⟨⟨fun reaches => ?_, fun v different moving => ?_⟩, data, link, ?_⟩
      · rcases frame.reached a reaches with before | ⟨private_, _⟩
        · exact unlinked.notReached before
        · exact private_.notShared u other member
      · by_cases stepped : v = t
        · subst stepped
          rcases frame.moves a moving with before | top
          · exact unlinked.notMoving v different before
          · exact unlinked.notReached (top ▸ .here)
        · rw [frame.others v stepped] at moving
          exact unlinked.notMoving v different moving
      · rcases frame.views u other a member with same | ⟨moving, _⟩
        · exact same.trans found
        · exact absurd moving (unlinked.notMoving t (Ne.symm other))
  | _ => trivial

/-- A step of `t` has kept the invariant, and the other threads see its frame. -/
structure Kept [Fintype Tid] (s : State Tid T) (t : Tid) (s' : State Tid T)
    (values' : List T) : Prop where
  frame : Frame s t s'
  inv : Inv s' values'

/-- The invariant after a step of `t`, from what the step says about `t` itself. -/
theorem Inv.of_frame [Fintype Tid] (inv : Inv s values) (frame : Frame s t s')
    (safe : s'.fault = s.fault) (exact' : s'.heap.Exact s'.roots) (acyclic : Acyclic s'.heap.next)
    (stores : Stores s' values') (holds : Holds s' t (s'.threads t).pc) :
    Kept s t s' values' where
  frame := frame
  inv :=
    { safe := safe.trans inv.safe
      exact := exact'
      acyclic := acyclic
      stores := stores
      holds := fun u => by
        by_cases stepped : u = t
        · exact stepped ▸ holds
        · exact frame.holds stepped (inv.holds u) }

/-- References a thread keeps are its own. -/
theorem sourced_of_refs {thread : Thread T} (same : thread.refs ≤ (s.threads t).refs) :
    ∀ a ∈ thread.refs, Sourced s t a :=
  fun _ member => .inl (Multiset.mem_of_le same member)

/-- A thread that has loaded `head` holds what it held before, and `head`. -/
theorem sourced_of_head {thread : Thread T}
    (same : thread.refs ≤ own s.head + (s.threads t).refs) :
    ∀ a ∈ thread.refs, Sourced s t a := by
  intro a member
  rcases Multiset.mem_add.mp (Multiset.mem_of_le same member) with loaded | held
  · cases top : s.head with
    | none => simp [top] at loaded
    | some b =>
        rw [top, own_some, Multiset.mem_singleton] at loaded
        exact .inr (.inl (loaded ▸ top))
  · exact .inl held

/-- What `step_effect` needs to know about a thread that moves data out. -/
theorem Inv.full [Fintype Tid] (inv : Inv s values) (t : Tid) (a : Addr)
    (pc : (s.threads t).pc = .move a) :
    ∃ data link, s.heap.view a = some (some data, link) := by
  have holds := inv.holds t
  rw [pc] at holds
  exact holds.2

/-! ### The steps -/

variable [DecidableEq Tid]

/-- What a thread holds privately stays so as long as it gives it to nobody. -/
theorem Private.put (private_ : Private s t n) {thread : Thread T} {heap : Heap Addr (Option T)}
    {head : Option Addr} (notHead : head ≠ some n) (notLinked : ∀ a, heap.next a ≠ some n) :
    Private (s.put t thread heap head) t n where
  notHead := notHead
  notLinked := notLinked
  notShared u other := by
    rw [put_threads_other s other]
    exact private_.notShared u other

/-- A step that only reads the heap and keeps `head`. -/
theorem Frame.quiet {thread : Thread T} {heap : Heap Addr (Option T)}
    (views : ∀ b, heap.view b = s.heap.view b) (refs : ∀ a ∈ thread.refs, Sourced s t a)
    (moves : ∀ a, thread.pc = .move a → (s.threads t).pc = .move a) :
    Frame s t (s.put t thread heap s.head) := by
  have same : heap.next = s.heap.next := by
    rw [Heap.next_eq_bind, Heap.next_eq_bind, funext views]
  exact {
    others := fun u other => put_threads_other s other thread heap s.head
    refs := fun a held => .inl (refs a (by simpa using held))
    head := fun a top => .inr (.inl top)
    links := fun a b link => .inr (.inr ⟨a, by rw [← same]; exact link⟩)
    views := fun u _ a _ => .inl (views a)
    moves := fun a moving => .inl (moves a (by simpa using moving))
    reached := fun a reaches => .inl (by simpa [same] using reaches) }

/-- The invariant after a step that only reads the heap and keeps `head`. -/
theorem Inv.quiet [Fintype Tid] (inv : Inv s values) {thread : Thread T}
    {heap : Heap Addr (Option T)}
    (views : ∀ b, heap.view b = s.heap.view b) (refs : ∀ a ∈ thread.refs, Sourced s t a)
    (moves : ∀ a, thread.pc = .move a → (s.threads t).pc = .move a)
    (exact' : heap.Exact (s.put t thread heap s.head).roots)
    (holds : Holds (s.put t thread heap s.head) t thread.pc) :
    Kept s t (s.put t thread heap s.head) values := by
  have same : heap.view = s.heap.view := funext views
  refine inv.of_frame (.quiet views refs moves) rfl exact' ?_ ?_ (by simpa using holds)
  · rw [put_heap, Heap.next_eq_bind, same, ← Heap.next_eq_bind]
    exact inv.acyclic
  · rw [Stores, put_heap, put_head, same]
    exact inv.stores

section Steps

variable [Fintype Tid] {data : T} {heap : Heap Addr (Option T)} {thread : Thread T}

/-- `make_shared` gives the thread a private node. -/
theorem Inv.made (inv : Inv s values) (ready : (s.threads t).drops = []) (fresh : n ∉ s.heap)
    (exact' : (s.heap.create n (some data)).Exact (s.put t { s.threads t with pc := .load data n }
      (s.heap.create n (some data)) s.head).roots) :
    Kept s t (s.put t { s.threads t with pc := .load data n } (s.heap.create n (some data)) s.head)
      values := by
  have views : ∀ b, (s.heap.create n (some data)).view b =
      if b = n then some (some data, none) else s.heap.view b := Heap.view_insert n _
  have unlinked : s.heap.next n = none := by
    rw [Heap.next_eq_view, Option.not_isSome_iff_eq_none.mp (Heap.mem_iff_view.not.mp fresh)]
    rfl
  have links : (s.heap.create n (some data)).next = s.heap.next := by
    funext b
    rw [Heap.next_eq_view, views]
    by_cases same : b = n
    · rw [if_pos same, same, unlinked]
      rfl
    · rw [if_neg same, Heap.next_eq_view]
  have dead : ∀ a, a ∈ s.heap → a ≠ n := fun a live same => fresh (same ▸ live)
  refine inv.of_frame (t := t) ?_ rfl exact' ?_ ?_ ?_
  · exact {
      others := fun u other => put_threads_other s other _ _ _
      refs := fun a held => by
        have same : a = n := by simpa [Thread.refs, ready] using held
        exact .inr (same ▸ fresh)
      head := fun a top => .inr (.inl top)
      links := fun a b link => .inr (.inr ⟨a, by rw [← links]; exact link⟩)
      views := fun u _ a held => .inl (by
        rw [put_heap, views, if_neg]
        exact dead a (inv.exact.live_of_root (mem_roots_of_refs held)))
      moves := fun a moving => by simp at moving
      reached := fun a reaches => .inl (by simpa [links] using reaches) }
  · rw [put_heap, links]
    exact inv.acyclic
  · refine inv.stores.congr fun a reaches => ?_
    obtain ⟨data', link', found, _⟩ := inv.stores.found reaches
    rw [put_heap, views, if_neg (dead a (Heap.mem_iff_view.mpr (by simp [found])))]
  · rw [put_threads_self]
    refine ⟨⟨fun top => ?_, fun a link => ?_, fun u other held => ?_⟩, ?_⟩
    · exact fresh (inv.exact.live_of_root (mem_roots_of_head top))
    · rw [put_heap, links] at link
      exact fresh (inv.exact.live_of_next link)
    · rw [put_threads_other s other] at held
      exact fresh (inv.exact.live_of_root (mem_roots_of_refs held))
    · rw [put_heap, views, if_pos rfl]

/-- A thread writes the successor of its private node: a pointer it loaded, or
the value of `head`. -/
theorem Inv.linked (inv : Inv s values) {target : Option Addr} (private_ : Private s t n)
    (views : ∀ b, heap.view b = if b = n then some (some data, target) else s.heap.view b)
    (different : target ≠ some n) (source : ∀ b, target = some b → Sourced s t b)
    (refs : ∀ a ∈ thread.refs, Sourced s t a) (pc : thread.pc = .publish data n)
    (exact' : heap.Exact (s.put t thread heap s.head).roots) :
    Kept s t (s.put t thread heap s.head) values := by
  have links : ∀ b, heap.next b = if b = n then target else s.heap.next b := by
    intro b
    rw [Heap.next_eq_view, views]
    by_cases same : b = n
    · rw [if_pos same, if_pos same]
      rfl
    · rw [if_neg same, if_neg same, Heap.next_eq_view]
  have unreferenced : ∀ a, heap.next a ≠ some n := by
    intro a link
    rw [links] at link
    by_cases same : a = n
    · rw [if_pos same] at link
      exact different link
    · rw [if_neg same] at link
      exact private_.notLinked a link
  -- no way from `head` passes `n`
  have apart : ∀ {pointer a}, Reaches heap.next pointer a → pointer ≠ some n → a ≠ n ∧
      Reaches s.heap.next pointer a := by
    intro pointer a reaches
    induction reaches with
    | here => exact fun other => ⟨fun same => other (congrArg some same), .here⟩
    | @there x y _ inductionHypothesis =>
        intro other
        obtain ⟨apart, before⟩ := inductionHypothesis (unreferenced x)
        refine ⟨apart, .there ?_⟩
        rw [links, if_neg fun same => other (congrArg some same)] at before
        exact before
  refine inv.of_frame (t := t) ?_ rfl exact' ?_ ?_ ?_
  · exact {
      others := fun u other => put_threads_other s other _ _ _
      refs := fun a held => .inl (refs a (by simpa using held))
      head := fun a top => .inr (.inl top)
      links := fun a b link => by
        rw [put_heap, links] at link
        by_cases same : a = n
        · rw [if_pos same] at link
          exact source b link
        · rw [if_neg same] at link
          exact .inr (.inr ⟨a, link⟩)
      views := fun u other a held => .inl (by
        rw [put_heap, views, if_neg]
        exact fun same => private_.notShared u other (same ▸ held))
      moves := fun a moving => by simp [pc] at moving
      reached := fun a reaches => .inl (apart reaches private_.notHead).2 }
  · exact inv.acyclic.set (fun a other => by rw [put_heap, links, if_neg other]) unreferenced
  · refine inv.stores.congr fun a reaches => ?_
    rw [← Heap.next_eq_bind] at reaches
    rw [put_heap, views, if_neg]
    exact fun same => private_.not_reached (same ▸ reaches)
  · rw [put_threads_self, pc]
    exact ⟨private_.put private_.notHead unreferenced, target, by rw [put_heap, views, if_pos rfl]⟩

/-- A successful push makes its private node the first one. -/
theorem Inv.published (inv : Inv s values) (private_ : Private s t n)
    (found : s.heap.view n = some (some data, s.head))
    (views : ∀ b, heap.view b = s.heap.view b) (before : (s.threads t).pc = .publish data n)
    (refs : ∀ a ∈ thread.refs, Sourced s t a) (pc : thread.pc = .leave .done)
    (exact' : heap.Exact (s.put t thread heap (some n)).roots) :
    Kept s t (s.put t thread heap (some n)) (data :: values) := by
  have sameView : heap.view = s.heap.view := funext views
  have sameNext : heap.next = s.heap.next := by
    rw [Heap.next_eq_bind, sameView, ← Heap.next_eq_bind]
  have link : s.heap.next n = s.head := by
    rw [Heap.next_eq_view, found]
    rfl
  refine inv.of_frame (t := t) ?_ rfl exact' ?_ ?_ ?_
  · exact {
      others := fun u other => put_threads_other s other _ _ _
      refs := fun a held => .inl (refs a (by simpa using held))
      head := fun a top => by
        rw [put_head, Option.some.injEq] at top
        exact .inl (by simp [Thread.refs, before, top])
      links := fun a b link => .inr (.inr ⟨a, by rw [← sameNext]; exact link⟩)
      views := fun u other a held => .inl (views a)
      moves := fun a moving => by simp [pc] at moving
      reached := fun a reaches => by
        rw [put_head, put_heap, sameNext] at reaches
        cases reaches with
        | here => exact .inr ⟨private_, data, before, by rw [put_threads_self, pc]⟩
        | there rest =>
            rw [link] at rest
            exact .inl rest }
  · rw [put_heap, sameNext]
    exact inv.acyclic
  · rw [Stores, put_heap, put_head, sameView]
    exact .cons found inv.stores
  · rw [put_threads_self, pc]
    trivial

/-- A successful pop makes the successor it read the first node. -/
theorem Inv.unlinked (inv : Inv s values) {next : Option Addr}
    (pc : (s.threads t).pc = .exchange a next)
    (top : s.head = some a)
    (exact' : s.heap.Exact (s.put t { s.threads t with pc := .move a, drops := [a] } s.heap
      next).roots) :
    ∃ data rest, values = data :: rest ∧ s.heap.view a = some (some data, next) ∧
      Kept s t (s.put t { s.threads t with pc := .move a, drops := [a] } s.heap next) rest := by
  obtain ⟨content, found⟩ : ∃ content, s.heap.view a = some (content, next) := by
    have holds := inv.holds t
    rw [pc] at holds
    exact holds
  have stores := inv.stores
  rw [Stores, top] at stores
  obtain ⟨data, rest, rfl, sameContent, stores'⟩ : ∃ data rest, values = data :: rest ∧
      content = some data ∧ Lists s.heap.view next (rest.map some) := by
    cases values with
    | nil => cases stores
    | cons data rest =>
        cases stores with
        | cons found' tail =>
            rw [found] at found'
            cases found'
            exact ⟨data, rest, rfl, rfl, tail⟩
  have link : s.heap.next a = next := by
    rw [Heap.next_eq_view, found]
    rfl
  have held : a ∈ (s.threads t).refs := by simp [Thread.refs, pc]
  refine ⟨data, rest, rfl, sameContent ▸ found,
    inv.of_frame (t := t) ?_ rfl exact' inv.acyclic stores' ?_⟩
  · exact {
      others := fun u other => put_threads_other s other _ _ _
      refs := fun b member => by
        have same : b = a := by simpa [Thread.refs] using member
        exact .inl (.inl (same ▸ held))
      head := fun b top' => .inr (.inr ⟨a, link.trans top'⟩)
      links := fun x b link => .inr (.inr ⟨x, link⟩)
      views := fun u other b held => .inl rfl
      moves := fun b moving => by
        have same : a = b := by simpa using moving
        exact .inr (same ▸ top)
      reached := fun b reaches => .inl (by
        rw [top]
        exact .there (link ▸ reaches)) }
  · rw [put_threads_self]
    refine ⟨⟨?_, fun u other moving => ?_⟩, data, next, sameContent ▸ found⟩
    · rw [put_heap, put_head, ← link]
      exact inv.acyclic.not_reaches a
    · rw [put_threads_other s other] at moving
      have holds := inv.holds u
      rw [moving] at holds
      exact holds.1.notReached (top ▸ .here)

/-- The data of an unlinked node is moved into `tmp`. -/
theorem Inv.moved (inv : Inv s values) {link : Option Addr} (pc : (s.threads t).pc = .move a)
    (found : s.heap.view a = some (some data, link))
    (views : ∀ b, heap.view b = if b = a then some (none, link) else s.heap.view b)
    (exact' : heap.Exact (s.put t
      { s.threads t with pc := .returnTmp a data } heap s.head).roots) :
    Kept s t (s.put t { s.threads t with pc := .returnTmp a data } heap s.head) values := by
  have holds := inv.holds t
  rw [pc] at holds
  obtain ⟨unlinked, _⟩ := holds
  have links : heap.next = s.heap.next := by
    funext b
    rw [Heap.next_eq_view, Heap.next_eq_view, views]
    by_cases same : b = a
    · rw [if_pos same, same, found]
      rfl
    · rw [if_neg same]
  refine inv.of_frame (t := t) ?_ rfl exact' ?_ ?_ ?_
  · exact {
      others := fun u other => put_threads_other s other _ _ _
      refs := fun b member => .inl (.inl (by
        rw [put_threads_self] at member
        rw [Thread.refs, pc, refs_move]
        exact member))
      head := fun b top => .inr (.inl top)
      links := fun x b link => .inr (.inr ⟨x, by rw [← links]; exact link⟩)
      views := fun u other b held => by
        by_cases same : b = a
        · subst same
          exact .inr ⟨pc, by rw [put_heap, links], by rw [put_heap, views, if_pos rfl]; rfl⟩
        · exact .inl (by rw [put_heap, views, if_neg same])
      moves := fun b moving => by simp at moving
      reached := fun b reaches => .inl (by simpa [links] using reaches) }
  · rw [put_heap, links]
    exact inv.acyclic
  · refine inv.stores.congr fun b reaches => ?_
    rw [← Heap.next_eq_bind] at reaches
    rw [put_heap, views, if_neg]
    rintro rfl
    exact unlinked.notReached reaches
  · rw [put_threads_self]
    trivial

/-- A thread releases a reference, which may destroy nodes. -/
theorem Inv.released (inv : Inv s values) {destroyed rest : List Addr}
    (waiting : (s.threads t).drops = a :: rest) (effect : s.heap.Released a heap destroyed)
    (exact' : heap.Exact (s.put t { s.threads t with drops := rest } heap s.head).roots) :
    Kept s t (s.put t { s.threads t with drops := rest } heap s.head) values := by
  have refs : ∀ u, ∀ b ∈ ((s.put t { s.threads t with drops := rest } heap s.head).threads u).refs,
      b ∈ (s.threads u).refs := by
    intro u b member
    by_cases same : u = t
    · subst same
      rw [put_threads_self, Thread.refs] at member
      rw [Thread.refs, waiting, ← Multiset.cons_coe, Multiset.add_cons]
      exact Multiset.mem_cons_of_mem member
    · rwa [put_threads_other s same] at member
  have kept : ∀ u, ∀ b ∈ ((s.put t { s.threads t with drops := rest } heap s.head).threads u).refs,
      heap.view b = s.heap.view b := fun u b member =>
    effect.view_of_mem (exact'.live_of_root (mem_roots_of_refs member))
  have headLive : ∀ b, s.head = some b → b ∈ heap := fun b top =>
    exact'.live_of_root (mem_roots_of_head (s := s.put t _ heap s.head) top)
  have reached : ∀ b, Reaches heap.next s.head b → Reaches s.heap.next s.head b := by
    intro b reaches
    exact reaches.mono fun x y link => effect.next_sub link
  refine inv.of_frame (t := t) ?_ rfl exact' ?_ ?_ ?_
  · exact {
      others := fun u other => put_threads_other s other _ _ _
      refs := fun b member => .inl (.inl (refs t b member))
      head := fun b top => .inr (.inl top)
      links := fun x b link => .inr (.inr ⟨x, effect.next_sub link⟩)
      views := fun u other b held => .inl (kept u b (by rwa [put_threads_other s other]))
      moves := fun b moving => .inl (by simpa using moving)
      reached := fun b reaches => .inl (reached b reaches) }
  · exact inv.acyclic.sub fun x y link => effect.next_sub link
  · exact effect.lists exact' inv.stores headLive
  · rw [put_threads_self]
    have holds := inv.holds t
    have private_ : ∀ {n}, Private s t n →
        Private (s.put t { s.threads t with drops := rest } heap s.head) t n := fun private_ =>
      private_.put private_.notHead fun x link => private_.notLinked x (effect.next_sub link)
    have same : ∀ b ∈ (s.threads t).pc.refs, heap.view b = s.heap.view b := fun b member =>
      kept t b (by rw [put_threads_self]; exact Multiset.mem_add.mpr (.inl member))
    change Holds _ t (s.threads t).pc
    cases pc : (s.threads t).pc with
    | load data n =>
        rw [pc] at holds same
        exact ⟨private_ holds.1, (same n (by simp)).trans holds.2⟩
    | assign data n loaded =>
        rw [pc] at holds same
        exact ⟨private_ holds.1, (same n (by simp)).trans holds.2.1, holds.2.2⟩
    | publish data n =>
        rw [pc] at holds same
        obtain ⟨privateNode, link, found⟩ := holds
        exact ⟨private_ privateNode, link, (same n (by simp)).trans found⟩
    | exchange b next =>
        rw [pc] at holds same
        obtain ⟨content, found⟩ := holds
        exact ⟨content, (same b (by simp)).trans found⟩
    | move b =>
        rw [pc] at holds same
        obtain ⟨unlinked, data, link, found⟩ := holds
        refine ⟨⟨fun reaches => unlinked.notReached (reached b reaches),
          fun u other moving => ?_⟩, data, link, (same b (by simp)).trans found⟩
        rw [put_threads_other s other] at moving
        exact unlinked.notMoving u other moving
    | _ => trivial

/-- Every effect keeps the invariant, for the values changed accordingly. -/
theorem Inv.effect {event : Event Tid T} (inv : Inv s values) (effect : Effect s event s')
    (exact' : s'.heap.Exact s'.roots) :
    ∃ t values', event.thread = t ∧ Change s event values values' ∧ Kept s t s' values' := by
  cases effect with
  | @called t call calls ready pc next =>
      refine ⟨t, values, rfl, .kept (by simp) (by simp), ?_⟩
      refine inv.quiet (fun _ => rfl) (sourced_of_refs ?_) ?_ exact' ?_
      · rw [Thread.refs, Thread.refs, pc, refs_entry, refs_idle]
      · cases call <;> simp [Call.entry]
      · cases call <;> trivial
  | @made t data n ready pc fresh =>
      exact ⟨t, values, rfl, .kept (by simp) (by simp), inv.made ready fresh exact'⟩
  | @makeFailed t data ready pc =>
      refine ⟨t, values, rfl, .kept (by simp) (by simp), ?_⟩
      refine inv.quiet (fun _ => rfl) (sourced_of_refs ?_) (by simp) exact' trivial
      rw [Thread.refs, Thread.refs, pc, refs_leave, refs_make]
  | @loadedPush t data n heap ready pc views =>
      have holds := inv.holds t
      rw [pc] at holds
      obtain ⟨private_, found⟩ := holds
      refine ⟨t, values, rfl, .kept (by simp) (by simp), ?_⟩
      refine inv.quiet views (sourced_of_head ?_) (by simp) exact' ⟨?_, ?_, private_.notHead⟩
      · rw [Thread.refs, Thread.refs, pc, refs_assign, refs_load, ← add_assoc, add_comm (own _)]
      · refine private_.put private_.notHead fun a => ?_
        rw [Heap.next_eq_view, views, ← Heap.next_eq_view]
        exact private_.notLinked a
      · exact (views n).trans found
  | @loadedPop t heap ready pc views =>
      refine ⟨t, values, rfl, .kept (by simp) (by simp), ?_⟩
      refine inv.quiet views (sourced_of_head ?_) (by simp) exact' trivial
      rw [Thread.refs, Thread.refs, pc, refs_test, refs_popLoad, zero_add]
  | @loadedScan t heap ready pc views =>
      refine ⟨t, values, rfl, .kept (by simp) (by simp), ?_⟩
      refine inv.quiet views (sourced_of_head ?_) ?_ exact' ?_
      · rw [Thread.refs, Thread.refs, pc, ready, refs_scan]
        cases s.head <;> simp
      · cases s.head <;> simp
      · cases s.head <;> trivial
  | @assigned t data n loaded content previous heap ready pc found views =>
      have holds := inv.holds t
      rw [pc] at holds
      obtain ⟨private_, found', different⟩ := holds
      rw [found] at found'
      cases found'
      refine ⟨t, values, rfl, .kept (by simp) (by simp), ?_⟩
      refine inv.linked private_ views different (fun b same => .inl ?_)
        (sourced_of_refs ?_) rfl exact'
      · simp [Thread.refs, pc, same]
      · rw [Thread.refs, Thread.refs, pc, ready, refs_assign, refs_publish]
        simp
  | @published t data n content heap ready pc found views =>
      have holds := inv.holds t
      rw [pc] at holds
      obtain ⟨private_, link, found'⟩ := holds
      rw [found] at found'
      cases found'
      refine ⟨t, data :: values, rfl, .published pc, ?_⟩
      refine inv.published private_ found views pc (sourced_of_head ?_) rfl exact'
      rw [Thread.refs, Thread.refs, pc, ready, refs_leave, refs_publish, zero_add,
        ← Multiset.coe_add]
      exact le_of_eq rfl
  | @pushFailed t data n content expected heap spurious ready pc found views flag =>
      have holds := inv.holds t
      rw [pc] at holds
      obtain ⟨private_, link, found'⟩ := holds
      rw [found] at found'
      cases found'
      refine ⟨t, values, rfl, .kept (by simp) (by simp), ?_⟩
      refine inv.linked private_ views private_.notHead (fun b top => .inr (.inl top))
        (fun a member => ?_) pc exact'
      rw [Thread.refs, pc, refs_publish, ← Multiset.coe_add] at member
      rcases Multiset.mem_add.mp member with own_ | dropped
      · exact .inl (by simpa [Thread.refs, pc, ready] using own_)
      · rcases Multiset.mem_add.mp dropped with old | copy
        · refine .inr (.inr ⟨n, ?_⟩)
          rw [Heap.next_eq_view, found]
          simpa [eq_comm] using old
        · exact .inl (by simpa [Thread.refs, pc, ready] using copy)
  | @foundEmpty t ready pc =>
      refine ⟨t, values, rfl, .kept (by simp) (by simp), ?_⟩
      refine inv.quiet (fun _ => rfl) (sourced_of_refs ?_) (by simp) exact' trivial
      rw [Thread.refs, Thread.refs, pc, refs_leave, refs_test, own_none]
  | @readNext t a content next heap ready pc found views =>
      refine ⟨t, values, rfl, .kept (by simp) (by simp), ?_⟩
      refine inv.quiet views (fun b member => ?_) (by simp) exact' ⟨content, (views a).trans found⟩
      rw [Thread.refs, ready, refs_exchange] at member
      simp only [Multiset.coe_nil, add_zero, Multiset.mem_add, Multiset.mem_singleton] at member
      rcases member with rfl | link
      · exact .inl (by simp [Thread.refs, pc])
      · refine .inr (.inr ⟨a, ?_⟩)
        rw [Heap.next_eq_view, found]
        simpa [own, eq_comm] using link
  | @unlinked t a next ready pc top =>
      obtain ⟨data, rest, rfl, found, kept⟩ := inv.unlinked pc top exact'
      exact ⟨t, rest, rfl, .unlinked found, kept⟩
  | @popFailed t a next heap spurious ready pc views flag =>
      refine ⟨t, values, rfl, .kept (by simp) (by simp), ?_⟩
      refine inv.quiet views (sourced_of_head ?_) (by simp) exact' trivial
      rw [Thread.refs, Thread.refs, pc, ready, refs_exchange, refs_test, ← Multiset.cons_coe,
        ← Multiset.singleton_add]
      exact le_of_eq (by simp [own])
  | @moved t a data link heap ready pc found views =>
      exact ⟨t, values, rfl, .kept (by simp) (by simp), inv.moved pc found views exact'⟩
  | @moveFailed t a ready pc =>
      refine ⟨t, values, rfl, .kept (by simp) (by simp), ?_⟩
      refine inv.quiet (fun _ => rfl) (sourced_of_refs ?_) (by simp) exact' trivial
      rw [Thread.refs, Thread.refs, pc, ready, refs_leave, refs_move]
      exact le_of_eq rfl
  | @resultMoved t a tmp ready pc | @resultMoveFailed t a tmp ready pc =>
      refine ⟨t, values, rfl, .kept (by simp) (by simp), ?_⟩
      refine inv.quiet (fun _ => rfl) (sourced_of_refs ?_) (by simp) exact' trivial
      rw [Thread.refs, Thread.refs, pc, ready, refs_leave, refs_returnTmp]
      exact le_of_eq rfl
  | @released t a rest destroyed heap waiting effect =>
      exact ⟨t, values, rfl, .kept (by simp) (by simp), inv.released waiting effect exact'⟩
  | @returned t result ready pc own_ =>
      refine ⟨t, values, rfl, .kept (by simp) (by simp), ?_⟩
      refine inv.quiet (fun _ => rfl) (sourced_of_refs ?_) (by simp) exact' trivial
      rw [Thread.refs, Thread.refs, pc, refs_leave, refs_idle]
  | @popped t data ready pc forDestructor =>
      refine ⟨t, values, rfl, .kept (by simp) (by simp), ?_⟩
      refine inv.quiet (fun _ => rfl) (sourced_of_refs ?_) (by simp) exact' trivial
      rw [Thread.refs, Thread.refs, pc, refs_leave, refs_scan]
  | @terminated t result ready pc forDestructor exception =>
      refine ⟨t, values, rfl, .kept (by simp) (by simp), ?_⟩
      refine inv.quiet (fun _ => rfl) (sourced_of_refs ?_) (by simp) exact' trivial
      rw [Thread.refs, Thread.refs, pc, refs_leave, refs_terminated]

/-- One step: its effect, and the invariant after it. -/
theorem Inv.step {throws : Throws} {event : Event Tid T} (inv : Inv s values)
    (transition : (machine throws).Step s event s') :
    ∃ values', Effect s event s' ∧ event.allowed throws ∧ Change s event values values' ∧
      Kept s event.thread s' values' := by
  have inverted := step_effect inv.exact inv.full inv.safe transition
  obtain ⟨t, values', rfl, change, kept⟩ := inv.effect inverted.effect inverted.exact
  exact ⟨values', inverted.effect, inverted.allowed, change, kept⟩

/-- Every run keeps the invariant and throws only what is allowed. -/
theorem Inv.steps {throws : Throws} {events : List (Event Tid T)} (inv : Inv s values)
    (run : (machine throws).Steps s events s') :
    (∃ values', Inv s' values') ∧ ∀ event ∈ events, event.allowed throws := by
  induction run with
  | refl => exact ⟨⟨values, inv⟩, by simp⟩
  | step prior transition _ inductionHypothesis =>
      obtain ⟨⟨middle, invMiddle⟩, allowed⟩ := inductionHypothesis
      obtain ⟨values', _, allowedLast, _, kept⟩ := invMiddle.step transition
      refine ⟨⟨values', kept.inv⟩, fun event member => ?_⟩
      rcases List.mem_append.mp member with earlier | last
      · exact allowed event earlier
      · rw [List.mem_singleton.mp last]
        exact allowedLast

omit [DecidableEq Tid] in
/-- A new stack satisfies the invariant. -/
theorem inv_initial (program : Tid → List (Call T)) : Inv (initial program) [] where
  safe := rfl
  exact := by
    have noRoots : (initial program).roots = 0 := by simp [initial, State.roots, Thread.refs]
    rw [noRoots]
    exact Heap.exact_empty
  acyclic := by
    intro a cycle
    obtain ⟨b, _, link⟩ := Relation.TransGen.tail'_iff.mp cycle
    simp [initial, Heap.next] at link
  stores := .nil
  holds t := trivial

/-- `~stack` starts in a state of the invariant when no operation is in flight. -/
theorem Inv.destroy (inv : Inv s values) (quiescent : s.Quiescent) (t : Tid) :
    Inv (s.destroy t) values where
  safe := inv.safe
  exact := by
    have roots : (s.destroy t).roots = s.roots := by
      unfold State.roots
      congr 1
      refine Finset.sum_congr rfl fun u _ => ?_
      obtain ⟨pc, drops⟩ := quiescent u
      simp only [Thread.refs, pc, drops, State.destroy]
      by_cases same : u = t <;> simp [same]
    rw [roots]
    exact inv.exact
  acyclic := inv.acyclic
  stores := inv.stores
  holds u := by
    simp only [State.destroy]
    by_cases same : u = t <;> simp [same, Holds]

end Steps

end LockFree.Aba.Fixed
