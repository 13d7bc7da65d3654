import LockFree.Aba.Fixed.Machine
import Mathlib.Algebra.BigOperators.Group.Finset.Basic
import Mathlib.Algebra.Order.Group.Multiset

/-!
# What a step does

`roots` collects the references that the heap does not hold itself: `head` and
the variables of all threads. When the counts are exact for them, no access
faults except a use of moved-out data, and every step has one of the forms of
`Effect`, which say what the step needed, what it changed and what reading shows
afterwards. The later proofs take the steps apart through `Effect` only.
-/

namespace LockFree.Aba.Fixed

open Memory

variable {Tid T : Type} [DecidableEq Tid]

@[simp] theorem put_heap (s : State Tid T) (t : Tid) (thread : Thread T)
    (heap : Heap Addr (Option T)) (head : Option Addr) :
    (s.put t thread heap head).heap = heap := rfl

@[simp] theorem put_head (s : State Tid T) (t : Tid) (thread : Thread T)
    (heap : Heap Addr (Option T)) (head : Option Addr) :
    (s.put t thread heap head).head = head := rfl

@[simp] theorem put_fault (s : State Tid T) (t : Tid) (thread : Thread T)
    (heap : Heap Addr (Option T)) (head : Option Addr) :
    (s.put t thread heap head).fault = s.fault := rfl

@[simp] theorem put_threads_self (s : State Tid T) (t : Tid) (thread : Thread T)
    (heap : Heap Addr (Option T)) (head : Option Addr) :
    (s.put t thread heap head).threads t = thread := by
  simp [State.put]

theorem put_threads_other (s : State Tid T) {t u : Tid} (other : u ≠ t) (thread : Thread T)
    (heap : Heap Addr (Option T)) (head : Option Addr) :
    (s.put t thread heap head).threads u = s.threads u := by
  simp [State.put, other]

section Refs

@[simp] theorem refs_idle : (Pc.idle : Pc T).refs = 0 := rfl
@[simp] theorem refs_make (data : T) : (Pc.make data).refs = 0 := rfl
@[simp] theorem refs_popLoad : (Pc.popLoad : Pc T).refs = 0 := rfl
@[simp] theorem refs_leave (result : Result T) : (Pc.leave result).refs = 0 := rfl
@[simp] theorem refs_scan : (Pc.scan : Pc T).refs = 0 := rfl
@[simp] theorem refs_gone : (Pc.gone : Pc T).refs = 0 := rfl
@[simp] theorem refs_terminated : (Pc.terminated : Pc T).refs = 0 := rfl
@[simp] theorem refs_load (data : T) (n : Addr) : (Pc.load data n).refs = {n} := rfl
@[simp] theorem refs_assign (data : T) (n : Addr) (loaded : Option Addr) :
    (Pc.assign data n loaded).refs = {n} + own loaded :=
  (Multiset.singleton_add n (own loaded)).symm
@[simp] theorem refs_publish (data : T) (n : Addr) : (Pc.publish data n).refs = {n} := rfl
@[simp] theorem refs_test (oldHead : Option Addr) :
    (Pc.test oldHead : Pc T).refs = own oldHead := rfl
@[simp] theorem refs_exchange (a : Addr) (next : Option Addr) :
    (Pc.exchange a next : Pc T).refs = {a} + own next :=
  (Multiset.singleton_add a (own next)).symm
@[simp] theorem refs_move (a : Addr) : (Pc.move a : Pc T).refs = {a} := rfl
@[simp] theorem refs_returnTmp (a : Addr) (tmp : T) : (Pc.returnTmp a tmp).refs = {a} := rfl

@[simp] theorem refs_entry (call : Call T) : (Call.entry call).refs = 0 := by
  cases call <;> rfl

end Refs

section Roots

variable [Fintype Tid]

/-- All references that are not fields of nodes. -/
def State.roots (s : State Tid T) : Multiset Addr :=
  own s.head + ∑ t, (s.threads t).refs

/-- The references of the threads other than `t`. -/
def State.others (s : State Tid T) (t : Tid) : Multiset Addr :=
  ∑ u ∈ Finset.univ.erase t, (s.threads u).refs

theorem roots_eq (s : State Tid T) (t : Tid) :
    s.roots = own s.head + (s.threads t).refs + s.others t := by
  rw [State.roots, State.others, add_assoc,
    Finset.add_sum_erase _ (fun u => (s.threads u).refs) (Finset.mem_univ t)]

@[simp] theorem others_put (s : State Tid T) (t : Tid) (thread : Thread T)
    (heap : Heap Addr (Option T)) (head : Option Addr) :
    (s.put t thread heap head).others t = s.others t :=
  Finset.sum_congr rfl fun u member => by
    rw [put_threads_other s (Finset.ne_of_mem_erase member)]

/-- A step of one thread changes its own references and `head` only. -/
theorem roots_put (s : State Tid T) (t : Tid) (thread : Thread T)
    (heap : Heap Addr (Option T)) (head : Option Addr) :
    (s.put t thread heap head).roots = own head + thread.refs + s.others t := by
  rw [roots_eq _ t, others_put, put_head, put_threads_self]

theorem mem_roots_of_refs {s : State Tid T} {t : Tid} {a : Addr} (held : a ∈ (s.threads t).refs) :
    a ∈ s.roots := by
  rw [roots_eq s t]
  simp [held]

omit [DecidableEq Tid] in
theorem mem_roots_of_head {s : State Tid T} {a : Addr} (top : s.head = some a) : a ∈ s.roots := by
  simp [State.roots, top]

end Roots

/-- The forms a step can take: what the thread was about to do, what the step
writes, and what reading the heap shows afterwards. -/
inductive Effect (s : State Tid T) : Event Tid T → State Tid T → Prop where
  | called {t call calls} (ready : (s.threads t).drops = []) (pc : (s.threads t).pc = .idle)
      (next : (s.threads t).calls = call :: calls) :
      Effect s (.called t call)
        (s.put t { s.threads t with calls, pc := Call.entry call } s.heap s.head)
  | made {t data node} (ready : (s.threads t).drops = []) (pc : (s.threads t).pc = .make data)
      (fresh : node ∉ s.heap) :
      Effect s (.made t node)
        (s.put t { s.threads t with pc := .load data node } (s.heap.create node (some data)) s.head)
  | makeFailed {t data} (ready : (s.threads t).drops = [])
      (pc : (s.threads t).pc = .make data) :
      Effect s (.makeFailed t) (s.put t { s.threads t with pc := .leave .threw } s.heap s.head)
  | loadedPush {t data n heap} (ready : (s.threads t).drops = [])
      (pc : (s.threads t).pc = .load data n) (views : ∀ b, heap.view b = s.heap.view b) :
      Effect s (.loaded t s.head)
        (s.put t { s.threads t with pc := .assign data n s.head } heap s.head)
  | loadedPop {t heap} (ready : (s.threads t).drops = []) (pc : (s.threads t).pc = .popLoad)
      (views : ∀ b, heap.view b = s.heap.view b) :
      Effect s (.loaded t s.head) (s.put t { s.threads t with pc := .test s.head } heap s.head)
  | loadedScan {t heap} (ready : (s.threads t).drops = []) (pc : (s.threads t).pc = .scan)
      (views : ∀ b, heap.view b = s.heap.view b) :
      Effect s (.loaded t s.head)
        (s.put t { s.threads t with
          pc := if s.head = none then .gone else .popLoad, drops := s.head.toList } heap s.head)
  | assigned {t data n loaded content previous heap} (ready : (s.threads t).drops = [])
      (pc : (s.threads t).pc = .assign data n loaded)
      (found : s.heap.view n = some (content, previous))
      (views : ∀ b, heap.view b = if b = n then some (content, loaded) else s.heap.view b) :
      Effect s (.assigned t n)
        (s.put t { s.threads t with pc := .publish data n, drops := previous.toList } heap s.head)
  | published {t data n content heap} (ready : (s.threads t).drops = [])
      (pc : (s.threads t).pc = .publish data n) (found : s.heap.view n = some (content, s.head))
      (views : ∀ b, heap.view b = s.heap.view b) :
      Effect s (.published t n)
        (s.put t { s.threads t with pc := .leave .done, drops := s.head.toList ++ [n] } heap
          (some n))
  | pushFailed {t data n content expected heap spurious} (ready : (s.threads t).drops = [])
      (pc : (s.threads t).pc = .publish data n)
      (found : s.heap.view n = some (content, expected))
      (views : ∀ b, heap.view b = if b = n then some (content, s.head) else s.heap.view b)
      (flag : spurious = true ↔ s.head = expected) :
      Effect s (.exchangeFailed t spurious)
        (s.put t { s.threads t with drops := expected.toList ++ [n] } heap s.head)
  | foundEmpty {t} (ready : (s.threads t).drops = []) (pc : (s.threads t).pc = .test none) :
      Effect s (.foundEmpty t) (s.put t { s.threads t with pc := .leave .outOfRange } s.heap s.head)
  | readNext {t a content next heap} (ready : (s.threads t).drops = [])
      (pc : (s.threads t).pc = .test (some a)) (found : s.heap.view a = some (content, next))
      (views : ∀ b, heap.view b = s.heap.view b) :
      Effect s (.readNext t a) (s.put t { s.threads t with pc := .exchange a next } heap s.head)
  | unlinked {t a next} (ready : (s.threads t).drops = [])
      (pc : (s.threads t).pc = .exchange a next) (top : s.head = some a) :
      Effect s (.unlinked t a)
        (s.put t { s.threads t with pc := .move a, drops := [a] } s.heap next)
  | popFailed {t a next heap spurious} (ready : (s.threads t).drops = [])
      (pc : (s.threads t).pc = .exchange a next) (views : ∀ b, heap.view b = s.heap.view b)
      (flag : spurious = true ↔ s.head = some a) :
      Effect s (.exchangeFailed t spurious)
        (s.put t { s.threads t with pc := .test s.head, drops := a :: next.toList } heap s.head)
  | moved {t a data link heap} (ready : (s.threads t).drops = [])
      (pc : (s.threads t).pc = .move a) (found : s.heap.view a = some (some data, link))
      (views : ∀ b, heap.view b = if b = a then some (none, link) else s.heap.view b) :
      Effect s (.moved t a)
        (s.put t { s.threads t with pc := .returnTmp a data } heap s.head)
  | moveFailed {t a} (ready : (s.threads t).drops = []) (pc : (s.threads t).pc = .move a) :
      Effect s (.moveFailed t a)
        (s.put t { s.threads t with pc := .leave .threw, drops := [a] } s.heap s.head)
  | resultMoved {t a tmp} (ready : (s.threads t).drops = [])
      (pc : (s.threads t).pc = .returnTmp a tmp) :
      Effect s (.resultMoved t a)
        (s.put t { s.threads t with pc := .leave (.value tmp), drops := [a] } s.heap s.head)
  | resultMoveFailed {t a tmp} (ready : (s.threads t).drops = [])
      (pc : (s.threads t).pc = .returnTmp a tmp) :
      Effect s (.resultMoveFailed t a)
        (s.put t { s.threads t with pc := .leave .threw, drops := [a] } s.heap s.head)
  | released {t a rest destroyed heap} (waiting : (s.threads t).drops = a :: rest)
      (effect : s.heap.Released a heap destroyed) :
      Effect s (.released t a destroyed)
        (s.put t { s.threads t with drops := rest } heap s.head)
  | returned {t result} (ready : (s.threads t).drops = [])
      (pc : (s.threads t).pc = .leave result) (own : (s.threads t).destructor = false) :
      Effect s (.returned t result) (s.put t { s.threads t with pc := .idle } s.heap s.head)
  | popped {t data} (ready : (s.threads t).drops = [])
      (pc : (s.threads t).pc = .leave (.value data))
      (forDestructor : (s.threads t).destructor = true) :
      Effect s (.popped t) (s.put t { s.threads t with pc := .scan } s.heap s.head)
  | terminated {t result} (ready : (s.threads t).drops = [])
      (pc : (s.threads t).pc = .leave result) (forDestructor : (s.threads t).destructor = true)
      (exception : ∀ data, result ≠ .value data) :
      Effect s (.popped t) (s.put t { s.threads t with pc := .terminated } s.heap s.head)

/-- A step concerns its own thread only. -/
theorem Effect.thread_cases {s s' : State Tid T} {event : Event Tid T} (effect : Effect s event s')
    (u : Tid) : s'.threads u = s.threads u ∨ u = event.thread := by
  by_cases stepped : u = event.thread
  · exact .inr stepped
  · refine .inl ?_
    cases effect <;> exact put_threads_other s stepped _ _ _

/-! ### One lemma for each operation -/

section Specs

variable [Fintype Tid] {s : State Tid T} {t : Tid}

/-- A waiting reference is one of the roots. -/
theorem roots_drop {a : Addr} {rest : List Addr} (heap : Heap Addr (Option T))
    (waiting : (s.threads t).drops = a :: rest) :
    s.roots = a ::ₘ (s.put t { s.threads t with drops := rest } heap s.head).roots := by
  rw [roots_put, roots_eq s t, Thread.refs, Thread.refs, waiting, ← Multiset.cons_coe]
  simp only [Multiset.add_cons, Multiset.cons_add]

theorem release_spec {a : Addr} {rest : List Addr} (exact_ : s.heap.Exact s.roots)
    (waiting : (s.threads t).drops = a :: rest) :
    ∃ heap destroyed, release s t a rest = some (.released t a destroyed,
        s.put t { s.threads t with drops := rest } heap s.head) ∧
      s.heap.Released a heap destroyed ∧
      heap.Exact (s.put t { s.threads t with drops := rest } heap s.head).roots := by
  rw [roots_drop s.heap waiting] at exact_
  obtain ⟨heap, destroyed, released, exact', effect⟩ := exact_.release
  refine ⟨heap, destroyed, ?_, effect, ?_⟩
  · simp [release, released]
  · rw [roots_put] at exact' ⊢
    exact exact'

/-- Loading `head` into a variable that is kept in the thread. -/
theorem loadHead_spec (continue_ : Option Addr → Thread T) (exact_ : s.heap.Exact s.roots)
    (kept : (continue_ s.head).refs = own s.head + (s.threads t).refs) :
    ∃ heap, loadHead s t continue_ = some (.loaded t s.head,
        s.put t (continue_ s.head) heap s.head) ∧
      (∀ b, heap.view b = s.heap.view b) ∧
      heap.Exact (s.put t (continue_ s.head) heap s.head).roots := by
  obtain ⟨heap, retained, exact', views⟩ := exact_.retainPtr
    fun a (top : s.head = some a) => exact_.live_of_root (mem_roots_of_head top)
  refine ⟨heap, ?_, views, ?_⟩
  · simp [loadHead, retained]
  · rw [roots_put, kept]
    rw [roots_eq s t] at exact'
    convert exact' using 1
    ac_rfl

theorem assignNext_spec {data : T} {n : Addr} {loaded : Option Addr}
    (exact_ : s.heap.Exact s.roots) (ready : (s.threads t).drops = [])
    (pc : (s.threads t).pc = .assign data n loaded) :
    ∃ content previous heap, s.heap.view n = some (content, previous) ∧
      assignNext s t data n loaded = some (.assigned t n, s.put t
        { s.threads t with pc := .publish data n, drops := previous.toList } heap s.head) ∧
      (∀ b, heap.view b = if b = n then some (content, loaded) else s.heap.view b) ∧
      heap.Exact (s.put t
        { s.threads t with pc := .publish data n, drops := previous.toList }
        heap s.head).roots := by
  have held : n ∈ s.heap := exact_.live_of_root (mem_roots_of_refs (t := t)
    (by simp [Thread.refs, pc, Pc.refs]))
  obtain ⟨⟨content, previous⟩, found⟩ := Option.isSome_iff_exists.mp (Heap.mem_iff_view.mp held)
  have split : s.roots = own loaded + (own s.head + {n} + s.others t) := by
    rw [roots_eq s t, Thread.refs, pc, ready, Pc.refs, ← Multiset.singleton_add]
    simp only [Multiset.coe_nil, add_zero]
    ac_rfl
  rw [split] at exact_
  obtain ⟨heap, written, exact', views⟩ := exact_.setNext found
  refine ⟨content, previous, heap, found, ?_, views, ?_⟩
  · simp [assignNext, found, written]
  · rw [roots_put, Thread.refs, Pc.refs]
    convert exact' using 1
    change own s.head + ({n} + own previous) + s.others t = _
    ac_rfl

/-- The node a thread holds can be read. -/
theorem view_of_refs {a : Addr} (exact_ : s.heap.Exact s.roots) (held : a ∈ (s.threads t).refs) :
    ∃ content link, s.heap.view a = some (content, link) := by
  have live : a ∈ s.heap := exact_.live_of_root (mem_roots_of_refs held)
  obtain ⟨⟨content, link⟩, found⟩ := Option.isSome_iff_exists.mp (Heap.mem_iff_view.mp live)
  exact ⟨content, link, found⟩

theorem exchangePush_succeeds {data : T} {n : Addr} {content : Option T}
    (exact_ : s.heap.Exact s.roots) (ready : (s.threads t).drops = [])
    (pc : (s.threads t).pc = .publish data n) (found : s.heap.view n = some (content, s.head)) :
    ∃ heap, exchangePush s t n false = some (.published t n, s.put t
        { s.threads t with pc := .leave .done, drops := s.head.toList ++ [n] } heap (some n)) ∧
      (∀ b, heap.view b = s.heap.view b) ∧
      heap.Exact (s.put t { s.threads t with
        pc := .leave .done, drops := s.head.toList ++ [n] } heap (some n)).roots := by
  have held : n ∈ (s.threads t).refs := by simp [Thread.refs, pc, Pc.refs]
  obtain ⟨heap, retained, exact', views⟩ :=
    exact_.retain (exact_.live_of_root (mem_roots_of_refs held))
  refine ⟨heap, ?_, views, ?_⟩
  · simp [exchangePush, found, retained]
  · rw [roots_put, Thread.refs, ← Multiset.coe_add]
    rw [roots_eq s t, Thread.refs, pc, ready, Pc.refs, ← Multiset.singleton_add] at exact'
    convert exact' using 1
    change {n} + (0 + (own s.head + {n})) + s.others t = {n} + (own s.head + ({n} + 0) + s.others t)
    simp only [zero_add, add_zero]
    ac_rfl

theorem exchangePush_fails {data : T} {n : Addr} {content : Option T} {expected : Option Addr}
    (spurious : Bool) (exact_ : s.heap.Exact s.roots) (ready : (s.threads t).drops = [])
    (pc : (s.threads t).pc = .publish data n) (found : s.heap.view n = some (content, expected))
    (fails : s.head = expected → spurious = true) :
    ∃ heap, exchangePush s t n spurious = some (.exchangeFailed t (s.head = expected), s.put t
        { s.threads t with drops := expected.toList ++ [n] } heap s.head) ∧
      (∀ b, heap.view b = if b = n then some (content, s.head) else s.heap.view b) ∧
      heap.Exact (s.put t
        { s.threads t with drops := expected.toList ++ [n] } heap s.head).roots := by
  have held : n ∈ (s.threads t).refs := by simp [Thread.refs, pc, Pc.refs]
  obtain ⟨copied, retained, exact₁, views₁⟩ :=
    exact_.retain (exact_.live_of_root (mem_roots_of_refs held))
  obtain ⟨shared, loaded, exact₂, views₂⟩ := exact₁.retainPtr
    fun a (top : s.head = some a) =>
      exact₁.live_of_root (Multiset.mem_cons_of_mem (mem_roots_of_head top))
  have found₂ : shared.view n = some (content, expected) := by rw [views₂, views₁, found]
  obtain ⟨heap, written, exact₃, views₃⟩ := exact₂.setNext found₂
  refine ⟨heap, ?_, fun b => ?_, ?_⟩
  · have taken : ¬ (s.head = expected ∧ spurious = false) := by
      rintro ⟨same, notSpurious⟩
      rw [fails same] at notSpurious
      cases notSpurious
    simp [exchangePush, found, retained, loaded, written, taken]
  · rw [views₃, views₂, views₁]
  · rw [roots_put, Thread.refs, pc, Pc.refs, ← Multiset.coe_add]
    rw [roots_eq s t, Thread.refs, pc, ready, Pc.refs, ← Multiset.singleton_add] at exact₃
    convert exact₃ using 1
    change own s.head + ({n} + (own expected + {n})) + s.others t =
      own expected + ({n} + (own s.head + ({n} + 0) + s.others t))
    simp only [add_zero]
    ac_rfl

theorem testOldHead_spec {a : Addr} (exact_ : s.heap.Exact s.roots)
    (ready : (s.threads t).drops = []) (pc : (s.threads t).pc = .test (some a)) :
    ∃ content next heap, s.heap.view a = some (content, next) ∧
      testOldHead s t (some a) = some (.readNext t a, s.put t
        { s.threads t with pc := .exchange a next } heap s.head) ∧
      (∀ b, heap.view b = s.heap.view b) ∧
      heap.Exact (s.put t { s.threads t with pc := .exchange a next } heap s.head).roots := by
  have held : a ∈ (s.threads t).refs := by simp [Thread.refs, pc, Pc.refs]
  obtain ⟨content, next, found⟩ := view_of_refs exact_ held
  obtain ⟨heap, retained, exact', views⟩ := exact_.retainPtr
    fun b (link : next = some b) => exact_.live_of_next (b := a)
      (by rw [Heap.next_eq_view, found]; exact link)
  refine ⟨content, next, heap, found, ?_, views, ?_⟩
  · simp [testOldHead, found, retained]
  · rw [roots_put, Thread.refs, ready, Pc.refs, ← Multiset.singleton_add]
    rw [roots_eq s t, Thread.refs, pc, ready, Pc.refs] at exact'
    convert exact' using 1
    change own s.head + ({a} + own next + 0) + s.others t =
      own next + (own s.head + ({a} + 0) + s.others t)
    simp only [add_zero]
    ac_rfl

theorem exchangePop_succeeds {a : Addr} {next : Option Addr} (exact_ : s.heap.Exact s.roots)
    (ready : (s.threads t).drops = []) (pc : (s.threads t).pc = .exchange a next)
    (top : s.head = some a) :
    exchangePop s t a next false = some (.unlinked t a,
        s.put t { s.threads t with pc := .move a, drops := [a] } s.heap next) ∧
      s.heap.Exact
        (s.put t { s.threads t with pc := .move a, drops := [a] } s.heap next).roots := by
  refine ⟨by simp [exchangePop, top], ?_⟩
  rw [roots_put, Thread.refs, Pc.refs]
  rw [roots_eq s t, Thread.refs, pc, ready, Pc.refs, top, ← Multiset.singleton_add] at exact_
  convert exact_ using 1
  change own next + ({a} + {a}) + s.others t = {a} + ({a} + own next + 0) + s.others t
  simp only [add_zero]
  ac_rfl

theorem exchangePop_fails {a : Addr} {next : Option Addr} (spurious : Bool)
    (exact_ : s.heap.Exact s.roots) (ready : (s.threads t).drops = [])
    (pc : (s.threads t).pc = .exchange a next) (fails : s.head = some a → spurious = true) :
    ∃ heap, exchangePop s t a next spurious = some (.exchangeFailed t (s.head = some a), s.put t
        { s.threads t with pc := .test s.head, drops := a :: next.toList } heap s.head) ∧
      (∀ b, heap.view b = s.heap.view b) ∧
      heap.Exact (s.put t { s.threads t with
        pc := .test s.head, drops := a :: next.toList } heap s.head).roots := by
  obtain ⟨heap, retained, exact', views⟩ := exact_.retainPtr
    fun a (top : s.head = some a) => exact_.live_of_root (mem_roots_of_head top)
  refine ⟨heap, ?_, views, ?_⟩
  · have taken : ¬ (s.head = some a ∧ spurious = false) := by
      rintro ⟨same, notSpurious⟩
      rw [fails same] at notSpurious
      cases notSpurious
    simp [exchangePop, retained, taken]
  · rw [roots_put, Thread.refs, Pc.refs, ← Multiset.cons_coe, ← Multiset.singleton_add]
    rw [roots_eq s t, Thread.refs, pc, ready, Pc.refs, ← Multiset.singleton_add] at exact'
    convert exact' using 1
    change own s.head + (own s.head + ({a} + own next)) + s.others t =
      own s.head + (own s.head + ({a} + own next + 0) + s.others t)
    simp only [add_zero]
    ac_rfl

theorem moveData_spec {a : Addr} {data : T} {link : Option Addr} (exact_ : s.heap.Exact s.roots)
    (ready : (s.threads t).drops = []) (pc : (s.threads t).pc = .move a)
    (found : s.heap.view a = some (some data, link)) :
    ∃ heap, moveData s t a = some (.moved t a, s.put t
        { s.threads t with pc := .returnTmp a data } heap s.head) ∧
      (∀ b, heap.view b = if b = a then some (none, link) else s.heap.view b) ∧
      heap.Exact (s.put t { s.threads t with pc := .returnTmp a data } heap s.head).roots := by
  obtain ⟨heap, written, exact', views⟩ := exact_.setData found none
  refine ⟨heap, ?_, views, ?_⟩
  · simp [moveData, found, written]
  · rw [roots_put, Thread.refs, ready]
    rw [roots_eq s t, Thread.refs, pc, ready] at exact'
    exact exact'

theorem create_spec {data : T} {node : Addr} (exact_ : s.heap.Exact s.roots)
    (ready : (s.threads t).drops = []) (pc : (s.threads t).pc = .make data)
    (fresh : node ∉ s.heap) :
    (s.heap.create node (some data)).Exact (s.put t { s.threads t with pc := .load data node }
      (s.heap.create node (some data)) s.head).roots := by
  have exact' := exact_.create fresh (some data)
  rw [roots_put, Thread.refs, ready]
  rw [roots_eq s t, Thread.refs, pc, ready, ← Multiset.singleton_add] at exact'
  convert exact' using 1
  change own s.head + ({node} + 0) + s.others t = {node} + (own s.head + (0 + 0) + s.others t)
  simp only [add_zero]
  ac_rfl

/-- A step that leaves heap, `head` and references alone keeps the counts exact. -/
theorem exact_put (thread : Thread T) (exact_ : s.heap.Exact s.roots)
    (same : thread.refs = (s.threads t).refs) :
    s.heap.Exact (s.put t thread s.heap s.head).roots := by
  rw [roots_put, same, ← roots_eq]
  exact exact_

/-- Leaving `pop` turns the reference of `old_head` into one to release. -/
theorem exact_leave {a : Addr} (result : Result T) (exact_ : s.heap.Exact s.roots)
    (ready : (s.threads t).drops = []) (held : (s.threads t).pc.refs = {a}) :
    s.heap.Exact (s.put t { s.threads t with pc := .leave result, drops := [a] } s.heap
      s.head).roots := by
  refine exact_put { s.threads t with pc := .leave result, drops := [a] } exact_ ?_
  rw [Thread.refs, Thread.refs, held, ready, refs_leave]
  rfl

end Specs

/-! ### The step function, position by position -/

section Positions

variable {s : State Tid T} {t : Tid}

theorem run_release {a : Addr} {rest : List Addr} (waiting : (s.threads t).drops = a :: rest) :
    run s t = (release s t a rest).getD (faulted s t) := by
  simp [run, waiting]

theorem run_done (ready : (s.threads t).drops = []) (pc : (s.threads t).pc = .idle)
    (last : (s.threads t).calls = []) : run s t = none := by
  simp [run, ready, pc, last]

theorem run_call {call : Call T} {calls : List (Call T)} (ready : (s.threads t).drops = [])
    (pc : (s.threads t).pc = .idle) (next : (s.threads t).calls = call :: calls) :
    run s t = some (.called t call,
      s.put t { s.threads t with calls, pc := Call.entry call } s.heap s.head) := by
  simp [run, ready, pc, next]

theorem run_make {data : T} (ready : (s.threads t).drops = [])
    (pc : (s.threads t).pc = .make data) : run s t = none := by
  simp [run, ready, pc]

theorem run_load {data : T} {n : Addr} (ready : (s.threads t).drops = [])
    (pc : (s.threads t).pc = .load data n) :
    run s t = (loadHead s t fun loaded =>
      { s.threads t with pc := .assign data n loaded }).getD (faulted s t) := by
  simp [run, ready, pc]

theorem run_assign {data : T} {n : Addr} {loaded : Option Addr} (ready : (s.threads t).drops = [])
    (pc : (s.threads t).pc = .assign data n loaded) :
    run s t = (assignNext s t data n loaded).getD (faulted s t) := by
  simp [run, ready, pc]

theorem run_publish {data : T} {n : Addr} (ready : (s.threads t).drops = [])
    (pc : (s.threads t).pc = .publish data n) :
    run s t = (exchangePush s t n false).getD (faulted s t) := by
  simp [run, ready, pc]

theorem run_popLoad (ready : (s.threads t).drops = []) (pc : (s.threads t).pc = .popLoad) :
    run s t = (loadHead s t fun loaded =>
      { s.threads t with pc := .test loaded }).getD (faulted s t) := by
  simp [run, ready, pc]

theorem run_test {oldHead : Option Addr} (ready : (s.threads t).drops = [])
    (pc : (s.threads t).pc = .test oldHead) :
    run s t = (testOldHead s t oldHead).getD (faulted s t) := by
  simp [run, ready, pc]

theorem run_exchange {a : Addr} {next : Option Addr} (ready : (s.threads t).drops = [])
    (pc : (s.threads t).pc = .exchange a next) :
    run s t = (exchangePop s t a next false).getD (faulted s t) := by
  simp [run, ready, pc]

theorem run_move {a : Addr} (ready : (s.threads t).drops = []) (pc : (s.threads t).pc = .move a) :
    run s t = (moveData s t a).getD (faulted s t) := by
  simp [run, ready, pc]

theorem run_returnTmp {a : Addr} {tmp : T} (ready : (s.threads t).drops = [])
    (pc : (s.threads t).pc = .returnTmp a tmp) : run s t = some (returnTmp s t a tmp) := by
  simp [run, ready, pc]

theorem run_leave {result : Result T} (ready : (s.threads t).drops = [])
    (pc : (s.threads t).pc = .leave result) : run s t = some (leave s t result) := by
  simp [run, ready, pc]

theorem run_scan (ready : (s.threads t).drops = []) (pc : (s.threads t).pc = .scan) :
    run s t = (loadHead s t fun loaded => { s.threads t with
      pc := if loaded = none then .gone else .popLoad, drops := loaded.toList }).getD
        (faulted s t) := by
  simp [run, ready, pc]

variable {throws : Throws}

theorem step_run (safe : s.fault = false) : step? throws s (.run t) = run s t := by
  simp [step?.eq_def, safe]

theorem step_allocate {data : T} {node : Addr} (safe : s.fault = false)
    (ready : (s.threads t).drops = []) (pc : (s.threads t).pc = .make data)
    (fresh : node ∉ s.heap) :
    step? throws s (.allocate t node) = some (.made t node,
      s.put t { s.threads t with pc := .load data node } (s.heap.create node (some data))
        s.head) := by
  simp [step?.eq_def, safe, ready, pc, fresh]

theorem step_throws_make {data : T} (safe : s.fault = false) (ready : (s.threads t).drops = [])
    (pc : (s.threads t).pc = .make data) (may : throws.make = true) :
    step? throws s (.throws t) = some (.makeFailed t,
      s.put t { s.threads t with pc := .leave .threw } s.heap s.head) := by
  simp [step?.eq_def, safe, ready, pc, may]

theorem step_throws_move {a : Addr} (safe : s.fault = false) (ready : (s.threads t).drops = [])
    (pc : (s.threads t).pc = .move a) (may : throws.move = true) :
    step? throws s (.throws t) = some (.moveFailed t a,
      s.put t { s.threads t with pc := .leave .threw, drops := [a] } s.heap s.head) := by
  simp [step?.eq_def, safe, ready, pc, may]

theorem step_throws_returnTmp {a : Addr} {tmp : T} (safe : s.fault = false)
    (ready : (s.threads t).drops = []) (pc : (s.threads t).pc = .returnTmp a tmp)
    (may : throws.move = true) :
    step? throws s (.throws t) = some (.resultMoveFailed t a,
      s.put t { s.threads t with pc := .leave .threw, drops := [a] } s.heap s.head) := by
  simp [step?.eq_def, safe, ready, pc, may]

theorem step_spurious_push {data : T} {n : Addr} (safe : s.fault = false)
    (ready : (s.threads t).drops = []) (pc : (s.threads t).pc = .publish data n)
    (same : s.head = s.heap.next n) :
    step? throws s (.spurious t) = (exchangePush s t n true).getD (faulted s t) := by
  simp [step?.eq_def, safe, ready, pc, ← same]

theorem step_spurious_pop {a : Addr} {next : Option Addr} (safe : s.fault = false)
    (ready : (s.threads t).drops = []) (pc : (s.threads t).pc = .exchange a next)
    (top : s.head = some a) :
    step? throws s (.spurious t) = (exchangePop s t a next true).getD (faulted s t) := by
  simp [step?.eq_def, safe, ready, pc, top]

end Positions

section Inversion

variable [Fintype Tid] {s : State Tid T} {t : Tid} {event : Event Tid T} {s' : State Tid T}

/-- The exceptions that can come from outside. -/
def Event.allowed (throws : Throws) : Event Tid T → Prop
  | .makeFailed _ => throws.make = true
  | .moveFailed _ _ | .resultMoveFailed _ _ => throws.move = true
  | _ => True

/-- What is known of a step: its form, exact counts after it, and that an
exception from outside is one of those that can occur. -/
structure Inverted (throws : Throws) (s : State Tid T) (event : Event Tid T)
    (s' : State Tid T) : Prop where
  effect : Effect s event s'
  exact : s'.heap.Exact s'.roots
  allowed : event.allowed throws

variable {throws : Throws}

/-- Leaving a call changes no reference. -/
theorem leave_effect {result : Result T} (exact_ : s.heap.Exact s.roots)
    (ready : (s.threads t).drops = []) (pc : (s.threads t).pc = .leave result) :
    Inverted throws s (leave s t result).1 (leave s t result).2 := by
  unfold leave
  cases own_ : (s.threads t).destructor with
  | false =>
      refine ⟨?_, ?_, trivial⟩
      · exact .returned ready pc own_
      · have kept := exact_put { s.threads t with pc := .idle } exact_
          (by rw [Thread.refs, Thread.refs, pc, refs_idle, refs_leave])
        exact kept
  | true =>
      cases result with
      | value data =>
          refine ⟨?_, ?_, trivial⟩
          · exact .popped ready pc own_
          · have kept := exact_put { s.threads t with pc := .scan } exact_
              (by rw [Thread.refs, Thread.refs, pc, refs_scan, refs_leave])
            exact kept
      | _ =>
          refine ⟨?_, ?_, trivial⟩
          · exact .terminated ready pc own_ (by simp)
          · have kept := exact_put { s.threads t with pc := .terminated } exact_
              (by rw [Thread.refs, Thread.refs, pc, refs_terminated, refs_leave])
            exact kept

/-- A load of `head` into a variable, or into the temporary of `~stack`. -/
theorem load_effect (exact_ : s.heap.Exact s.roots)
    {continue_ : Option Addr → Thread T}
    (kept : (continue_ s.head).refs = own s.head + (s.threads t).refs)
    (effect : ∀ heap, (∀ b, heap.view b = s.heap.view b) →
      Effect s (.loaded t s.head) (s.put t (continue_ s.head) heap s.head))
    (taken : (loadHead s t continue_).getD (faulted s t) = (event, s')) :
    Inverted throws s event s' := by
  obtain ⟨heap, loaded, views, exact'⟩ := loadHead_spec continue_ exact_ kept
  rw [loaded, Option.getD_some] at taken
  cases taken
  exact ⟨effect heap views, exact', trivial⟩

/-- The next step of a thread when nothing is left open has an effect. -/
theorem run_effect (exact_ : s.heap.Exact s.roots)
    (full : ∀ a, (s.threads t).pc = .move a → ∃ data link, s.heap.view a = some (some data, link))
    (taken : run s t = some (event, s')) : Inverted throws s event s' := by
  cases ready : (s.threads t).drops with
  | cons a rest =>
      obtain ⟨heap, destroyed, released, effect, exact'⟩ := release_spec exact_ ready
      rw [run_release ready, released, Option.getD_some] at taken
      cases taken
      exact ⟨.released ready effect, exact', trivial⟩
  | nil =>
      cases pc : (s.threads t).pc with
      | idle =>
          cases next : (s.threads t).calls with
          | nil =>
              rw [run_done ready pc next] at taken
              cases taken
          | cons call calls =>
              rw [run_call ready pc next] at taken
              cases taken
              refine ⟨.called ready pc next, ?_, trivial⟩
              have kept := exact_put { s.threads t with calls, pc := Call.entry call } exact_
                (by rw [Thread.refs, Thread.refs, pc, refs_entry, refs_idle])
              exact kept
      | make data =>
          rw [run_make ready pc] at taken
          cases taken
      | load data n =>
          rw [run_load ready pc] at taken
          refine load_effect exact_ ?_ (fun heap views => .loadedPush ready pc views)
            (Option.some.inj taken)
          rw [Thread.refs, Thread.refs, pc, refs_assign, refs_load]
          ac_rfl
      | assign data n loaded =>
          obtain ⟨content, previous, heap, found, assigned, views, exact'⟩ :=
            assignNext_spec exact_ ready pc
          rw [run_assign ready pc, assigned, Option.getD_some] at taken
          cases taken
          exact ⟨.assigned ready pc found views, exact', trivial⟩
      | publish data n =>
          obtain ⟨content, expected, found⟩ :=
            view_of_refs (t := t) (a := n) exact_ (by simp [Thread.refs, pc])
          rw [run_publish ready pc] at taken
          by_cases same : s.head = expected
          · subst same
            obtain ⟨heap, published, views, exact'⟩ := exchangePush_succeeds exact_ ready pc found
            rw [published, Option.getD_some] at taken
            cases taken
            exact ⟨.published ready pc found views, exact', trivial⟩
          · obtain ⟨heap, failed, views, exact'⟩ := exchangePush_fails false exact_
              ready pc found (fun same' => absurd same' same)
            rw [failed, Option.getD_some] at taken
            cases taken
            exact ⟨.pushFailed ready pc found views (by simp), exact', trivial⟩
      | popLoad =>
          rw [run_popLoad ready pc] at taken
          refine load_effect exact_ ?_ (fun heap views => .loadedPop ready pc views)
            (Option.some.inj taken)
          rw [Thread.refs, Thread.refs, pc, refs_test, refs_popLoad]
          ac_rfl
      | test oldHead =>
          rw [run_test ready pc] at taken
          cases oldHead with
          | none =>
              cases taken
              refine ⟨.foundEmpty ready pc, ?_, trivial⟩
              have kept := exact_put { s.threads t with pc := .leave .outOfRange } exact_
                (by rw [Thread.refs, Thread.refs, pc, refs_leave, refs_test, own_none])
              exact kept
          | some a =>
              obtain ⟨content, next, heap, found, read, views, exact'⟩ :=
                testOldHead_spec exact_ ready pc
              rw [read, Option.getD_some] at taken
              cases taken
              exact ⟨.readNext ready pc found views, exact', trivial⟩
      | exchange a next =>
          rw [run_exchange ready pc] at taken
          by_cases top : s.head = some a
          · obtain ⟨unlinked, exact'⟩ := exchangePop_succeeds exact_ ready pc top
            rw [unlinked, Option.getD_some] at taken
            cases taken
            exact ⟨.unlinked ready pc top, exact', trivial⟩
          · obtain ⟨heap, failed, views, exact'⟩ := exchangePop_fails false exact_
              ready pc (fun top' => absurd top' top)
            rw [failed, Option.getD_some] at taken
            cases taken
            exact ⟨.popFailed ready pc views (by simp), exact', trivial⟩
      | move a =>
          obtain ⟨data, link, found⟩ := full a pc
          obtain ⟨heap, moved, views, exact'⟩ := moveData_spec exact_ ready pc found
          rw [run_move ready pc, moved, Option.getD_some] at taken
          cases taken
          exact ⟨.moved ready pc found views, exact', trivial⟩
      | returnTmp a tmp =>
          rw [run_returnTmp ready pc] at taken
          cases taken
          refine ⟨?_, ?_, trivial⟩
          · exact .resultMoved ready pc
          · have kept := exact_leave (.value tmp) exact_ ready (by rw [pc, refs_returnTmp])
            exact kept
      | leave result =>
          rw [run_leave ready pc] at taken
          have effect : Inverted throws s _ _ := leave_effect exact_ ready pc
          rw [Option.some.inj taken] at effect
          exact effect
      | scan =>
          rw [run_scan ready pc] at taken
          refine load_effect exact_ ?_ (fun heap views => .loadedScan ready pc views)
            (Option.some.inj taken)
          rw [Thread.refs, Thread.refs, pc, ready, refs_scan]
          cases s.head <;> simp
      | gone => simp [run, ready, pc] at taken
      | terminated => simp [run, ready, pc] at taken

/-- `make_shared` answers with a fresh address. -/
theorem allocate_effect {node : Addr} (exact_ : s.heap.Exact s.roots) (safe : s.fault = false)
    (taken : step? throws s (.allocate t node) = some (event, s')) :
    Inverted throws s event s' := by
  cases ready : (s.threads t).drops with
  | cons a rest => simp [step?.eq_def, safe, ready] at taken
  | nil =>
      cases pc : (s.threads t).pc with
      | make data =>
          by_cases fresh : node ∈ s.heap
          · simp [step?.eq_def, safe, ready, pc, fresh] at taken
          · rw [step_allocate safe ready pc fresh] at taken
            cases taken
            refine ⟨?_, ?_, trivial⟩
            · exact .made ready pc fresh
            · have created := create_spec exact_ ready pc fresh
              exact created
      | _ => simp [step?.eq_def, safe, ready, pc] at taken

/-- An exception leaves `make_shared` or a move of an element. -/
theorem throws_effect (exact_ : s.heap.Exact s.roots) (safe : s.fault = false)
    (taken : step? throws s (.throws t) = some (event, s')) : Inverted throws s event s' := by
  cases ready : (s.threads t).drops with
  | cons a rest => simp [step?.eq_def, safe, ready] at taken
  | nil =>
      cases pc : (s.threads t).pc with
      | make data =>
          cases may : throws.make with
          | false => simp [step?.eq_def, safe, ready, pc, may] at taken
          | true =>
              rw [step_throws_make safe ready pc may] at taken
              cases taken
              refine ⟨?_, ?_, may⟩
              · exact .makeFailed ready pc
              · have kept := exact_put { s.threads t with pc := .leave .threw } exact_
                  (by rw [Thread.refs, Thread.refs, pc, refs_leave, refs_make])
                exact kept
      | move a =>
          cases may : throws.move with
          | false => simp [step?.eq_def, safe, ready, pc, may] at taken
          | true =>
              rw [step_throws_move safe ready pc may] at taken
              cases taken
              refine ⟨?_, ?_, may⟩
              · exact .moveFailed ready pc
              · have kept := exact_leave .threw exact_ ready (by rw [pc, refs_move])
                exact kept
      | returnTmp a tmp =>
          cases may : throws.move with
          | false => simp [step?.eq_def, safe, ready, pc, may] at taken
          | true =>
              rw [step_throws_returnTmp safe ready pc may] at taken
              cases taken
              refine ⟨?_, ?_, may⟩
              · exact .resultMoveFailed ready pc
              · have kept := exact_leave .threw exact_ ready (by rw [pc, refs_returnTmp])
                exact kept
      | _ => simp [step?.eq_def, safe, ready, pc] at taken

/-- A compare-exchange that could succeed fails. -/
theorem spurious_effect (exact_ : s.heap.Exact s.roots) (safe : s.fault = false)
    (taken : step? throws s (.spurious t) = some (event, s')) : Inverted throws s event s' := by
  cases ready : (s.threads t).drops with
  | cons a rest => simp [step?.eq_def, safe, ready] at taken
  | nil =>
      cases pc : (s.threads t).pc with
      | publish data n =>
          obtain ⟨content, expected, found⟩ :=
            view_of_refs (t := t) (a := n) exact_ (by simp [Thread.refs, pc])
          by_cases same : s.head = s.heap.next n
          · obtain ⟨heap, failed, views, exact'⟩ := exchangePush_fails true exact_
              ready pc found (fun _ => rfl)
            rw [step_spurious_push safe ready pc same, failed, Option.getD_some] at taken
            cases taken
            exact ⟨.pushFailed ready pc found views (by simp), exact', trivial⟩
          · simp [step?.eq_def, safe, ready, pc, same] at taken
      | exchange a next =>
          by_cases top : s.head = some a
          · obtain ⟨heap, failed, views, exact'⟩ := exchangePop_fails true exact_
              ready pc (fun _ => rfl)
            rw [step_spurious_pop safe ready pc top, failed, Option.getD_some] at taken
            cases taken
            exact ⟨.popFailed ready pc views (by simp), exact', trivial⟩
          · simp [step?.eq_def, safe, ready, pc, top] at taken
      | _ => simp [step?.eq_def, safe, ready, pc] at taken

/-- Every step of the machine has an effect, keeps the counts exact, faults
never, and throws only what is allowed. -/
theorem step_effect (exact_ : s.heap.Exact s.roots)
    (full : ∀ t a, (s.threads t).pc = .move a → ∃ data link, s.heap.view a = some (some data, link))
    (safe : s.fault = false) (transition : (machine throws).Step s event s') :
    Inverted throws s event s' := by
  obtain ⟨choice, taken⟩ := transition
  cases choice with
  | run t =>
      rw [step_run safe] at taken
      exact run_effect exact_ (full t) taken
  | allocate t node => exact allocate_effect exact_ safe taken
  | throws t => exact throws_effect exact_ safe taken
  | spurious t => exact spurious_effect exact_ safe taken

end Inversion

end LockFree.Aba.Fixed
