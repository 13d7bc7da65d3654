import LockFree.Memory.Chain
import Mathlib.Data.Finmap
import Mathlib.Data.Multiset.Count

/-!
# A heap of reference-counted nodes

Every live node carries the number of references to it. The references are the
`next` fields of the live nodes and the roots, which the heap does not hold
itself: pointers in variables. `Exact` says that the counts are right for a
multiset of roots, and each operation moves references between the fields and
the roots without breaking it.

A release that takes the last reference destroys the node, which releases its
`next` in turn. `release` therefore answers with the nodes it destroyed.
-/

namespace LockFree.Memory

universe u v

/-- A live node: its content, its successor and the number of references to it. -/
structure Cell (Addr : Type u) (Data : Type v) where
  data : Data
  next : Option Addr
  uses : Nat
deriving DecidableEq, Repr

/-- The references a pointer holds. -/
def own {Addr : Type u} (pointer : Option Addr) : Multiset Addr := pointer.toList

@[simp] theorem own_none {Addr : Type u} : own (none : Option Addr) = 0 := rfl

@[simp] theorem own_some {Addr : Type u} (a : Addr) : own (some a) = {a} := rfl

@[simp] theorem count_own {Addr : Type u} [DecidableEq Addr] (pointer : Option Addr) (a : Addr) :
    (own pointer).count a = if pointer = some a then 1 else 0 := by
  cases pointer with
  | none => simp
  | some b => simp [Multiset.count_singleton, eq_comm]

/-- The live nodes. -/
abbrev Heap (Addr : Type u) (Data : Type v) := Finmap fun _ : Addr => Cell Addr Data

namespace Heap

variable {Addr : Type u} {Data : Type v} [DecidableEq Addr]

/-- What reading a node shows: its content and its successor, not the count. -/
def view (heap : Heap Addr Data) (a : Addr) : Option (Data × Option Addr) :=
  (heap.lookup a).map fun cell => (cell.data, cell.next)

/-- The successor of a live node. -/
def next (heap : Heap Addr Data) (a : Addr) : Option Addr :=
  (heap.lookup a).bind Cell.next

/-- The count of a node, zero when it is not live. -/
def uses (heap : Heap Addr Data) (a : Addr) : Nat :=
  (heap.lookup a).elim 0 Cell.uses

/-- A new node with one reference and no successor. -/
def create (heap : Heap Addr Data) (a : Addr) (data : Data) : Heap Addr Data :=
  heap.insert a ⟨data, none, 1⟩

/-- One more reference to a live node. -/
def retain (heap : Heap Addr Data) (a : Addr) : Option (Heap Addr Data) :=
  (heap.lookup a).map fun cell => heap.insert a { cell with uses := cell.uses + 1 }

/-- Copy a pointer: nothing to count when it is null. -/
def retainPtr (heap : Heap Addr Data) : Option Addr → Option (Heap Addr Data)
  | none => some heap
  | some a => heap.retain a

/-- Overwrite the successor of a live node. The references the old and the new
one stand for are moved, not counted. -/
def setNext (heap : Heap Addr Data) (a : Addr) (target : Option Addr) :
    Option (Heap Addr Data) :=
  (heap.lookup a).map fun cell => heap.insert a { cell with next := target }

/-- Overwrite the content of a live node. -/
def setData (heap : Heap Addr Data) (a : Addr) (data : Data) : Option (Heap Addr Data) :=
  (heap.lookup a).map fun cell => heap.insert a { cell with data }

/-- `release` with a bound on the number of nodes it may destroy. -/
def releaseBounded : Nat → Heap Addr Data → Addr → Option (Heap Addr Data × List Addr)
  | 0, _, _ => none
  | bound + 1, heap, a =>
      (heap.lookup a).bind fun cell =>
        if cell.uses ≤ 1 then
          match cell.next with
          | none => some (heap.erase a, [a])
          | some b => (releaseBounded bound (heap.erase a) b).map fun done => (done.1, a :: done.2)
        else
          some (heap.insert a { cell with uses := cell.uses - 1 }, [])

/-- One reference less. The last one destroys the node and releases its
successor. The answer lists the destroyed nodes in order. -/
def release (heap : Heap Addr Data) (a : Addr) : Option (Heap Addr Data × List Addr) :=
  releaseBounded (heap.keys.card + 1) heap a

/-- The number of live nodes whose successor is the node. -/
def inRefs (heap : Heap Addr Data) (a : Addr) : Nat :=
  (heap.keys.filter fun b => heap.next b = some a).card

/-- Every count is the number of roots and fields that refer to the node, and
no node without a reference is live. -/
structure Exact (heap : Heap Addr Data) (roots : Multiset Addr) : Prop where
  counted : ∀ a, heap.uses a = roots.count a + heap.inRefs a
  positive : ∀ a, a ∈ heap → 0 < heap.uses a

/-! ### Reading after an update -/

variable {heap heap' : Heap Addr Data} {roots : Multiset Addr} {a b : Addr}

theorem next_eq_view : heap.next a = (heap.view a).bind Prod.snd := by
  unfold next view
  cases heap.lookup a <;> rfl

theorem next_eq_bind : heap.next = fun a => (heap.view a).bind Prod.snd :=
  funext fun _ => next_eq_view

theorem mem_iff_view : a ∈ heap ↔ (heap.view a).isSome := by
  rw [← Finmap.lookup_isSome, view, Option.isSome_map]

theorem mem_of_next (link : heap.next a = some b) : a ∈ heap := by
  unfold next at link
  rw [Finmap.mem_iff]
  cases found : heap.lookup a with
  | none => simp [found] at link
  | some cell => exact ⟨cell, rfl⟩

theorem uses_of_notMem (dead : a ∉ heap) : heap.uses a = 0 := by
  simp [uses, Finmap.lookup_eq_none.mpr dead]

theorem mem_of_uses (counted : 0 < heap.uses a) : a ∈ heap := by
  by_contra dead
  rw [uses_of_notMem dead] at counted
  exact Nat.lt_irrefl 0 counted

/-- The referring nodes can be counted in any set that holds the live nodes. -/
theorem inRefs_eq_card {nodes : Finset Addr} (large : heap.keys ⊆ nodes) (a : Addr) :
    heap.inRefs a = (nodes.filter fun b => heap.next b = some a).card := by
  unfold inRefs
  congr 1
  ext b
  simp only [Finset.mem_filter]
  constructor
  · rintro ⟨live, link⟩
    exact ⟨large live, link⟩
  · rintro ⟨_, link⟩
    exact ⟨Finmap.mem_keys.mpr (mem_of_next link), link⟩

/-- Changing the successor of one node moves one field reference. -/
theorem inRefs_frame (heap heap' : Heap Addr Data) (n : Addr)
    (agree : ∀ b, b ≠ n → heap'.next b = heap.next b) (a : Addr) :
    heap'.inRefs a + (own (heap.next n)).count a =
      heap.inRefs a + (own (heap'.next n)).count a := by
  let others := (heap.keys ∪ heap'.keys).erase n
  have large : heap.keys ∪ heap'.keys ⊆ insert n others := by
    intro x member
    by_cases same : x = n <;> simp [others, same, Finset.mem_union.mp member]
  have split : ∀ h : Heap Addr Data, ((insert n others).filter fun b => h.next b = some a).card =
      (own (h.next n)).count a + (others.filter fun b => h.next b = some a).card := by
    intro h
    rw [Finset.filter_insert, count_own]
    by_cases link : h.next n = some a
    · rw [if_pos link, if_pos link, Finset.card_insert_of_notMem (by simp [others]), Nat.add_comm]
    · rw [if_neg link, if_neg link, Nat.zero_add]
  have same : (others.filter fun b => heap'.next b = some a) =
      others.filter fun b => heap.next b = some a := by
    refine Finset.filter_congr fun b member => ?_
    rw [agree b (Finset.ne_of_mem_erase member)]
  rw [inRefs_eq_card (Finset.subset_union_left.trans large) a,
    inRefs_eq_card (Finset.subset_union_right.trans large) a, split, split, same]
  omega

theorem inRefs_pos (link : heap.next b = some a) : 0 < heap.inRefs a :=
  Finset.card_pos.mpr ⟨b, by simp [Finmap.mem_keys.mpr (mem_of_next link), link]⟩

theorem exists_of_inRefs (counted : 0 < heap.inRefs a) : ∃ b, heap.next b = some a := by
  obtain ⟨b, member⟩ := Finset.card_pos.mp counted
  exact ⟨b, (Finset.mem_filter.mp member).2⟩

/-- A list is no longer than there are live nodes. -/
theorem lists_length_le {pointer : Option Addr} {values : List Data}
    (lists : Lists heap.view pointer values) : values.length ≤ heap.keys.card := by
  obtain ⟨path, chain, sized⟩ := lists.chain
  rw [← sized, ← List.toFinset_card_of_nodup chain.nodup]
  refine Finset.card_le_card fun a member => ?_
  obtain ⟨data, link, found, _⟩ := lists.found (chain.reaches_iff.mpr (List.mem_toFinset.mp member))
  exact Finmap.mem_keys.mpr (mem_iff_view.mpr (by simp [found]))

/-- Two nodes with the same successor count twice. -/
theorem one_lt_inRefs {c : Addr} (first : heap.next b = some a) (second : heap.next c = some a)
    (different : b ≠ c) : 1 < heap.inRefs a :=
  Finset.one_lt_card.mpr ⟨b, by simp [Finmap.mem_keys.mpr (mem_of_next first), first],
    c, by simp [Finmap.mem_keys.mpr (mem_of_next second), second], different⟩

/-! ### What an exact heap promises -/

/-- The empty heap is exact for no roots. -/
theorem exact_empty : Exact (∅ : Heap Addr Data) 0 where
  counted a := by
    rw [uses_of_notMem Finmap.notMem_empty, Multiset.count_zero, Nat.zero_add]
    exact (Nat.eq_zero_of_not_pos fun some_ => by
      obtain ⟨b, link⟩ := exists_of_inRefs some_
      exact Finmap.notMem_empty (mem_of_next link)).symm
  positive a live := absurd live Finmap.notMem_empty

/-- A root is live. -/
theorem Exact.live_of_root (exact_ : Exact heap roots) (root : a ∈ roots) : a ∈ heap := by
  apply mem_of_uses
  have counted := exact_.counted a
  have positive := Multiset.count_pos.mpr root
  omega

/-- The successor of a live node is live. -/
theorem Exact.live_of_next (exact_ : Exact heap roots) (link : heap.next b = some a) :
    a ∈ heap := by
  apply mem_of_uses
  have counted := exact_.counted a
  have positive := inRefs_pos link
  omega

/-- A live node is a root or the successor of a live node. -/
theorem Exact.referenced (exact_ : Exact heap roots) (live : a ∈ heap) :
    a ∈ roots ∨ ∃ b, heap.next b = some a := by
  have positive := exact_.positive a live
  have counted := exact_.counted a
  rcases Nat.eq_zero_or_pos (roots.count a) with none_ | some_
  · exact .inr (exists_of_inRefs (by omega))
  · exact .inl (Multiset.count_pos.mp some_)

/-- Every live node is reached from a root when the links have no cycle. -/
theorem Exact.reached (exact_ : Exact heap roots) (acyclic : Acyclic heap.next) (live : a ∈ heap) :
    ∃ root ∈ roots, Reaches heap.next (some root) a := by
  have finite : {x | x ∈ heap}.Finite :=
    heap.keys.finite_toSet.subset fun x member => Finmap.mem_keys.mpr member
  refine acyclic.pred_induction finite
    (motive := fun b => ∃ root ∈ roots, Reaches heap.next (some root) b)
    (fun b alive backward => ?_) a live
  rcases exact_.referenced alive with root | ⟨x, link⟩
  · exact ⟨b, root, .here⟩
  · obtain ⟨root, member, reaches⟩ := backward x (mem_of_next link) link
    exact ⟨root, member, reaches.snoc link⟩

/-! ### Operations keep the counts exact -/

theorem lookup_of_mem (live : a ∈ heap) : ∃ cell, heap.lookup a = some cell :=
  Finmap.mem_iff.mp live

theorem view_insert (n : Addr) (cell : Cell Addr Data) (a : Addr) :
    view (heap.insert n cell) a = if a = n then some (cell.data, cell.next) else heap.view a := by
  by_cases same : a = n
  · subst same
    simp [view]
  · simp [view, Finmap.lookup_insert_of_ne _ same, same]

theorem next_insert (n : Addr) (cell : Cell Addr Data) (a : Addr) :
    next (heap.insert n cell) a = if a = n then cell.next else heap.next a := by
  by_cases same : a = n
  · subst same
    simp [next]
  · simp [next, Finmap.lookup_insert_of_ne _ same, same]

theorem uses_insert (n : Addr) (cell : Cell Addr Data) (a : Addr) :
    uses (heap.insert n cell) a = if a = n then cell.uses else heap.uses a := by
  by_cases same : a = n
  · subst same
    simp [uses]
  · simp [uses, Finmap.lookup_insert_of_ne _ same, same]

theorem next_erase (n a : Addr) :
    next (heap.erase n) a = if a = n then none else heap.next a := by
  by_cases same : a = n
  · subst same
    simp [next]
  · simp [next, Finmap.lookup_erase_ne same, same]

theorem view_erase (n a : Addr) :
    view (heap.erase n) a = if a = n then none else heap.view a := by
  by_cases same : a = n
  · subst same
    simp [view]
  · simp [view, Finmap.lookup_erase_ne same, same]

theorem uses_erase (n a : Addr) :
    uses (heap.erase n) a = if a = n then 0 else heap.uses a := by
  by_cases same : a = n
  · subst same
    simp [uses]
  · simp [uses, Finmap.lookup_erase_ne same, same]

/-- Writing one node keeps the counts exact when the references it gains and
loses balance those the roots lose and gain. -/
theorem Exact.insert {roots' : Multiset Addr} (exact_ : Exact heap roots) (n : Addr)
    (cell : Cell Addr Data) (positive : 0 < cell.uses)
    (balance : ∀ a, (if a = n then cell.uses else heap.uses a) + roots.count a +
      (own (heap.next n)).count a = heap.uses a + roots'.count a + (own cell.next).count a) :
    Exact (Finmap.insert n cell heap) roots' where
  counted a := by
    have frame := inRefs_frame heap (heap.insert n cell) n
      (fun b different => by rw [next_insert, if_neg different]) a
    rw [next_insert, if_pos rfl] at frame
    have counted := exact_.counted a
    have balanced := balance a
    rw [uses_insert]
    omega
  positive a live := by
    rw [uses_insert]
    by_cases same : a = n
    · simpa [same] using positive
    · rw [if_neg same]
      exact exact_.positive a ((Finmap.mem_insert.mp live).resolve_left same)

theorem retain_eq {cell : Cell Addr Data} (found : heap.lookup a = some cell) :
    heap.retain a = some (heap.insert a { cell with uses := cell.uses + 1 }) := by
  simp [retain, found]

theorem setNext_eq {cell : Cell Addr Data} (found : heap.lookup a = some cell)
    (target : Option Addr) :
    heap.setNext a target = some (heap.insert a { cell with next := target }) := by
  simp [setNext, found]

theorem setData_eq {cell : Cell Addr Data} (found : heap.lookup a = some cell) (data : Data) :
    heap.setData a data = some (heap.insert a { cell with data }) := by
  simp [setData, found]

/-- Creating a node roots its one reference. -/
theorem Exact.create (exact_ : Exact heap roots) {n : Addr} (dead : n ∉ heap) (data : Data) :
    Exact (heap.create n data) (n ::ₘ roots) := by
  refine exact_.insert n _ Nat.one_pos fun a => ?_
  have unlinked : heap.next n = none := by
    simp [next, Finmap.lookup_eq_none.mpr dead]
  rw [unlinked, Multiset.count_cons]
  by_cases same : a = n
  · subst same
    simp [uses_of_notMem dead]
    omega
  · simp [same]

/-- Copying a reference to a live node adds a root and shows nothing. -/
theorem Exact.retain (exact_ : Exact heap roots) (live : a ∈ heap) :
    ∃ heap', heap.retain a = some heap' ∧ Exact heap' (a ::ₘ roots) ∧
      ∀ b, heap'.view b = heap.view b := by
  obtain ⟨cell, found⟩ := lookup_of_mem live
  refine ⟨_, retain_eq found, ?_, fun b => ?_⟩
  · refine exact_.insert a _ (Nat.succ_pos _) fun b => ?_
    have link : heap.next a = cell.next := by simp [next, found]
    rw [link, Multiset.count_cons]
    by_cases same : b = a
    · subst same
      simp [uses, found]
      omega
    · simp [same]
  · rw [view_insert]
    by_cases same : b = a
    · subst same
      simp [view, found]
    · rw [if_neg same]

/-- Copying a pointer that is null or points to a live node. -/
theorem Exact.retainPtr (exact_ : Exact heap roots) {pointer : Option Addr}
    (live : ∀ a, pointer = some a → a ∈ heap) :
    ∃ heap', heap.retainPtr pointer = some heap' ∧ Exact heap' (own pointer + roots) ∧
      ∀ b, heap'.view b = heap.view b := by
  cases pointer with
  | none => exact ⟨heap, rfl, by simpa using exact_, fun _ => rfl⟩
  | some a =>
      obtain ⟨heap', retained, exact', same⟩ := exact_.retain (live a rfl)
      exact ⟨heap', retained, by simpa using exact', same⟩

/-- Overwriting a successor moves the new reference out of the roots and the
old one into them. -/
theorem Exact.setNext {target : Option Addr} (exact_ : Exact heap (own target + roots)) {n : Addr}
    {data : Data} {old : Option Addr} (found : heap.view n = some (data, old)) :
    ∃ heap', heap.setNext n target = some heap' ∧ Exact heap' (own old + roots) ∧
      ∀ b, heap'.view b = if b = n then some (data, target) else heap.view b := by
  obtain ⟨cell, looked, same⟩ := Option.map_eq_some_iff.mp found
  cases same
  refine ⟨_, setNext_eq looked target, ?_, fun b => ?_⟩
  · have positive := exact_.positive n (Finmap.mem_iff.mpr ⟨cell, looked⟩)
    have link : heap.next n = cell.next := by simp [next, looked]
    have counts : heap.uses n = cell.uses := by simp [uses, looked]
    refine exact_.insert n _ (counts ▸ positive) fun b => ?_
    rw [link, Multiset.count_add, Multiset.count_add]
    by_cases same : b = n
    · subst same
      simp only [if_true, counts]
      omega
    · simp only [if_neg same]
      omega
  · rw [view_insert]

/-- Overwriting a content changes no reference. -/
theorem Exact.setData (exact_ : Exact heap roots) {n : Addr} {old : Data} {link : Option Addr}
    (found : heap.view n = some (old, link)) (data : Data) :
    ∃ heap', heap.setData n data = some heap' ∧ Exact heap' roots ∧
      ∀ b, heap'.view b = if b = n then some (data, link) else heap.view b := by
  obtain ⟨cell, looked, same⟩ := Option.map_eq_some_iff.mp found
  cases same
  refine ⟨_, setData_eq looked data, ?_, fun b => ?_⟩
  · have positive := exact_.positive n (Finmap.mem_iff.mpr ⟨cell, looked⟩)
    have counts : heap.uses n = cell.uses := by simp [uses, looked]
    refine exact_.insert n _ (counts ▸ positive) fun b => ?_
    have following : heap.next n = cell.next := by simp [next, looked]
    rw [following]
    by_cases same : b = n
    · subst same
      simp [counts]
    · simp [same]
  · rw [view_insert]

/-! ### Releasing -/

/-- A reference that is not the last one only lowers the count. -/
theorem release_shared {cell : Cell Addr Data} (found : heap.lookup a = some cell)
    (shared : 1 < cell.uses) :
    heap.release a = some (heap.insert a { cell with uses := cell.uses - 1 }, []) := by
  simp [release, releaseBounded, found, Nat.not_le.mpr shared]

/-- The last reference to a node without a successor destroys that node. -/
theorem release_last_none {cell : Cell Addr Data} (found : heap.lookup a = some cell)
    (last : cell.uses ≤ 1) (link : cell.next = none) :
    heap.release a = some (heap.erase a, [a]) := by
  simp [release, releaseBounded, found, last, link]

/-- The last reference to a node with a successor destroys the node and
releases the successor. -/
theorem release_last_some {cell : Cell Addr Data} (found : heap.lookup a = some cell)
    (last : cell.uses ≤ 1) (link : cell.next = some b) :
    heap.release a = (release (heap.erase a) b).map fun done => (done.1, a :: done.2) := by
  have live : a ∈ heap.keys := Finmap.mem_keys.mpr (Finmap.mem_iff.mpr ⟨cell, found⟩)
  have smaller : (heap.erase a).keys.card + 1 = heap.keys.card := by
    rw [Finmap.keys_erase, Finset.card_erase_add_one live]
  unfold release
  rw [releaseBounded, found, Option.bind_some, if_pos last, link, smaller]

/-- The effect of destroying some nodes on what reading shows. -/
structure Destroyed (before after : Heap Addr Data) (destroyed : List Addr) : Prop where
  live : ∀ a ∈ destroyed, a ∈ before
  gone : ∀ a ∈ destroyed, after.view a = none
  kept : ∀ a, a ∉ destroyed → after.view a = before.view a
  nodup : destroyed.Nodup

/-- The effect of one release: it destroys nothing while another reference is
left, and more than one node when the successor has no other reference either. -/
structure Released (before : Heap Addr Data) (a : Addr) (after : Heap Addr Data)
    (destroyed : List Addr) : Prop extends Destroyed before after destroyed where
  shared : 1 < before.uses a → destroyed = []
  single : 1 < destroyed.length → ∃ b, before.next a = some b ∧ before.uses b ≤ 1

/-- Removing a node no root and no field refers to keeps the counts exact for
the roots with the node's own successor added. -/
theorem Exact.erase {cell : Cell Addr Data} (exact_ : Exact heap (a ::ₘ roots))
    (found : heap.lookup a = some cell) (last : cell.uses ≤ 1) :
    Exact (Finmap.erase a heap) (own cell.next + roots) where
  counted b := by
    have frame := inRefs_frame heap (heap.erase a) a
      (fun x different => by rw [next_erase, if_neg different]) b
    have link : heap.next a = cell.next := by simp [next, found]
    have counts : heap.uses a = cell.uses := by simp [uses, found]
    rw [next_erase, if_pos rfl, link] at frame
    have counted := exact_.counted b
    rw [Multiset.count_cons] at counted
    rw [uses_erase, Multiset.count_add]
    by_cases same : b = a
    · subst same
      simp only [if_true] at counted ⊢
      simp only [own_none, Multiset.count_zero] at frame
      omega
    · simp only [if_neg same] at counted ⊢
      simp only [own_none, Multiset.count_zero] at frame
      omega
  positive b live := by
    obtain ⟨different, before⟩ := Finmap.mem_erase.mp live
    rw [uses_erase, if_neg different]
    exact exact_.positive b before

/-- Releasing a root keeps the counts exact and destroys only live nodes. -/
theorem Exact.release (exact_ : Exact heap (a ::ₘ roots)) :
    ∃ heap' destroyed, heap.release a = some (heap', destroyed) ∧ Exact heap' roots ∧
      Released heap a heap' destroyed := by
  induction sized : heap.keys.card generalizing heap a roots with
  | zero =>
      have live := exact_.live_of_root (Multiset.mem_cons_self a roots)
      rw [← Finmap.mem_keys, Finset.card_eq_zero.mp sized] at live
      exact absurd live (Finset.notMem_empty a)
  | succ size inductionHypothesis =>
      obtain ⟨cell, found⟩ :=
        lookup_of_mem (exact_.live_of_root (Multiset.mem_cons_self a roots))
      have live : a ∈ heap := Finmap.mem_iff.mpr ⟨cell, found⟩
      have counts : heap.uses a = cell.uses := by simp [uses, found]
      have following : heap.next a = cell.next := by simp [next, found]
      by_cases shared : 1 < cell.uses
      · refine ⟨_, [], release_shared found shared, ?_, ⟨⟨by simp, by simp, fun b _ => ?_,
          List.nodup_nil⟩, fun _ => rfl, fun several => by simp at several⟩⟩
        · refine exact_.insert a _ (by simp only; omega) fun b => ?_
          rw [following, Multiset.count_cons]
          by_cases same : b = a
          · subst same
            simp only [if_true, counts]
            omega
          · simp [same]
        · rw [view_insert]
          by_cases same : b = a
          · subst same
            simp [view, found]
          · rw [if_neg same]
      · have last : cell.uses ≤ 1 := Nat.not_lt.mp shared
        have erased := exact_.erase found last
        cases link : cell.next with
        | none =>
            rw [link, own_none, Multiset.zero_add] at erased
            refine ⟨_, [a], release_last_none found last link, erased, ⟨⟨by simpa using live, ?_,
              fun b other => ?_, List.nodup_singleton a⟩, fun many => ?_,
              fun several => by simp at several⟩⟩
            · simp [view_erase]
            · rw [view_erase, if_neg (by simpa using other)]
            · rw [counts] at many
              exact absurd many shared
        | some b =>
            rw [link, own_some, Multiset.singleton_add] at erased
            have smaller : (heap.erase a).keys.card = size := by
              rw [Finmap.keys_erase, Finset.card_erase_of_mem (Finmap.mem_keys.mpr live), sized]
              rfl
            obtain ⟨heap', destroyed, released, exact', effect⟩ :=
              inductionHypothesis erased smaller
            have other : a ∉ destroyed := fun member =>
              Finmap.notMem_erase_self (effect.live a member)
            have different : b ≠ a := fun same =>
              Finmap.notMem_erase_self
                (same ▸ erased.live_of_root (Multiset.mem_cons_self b roots))
            refine ⟨heap', a :: destroyed, ?_, exact', ⟨⟨fun x member => ?_, fun x member => ?_,
              fun x outside => ?_, ?_⟩, fun many => ?_, fun several => ?_⟩⟩
            · rw [release_last_some found last link, released, Option.map_some]
            · rcases List.mem_cons.mp member with rfl | later
              · exact live
              · exact (Finmap.mem_erase.mp (effect.live x later)).2
            · rcases List.mem_cons.mp member with rfl | later
              · rw [effect.kept x other, view_erase, if_pos rfl]
              · exact effect.gone x later
            · rw [List.mem_cons, not_or] at outside
              obtain ⟨different, outside⟩ := outside
              rw [effect.kept x outside, view_erase, if_neg different]
            · exact List.nodup_cons.mpr ⟨other, effect.nodup⟩
            · rw [counts] at many
              exact absurd many shared
            · refine ⟨b, following.trans link, ?_⟩
              by_contra many
              have none_ := effect.shared (by rw [uses_erase, if_neg different]; omega)
              simp [none_] at several

/-- What is still live was not destroyed and reads as before. -/
theorem Destroyed.view_of_mem {destroyed : List Addr} (effect : Destroyed heap heap' destroyed)
    (live : a ∈ heap') : heap'.view a = heap.view a := by
  refine effect.kept a fun member => ?_
  rw [mem_iff_view, effect.gone a member] at live
  cases live

/-- Destroying nodes adds no successor. -/
theorem Destroyed.next_sub {destroyed : List Addr} (effect : Destroyed heap heap' destroyed)
    (link : heap'.next a = some b) : heap.next a = some b := by
  rw [next_eq_view, ← effect.view_of_mem (mem_of_next link), ← next_eq_view]
  exact link

/-- What a live pointer reaches is kept. -/
theorem Destroyed.reaches {destroyed : List Addr} (effect : Destroyed heap heap' destroyed)
    (exact_ : Exact heap' roots) {pointer : Option Addr} (reaches : Reaches heap.next pointer a)
    (live : ∀ b, pointer = some b → b ∈ heap') : Reaches heap'.next pointer a ∧ a ∈ heap' := by
  induction reaches with
  | here => exact ⟨.here, live _ rfl⟩
  | @there x y _ inductionHypothesis =>
      have same : heap'.next x = heap.next x := by
        rw [next_eq_view, effect.view_of_mem (live x rfl), ← next_eq_view]
      obtain ⟨rest, kept⟩ := inductionHypothesis fun b link =>
        exact_.live_of_next (same.trans link)
      exact ⟨.there (same ▸ rest), kept⟩

/-- A list whose first node stays live is kept whole. -/
theorem Destroyed.lists {destroyed : List Addr} (effect : Destroyed heap heap' destroyed)
    (exact_ : Exact heap' roots) {pointer : Option Addr} {values : List Data}
    (lists : Lists heap.view pointer values) (live : ∀ b, pointer = some b → b ∈ heap') :
    Lists heap'.view pointer values := by
  refine lists.congr fun b reaches => ?_
  rw [← next_eq_bind] at reaches
  exact effect.view_of_mem (effect.reaches exact_ reaches live).2

end Heap

end LockFree.Memory
