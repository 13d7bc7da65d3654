import Mathlib.Data.List.Nodup
import Mathlib.Logic.Function.Basic
import Mathlib.Logic.Relation
import Mathlib.Order.WellFoundedSet

/-!
# Chains of linked nodes

Nodes are addresses with at most one successor. A pointer starts a `Chain` when
following the successors from it comes to a null pointer; the chain lists the
addresses passed. Acyclicity is a property of all successors at once and does
not need every chain to end.
-/

namespace LockFree.Memory

universe u

variable {Addr : Type u}

/-- The addresses passed from a pointer to the end of its list. -/
inductive Chain (next : Addr → Option Addr) : Option Addr → List Addr → Prop where
  | nil : Chain next none []
  | cons {a path} (rest : Chain next (next a) path) : Chain next (some a) (a :: path)

/-- A node lies on the way from a pointer. -/
inductive Reaches (next : Addr → Option Addr) : Option Addr → Addr → Prop where
  | here {a} : Reaches next (some a) a
  | there {a b} (rest : Reaches next (next a) b) : Reaches next (some a) b

/-- No node comes back to itself. -/
def Acyclic (next : Addr → Option Addr) : Prop :=
  ∀ a, ¬ Relation.TransGen (fun x y => next x = some y) a a

variable {next next' : Addr → Option Addr} {pointer : Option Addr} {path path' : List Addr}
  {a b : Addr}

/-- A pointer has at most one chain. -/
theorem Chain.unique (first : Chain next pointer path) (second : Chain next pointer path') :
    path = path' := by
  induction first generalizing path' with
  | nil => cases second; rfl
  | cons _ inductionHypothesis =>
      cases second with
      | cons rest => rw [inductionHypothesis rest]

/-- A chain from an address begins with it. -/
theorem Chain.uncons (chain : Chain next (some a) path) :
    ∃ rest, path = a :: rest ∧ Chain next (next a) rest := by
  cases chain with
  | cons rest => exact ⟨_, rfl, rest⟩

/-- Each node on a chain starts a part of it. -/
theorem Chain.suffix (chain : Chain next pointer path) (member : a ∈ path) :
    ∃ rest, Chain next (some a) rest ∧ rest.length ≤ path.length ∧ ∀ x ∈ rest, x ∈ path := by
  induction chain with
  | nil => cases member
  | @cons first path rest inductionHypothesis =>
      rcases List.mem_cons.mp member with rfl | later
      · exact ⟨_, .cons rest, Nat.le_refl _, fun x inside => inside⟩
      · obtain ⟨suffix, chain, short, inside⟩ := inductionHypothesis later
        exact ⟨suffix, chain, Nat.le_succ_of_le short,
          fun x member => List.mem_cons_of_mem _ (inside x member)⟩

/-- A chain passes no node twice. -/
theorem Chain.nodup (chain : Chain next pointer path) : path.Nodup := by
  induction chain with
  | nil => exact List.nodup_nil
  | @cons a path rest inductionHypothesis =>
      refine List.nodup_cons.mpr ⟨fun member => ?_, inductionHypothesis⟩
      obtain ⟨suffix, again, short, _⟩ := rest.suffix member
      have same := (Chain.cons rest).unique again
      rw [← same, List.length_cons] at short
      omega

/-- The nodes reached from a pointer are those on its chain. -/
theorem Chain.reaches_iff (chain : Chain next pointer path) :
    Reaches next pointer a ↔ a ∈ path := by
  constructor
  · intro reaches
    induction reaches generalizing path with
    | here =>
        obtain ⟨rest, rfl, _⟩ := chain.uncons
        exact List.mem_cons_self
    | there _ inductionHypothesis =>
        obtain ⟨rest, rfl, tail⟩ := chain.uncons
        exact List.mem_cons_of_mem _ (inductionHypothesis tail)
  · intro member
    induction chain with
    | nil => cases member
    | cons rest inductionHypothesis =>
        rcases List.mem_cons.mp member with rfl | later
        · exact .here
        · exact .there (inductionHypothesis later)

/-- One more successor at the end of the way. -/
theorem Reaches.snoc (reaches : Reaches next pointer a) (link : next a = some b) :
    Reaches next pointer b := by
  induction reaches with
  | here =>
      refine .there ?_
      rw [link]
      exact .here
  | there _ inductionHypothesis => exact .there (inductionHypothesis link)

/-- The way from a pointer depends on the successors of the nodes on it only. -/
theorem Reaches.congr (reaches : Reaches next pointer a)
    (agree : ∀ x, Reaches next pointer x → next' x = next x) : Reaches next' pointer a := by
  induction reaches with
  | here => exact .here
  | there _ inductionHypothesis =>
      refine .there ?_
      rw [agree _ .here]
      exact inductionHypothesis fun x rest => agree x (.there rest)

/-- The way from a pointer is the same when the successors of the nodes that were
on it are. -/
theorem Reaches.of_congr (reaches : Reaches next' pointer a)
    (agree : ∀ x, Reaches next pointer x → next' x = next x) : Reaches next pointer a := by
  induction reaches with
  | here => exact .here
  | there _ inductionHypothesis =>
      refine .there ?_
      rw [agree _ .here] at inductionHypothesis
      exact inductionHypothesis fun x rest => agree x (.there rest)

/-- More successors reach more. -/
theorem Reaches.mono (reaches : Reaches next pointer a)
    (more : ∀ x y, next x = some y → next' x = some y) : Reaches next' pointer a := by
  induction reaches with
  | here => exact .here
  | @there x b rest inductionHypothesis =>
      cases link : next x with
      | none => rw [link] at rest; cases rest
      | some y =>
          refine .there ?_
          rw [more x y link, ← link]
          exact inductionHypothesis

/-- A reached node is where the pointer points or the successor of a reached one. -/
theorem Reaches.pointer_or_pred (reaches : Reaches next pointer b) :
    pointer = some b ∨ ∃ a, Reaches next pointer a ∧ next a = some b := by
  induction reaches with
  | here => exact .inl rfl
  | @there a b rest inductionHypothesis =>
      rcases inductionHypothesis with link | ⟨x, before, link⟩
      · exact .inr ⟨a, .here, link⟩
      · exact .inr ⟨x, .there before, link⟩

/-- Fewer successors make no cycle. -/
theorem Acyclic.sub (acyclic : Acyclic next)
    (fewer : ∀ a b, next' a = some b → next a = some b) : Acyclic next' :=
  fun a cycle => acyclic a (Relation.TransGen.mono fewer a a cycle)

/-- Setting the successor of a node to which nothing points makes no cycle. -/
theorem Acyclic.set {n : Addr} (acyclic : Acyclic next)
    (agree : ∀ a, a ≠ n → next' a = next a) (unreferenced : ∀ a, next' a ≠ some n) :
    Acyclic next' := by
  -- no edge of the new graph ends in `n`, so a cycle avoids it and was there before
  have old : ∀ x y, Relation.TransGen (fun x y => next' x = some y) x y → x ≠ n →
      Relation.TransGen (fun x y => next x = some y) x y := by
    intro x y way
    induction way using Relation.TransGen.head_induction_on with
    | single edge =>
        intro different
        rw [agree _ different] at edge
        exact .single edge
    | @head x z edge _ inductionHypothesis =>
        intro different
        have middle : z ≠ n := fun same => unreferenced x (same ▸ edge)
        rw [agree _ different] at edge
        exact .head edge (inductionHypothesis middle)
  intro a cycle
  obtain ⟨x, _, edge⟩ := Relation.TransGen.tail'_iff.mp cycle
  exact acyclic a (old a a cycle fun same => unreferenced x (same ▸ edge))

/-- Going back along the links from any of finitely many nodes comes to an end. -/
theorem Acyclic.pred_induction (acyclic : Acyclic next) {nodes : Set Addr} (finite : nodes.Finite)
    {motive : Addr → Prop}
    (backward : ∀ b ∈ nodes, (∀ a ∈ nodes, next a = some b → motive a) → motive b) :
    ∀ a ∈ nodes, motive a := by
  have strict : IsStrictOrder Addr (Relation.TransGen fun x y => next x = some y) :=
    { irrefl := acyclic, trans := fun _ _ _ => Relation.TransGen.trans }
  intro a member
  refine finite.wellFoundedOn.induction (r := Relation.TransGen fun x y => next x = some y)
    member fun b inside before => ?_
  exact backward b inside fun x xInside edge => before x xInside (.single edge)

/-- The successor of a node does not lead back to it. -/
theorem Acyclic.not_reaches (acyclic : Acyclic next) (a : Addr) : ¬ Reaches next (next a) a := by
  have way : ∀ {pointer b}, Reaches next pointer b → ∀ x, next x = pointer →
      Relation.TransGen (fun x y => next x = some y) x b := by
    intro pointer b reaches
    induction reaches with
    | here => exact fun x link => .single link
    | @there y b rest inductionHypothesis =>
        exact fun x link => .head link (inductionHypothesis y rfl)
  exact fun reaches => acyclic a (way reaches a rfl)

section Lists

universe v

variable {Data : Type v} {view view' : Addr → Option (Data × Option Addr)}
  {values values' : List Data}

/-- The data met on the way from a pointer to the end of its list. A view gives
the data and the successor of every node that can be read. -/
inductive Lists (view : Addr → Option (Data × Option Addr)) : Option Addr → List Data → Prop where
  | nil : Lists view none []
  | cons {a data link values} (found : view a = some (data, link))
      (rest : Lists view link values) : Lists view (some a) (data :: values)

/-- A pointer lists one sequence of data at most. -/
theorem Lists.unique (first : Lists view pointer values) (second : Lists view pointer values') :
    values = values' := by
  induction first generalizing values' with
  | nil => cases second; rfl
  | cons found _ inductionHypothesis =>
      cases second with
      | cons again rest =>
          rw [found] at again
          cases again
          rw [inductionHypothesis rest]

/-- A null pointer stores nothing. -/
theorem Lists.eq_nil (lists : Lists view none values) : values = [] := by
  cases lists
  rfl

/-- A list depends on the nodes it reaches only. -/
theorem Lists.congr (lists : Lists view pointer values)
    (agree : ∀ a, Reaches (fun a => (view a).bind Prod.snd) pointer a → view' a = view a) :
    Lists view' pointer values := by
  induction lists with
  | nil => exact .nil
  | @cons a data link values found _ inductionHypothesis =>
      refine .cons ((agree a .here).trans found) (inductionHypothesis fun b reaches => ?_)
      exact agree b (.there (by rw [found]; exact reaches))

/-- Every node a list reaches can be read and shows one of its data. -/
theorem Lists.found (lists : Lists view pointer values)
    (reaches : Reaches (fun a => (view a).bind Prod.snd) pointer a) :
    ∃ data link, view a = some (data, link) ∧ data ∈ values := by
  induction lists with
  | nil => cases reaches
  | @cons b data link values found _ inductionHypothesis =>
      cases reaches with
      | here => exact ⟨data, link, found, List.mem_cons_self⟩
      | there rest =>
          rw [found] at rest
          obtain ⟨data', link', found', member⟩ := inductionHypothesis rest
          exact ⟨data', link', found', List.mem_cons_of_mem _ member⟩

/-- The nodes of a list form a chain. -/
theorem Lists.chain (lists : Lists view pointer values) :
    ∃ path, Chain (fun a => (view a).bind Prod.snd) pointer path ∧
      path.length = values.length := by
  induction lists with
  | nil => exact ⟨[], .nil, rfl⟩
  | @cons a data link values found _ inductionHypothesis =>
      obtain ⟨path, chain, sized⟩ := inductionHypothesis
      exact ⟨a :: path, .cons (by rw [found]; exact chain), by simp [sized]⟩

end Lists

end LockFree.Memory
