import Mathlib.Data.List.Chain
import Mathlib.Data.List.Flatten
import Mathlib.Data.List.Range

/-!
# Depth-first search of a tree of choices

A deterministic computation that asks its environment for numbers is a tree: a
node names the limit of the number it asks for, and the number picks the child.
A search that keeps nothing but the path to the leaf it has reached last finds
the next leaf from that path alone: it drops the nodes at the end that have no
child left, moves the one before them to its next child, and takes the first
child from there on.
-/

namespace LockFree.Search

/-- A computation that asks for numbers. There is always a number to answer
with: the limit is one more than `others`. -/
inductive Tree (Kind Result : Type) where
  | done (result : Result)
  | ask (others : Nat) (kind : Kind) (next : Nat → Tree Kind Result)

/-- A question with its limit, and the child that was taken. -/
structure Node (Kind : Type) where
  count : Nat
  index : Nat
  kind : Kind
deriving DecidableEq, Repr

/-- The path to a leaf, and what the leaf holds. -/
abbrev Leaf (Kind Result : Type) := List (Node Kind) × Result

variable {Kind Result : Type}

/-- The leaf below a node. -/
def Leaf.below (node : Node Kind) (leaf : Leaf Kind Result) : Leaf Kind Result :=
  (node :: leaf.1, leaf.2)

namespace Tree

/-- All leaves, in the order of the answers that lead to them. -/
def leaves : Tree Kind Result → List (Leaf Kind Result)
  | done result => [([], result)]
  | ask others kind next =>
      ((List.range (others + 1)).map fun index =>
        (next index).leaves.map (Leaf.below ⟨others + 1, index, kind⟩)).flatten

/-- The result under given answers. There is none when the computation asks for
fewer numbers or for more, or when an answer exceeds its limit. -/
def answered : Tree Kind Result → List Nat → Option Result
  | done result, [] => some result
  | done _, _ :: _ => none
  | ask .., [] => none
  | ask others _ next, index :: rest =>
      if index < others + 1 then (next index).answered rest else none

/-- Some answers lead to the result. -/
def Yields : Tree Kind Result → Result → Prop
  | done held, result => held = result
  | ask others _ next, result => ∃ index < others + 1, (next index).Yields result

/-- Go on with the result. -/
def bind {Next : Type} : Tree Kind Result → (Result → Tree Kind Next) → Tree Kind Next
  | done result, further => further result
  | ask others kind next, further => ask others kind fun index => (next index).bind further

/-- The leaf reached by taking the first child everywhere. -/
def first : Tree Kind Result → Leaf Kind Result
  | done result => ([], result)
  | ask others kind next => (next 0).first.below ⟨others + 1, 0, kind⟩

/-- The leaf reached along a path and by taking the first child after it. There
is none when the path does not fit the questions. -/
def complete [DecidableEq Kind] : Tree Kind Result → List (Node Kind) → Option (Leaf Kind Result)
  | tree, [] => some tree.first
  | done _, _ :: _ => none
  | ask others kind next, node :: rest =>
      if node.kind = kind ∧ node.count = others + 1 ∧ node.index < node.count then
        ((next node.index).complete rest).map (Leaf.below node)
      else none

@[simp] theorem complete_nil [DecidableEq Kind] (tree : Tree Kind Result) :
    tree.complete [] = some tree.first := by
  cases tree <;> rfl

end Tree

/-- The start of the path to the next leaf. -/
def advance : List (Node Kind) → Option (List (Node Kind))
  | [] => none
  | node :: rest =>
      match advance rest with
      | some further => some (node :: further)
      | none => if node.index + 1 < node.count then some [{ node with index := node.index + 1 }]
          else none

theorem advance_cons_of_some {node : Node Kind} {rest further : List (Node Kind)}
    (advanced : advance rest = some further) : advance (node :: rest) = some (node :: further) := by
  simp only [advance, advanced]

theorem advance_cons_of_none {node : Node Kind} {rest : List (Node Kind)}
    (last : advance rest = none) :
    advance (node :: rest) =
      if node.index + 1 < node.count then some [{ node with index := node.index + 1 }]
      else none := by
  simp only [advance, last]

/-- Read from the end, the last node that has a child left is the one that moves. -/
theorem advance_concat (path : List (Node Kind)) (node : Node Kind) :
    advance (path ++ [node]) =
      if node.index + 1 < node.count then some (path ++ [{ node with index := node.index + 1 }])
      else advance path := by
  induction path with
  | nil => rfl
  | cons head rest inductionHypothesis =>
      rw [List.cons_append, advance, inductionHypothesis]
      by_cases more : node.index + 1 < node.count
      · simp only [if_pos more, List.cons_append]
      · simp only [if_neg more, advance]

namespace Tree

variable {tree : Tree Kind Result} {leaf : Leaf Kind Result}

/-! ### Results -/

@[simp] theorem yields_done {held result : Result} :
    (done held : Tree Kind Result).Yields result ↔ held = result := Iff.rfl

@[simp] theorem yields_ask {others : Nat} {kind : Kind} {next : Nat → Tree Kind Result}
    {result : Result} :
    (ask others kind next).Yields result ↔ ∃ index < others + 1, (next index).Yields result :=
  Iff.rfl

/-- The results of a computation that goes on. -/
@[simp] theorem yields_bind {Next : Type} {further : Result → Tree Kind Next} {result : Next} :
    (tree.bind further).Yields result ↔
      ∃ middle, tree.Yields middle ∧ (further middle).Yields result := by
  induction tree with
  | done held => simp [bind]
  | ask others kind next inductionHypothesis =>
      simp only [bind, yields_ask, inductionHypothesis]
      constructor
      · rintro ⟨index, bound, middle, first, last⟩
        exact ⟨middle, ⟨index, bound, first⟩, last⟩
      · rintro ⟨middle, ⟨index, bound, first⟩, last⟩
        exact ⟨index, bound, middle, first, last⟩

/-- To go on twice is to go on with what goes on. -/
theorem bind_bind {Next Last : Type} (tree : Tree Kind Result) (further : Result → Tree Kind Next)
    (last : Next → Tree Kind Last) :
    (tree.bind further).bind last = tree.bind fun result => (further result).bind last := by
  induction tree with
  | done held => rfl
  | ask others kind next inductionHypothesis => simp only [bind, inductionHypothesis]

/-- What a computation yields is what its answers lead to. -/
theorem yields_iff {result : Result} :
    tree.Yields result ↔ ∃ answers, tree.answered answers = some result := by
  induction tree with
  | done held =>
      constructor
      · rintro rfl
        exact ⟨[], rfl⟩
      · rintro ⟨answers, led⟩
        cases answers with
        | nil => exact Option.some.inj led
        | cons => cases led
  | ask others kind next inductionHypothesis =>
      constructor
      · rintro ⟨index, bound, yields⟩
        obtain ⟨answers, led⟩ := (inductionHypothesis index).mp yields
        exact ⟨index :: answers, by simp [answered, bound, led]⟩
      · rintro ⟨answers, led⟩
        cases answers with
        | nil => cases led
        | cons index answers =>
            obtain ⟨bound, led⟩ := Option.ite_none_right_eq_some.mp led
            exact ⟨index, bound, (inductionHypothesis index).mpr ⟨answers, led⟩⟩

/-! ### The leaves -/

/-- The leaves below a question are those of its children, in order. -/
theorem mem_leaves_ask {others : Nat} {kind : Kind} {next : Nat → Tree Kind Result} :
    leaf ∈ (ask others kind next).leaves ↔ ∃ index < others + 1, ∃ rest ∈ (next index).leaves,
      Leaf.below ⟨others + 1, index, kind⟩ rest = leaf := by
  simp [leaves]

/-- The search starts at the first leaf. -/
theorem head?_leaves (tree : Tree Kind Result) : tree.leaves.head? = some tree.first := by
  induction tree with
  | done result => rfl
  | ask others kind next inductionHypothesis =>
      have begins : (next 0).leaves.map (Leaf.below ⟨others + 1, 0, kind⟩) ≠ [] := by
        intro none
        have empty := List.map_eq_nil_iff.mp none
        simpa [empty] using inductionHypothesis 0
      rw [leaves, List.range_succ_eq_map, List.map_cons, List.flatten_cons,
        List.head?_append_of_ne_nil _ begins, List.head?_map, inductionHypothesis 0]
      rfl

/-- Every tree has a leaf. -/
theorem leaves_ne_nil (tree : Tree Kind Result) : tree.leaves ≠ [] := by
  intro none
  simpa [none] using tree.head?_leaves

/-- The children on the path to a leaf exist. -/
theorem index_lt_of_mem {node : Node Kind} (member : leaf ∈ tree.leaves)
    (passed : node ∈ leaf.1) : node.index < node.count := by
  induction tree generalizing leaf with
  | done result =>
      obtain rfl := List.mem_singleton.mp member
      cases passed
  | ask others kind next inductionHypothesis =>
      obtain ⟨index, bound, rest, within, rfl⟩ := mem_leaves_ask.mp member
      rcases List.mem_cons.mp passed with rfl | passed
      · exact bound
      · exact inductionHypothesis index within passed

/-- A leaf is found again along its path. -/
theorem complete_of_mem [DecidableEq Kind] (member : leaf ∈ tree.leaves) :
    tree.complete leaf.1 = some leaf := by
  induction tree generalizing leaf with
  | done result =>
      obtain rfl := List.mem_singleton.mp member
      rfl
  | ask others kind next inductionHypothesis =>
      obtain ⟨index, bound, rest, within, rfl⟩ := mem_leaves_ask.mp member
      simp [Leaf.below, complete, bound, inductionHypothesis index within]

/-- Below the last leaf there is nothing to go on to. -/
theorem advance_getLast? (last : leaf ∈ tree.leaves.getLast?) : advance leaf.1 = none := by
  induction tree generalizing leaf with
  | done result =>
      obtain rfl : ([], result) = leaf := by simpa [leaves] using last
      rfl
  | ask others kind next inductionHypothesis =>
      have ends : (next others).leaves.map (Leaf.below ⟨others + 1, others, kind⟩) ≠ [] := by
        intro none
        exact leaves_ne_nil _ (List.map_eq_nil_iff.mp none)
      rw [leaves, List.range_succ, List.map_append, List.map_singleton, List.flatten_append,
        List.flatten_singleton, List.getLast?_append_of_ne_nil _ ends, List.getLast?_map] at last
      obtain ⟨rest, member, rfl⟩ := Option.map_eq_some_iff.mp last
      simp [Leaf.below, advance_cons_of_none (inductionHypothesis others member)]

/-- From every leaf but the last the search goes on to the next one. -/
theorem isChain_leaves [DecidableEq Kind] (tree : Tree Kind Result) :
    tree.leaves.IsChain fun leaf further => (advance leaf.1).bind tree.complete = some further := by
  induction tree with
  | done result => exact List.isChain_singleton _
  | ask others kind next inductionHypothesis =>
      rw [leaves, List.isChain_flatten]
      · constructor
        · intro group member
          obtain ⟨index, bound, rfl⟩ := List.mem_map.mp member
          rw [List.isChain_map]
          apply (inductionHypothesis index).imp
          intro leaf further follows
          obtain ⟨path, advanced, completed⟩ := Option.bind_eq_some_iff.mp follows
          have bound := List.mem_range.mp bound
          simp [Leaf.below, advance_cons_of_some advanced, complete, bound, completed]
        · rw [List.isChain_map, List.isChain_iff_getElem]
          intro index bound last isLast further isFurther
          simp only [List.length_range] at bound
          simp only [List.getElem_range, List.getLast?_map, List.head?_map, Option.mem_def,
            Option.map_eq_some_iff, head?_leaves, Option.some.injEq] at isLast isFurther
          obtain ⟨leaf, isLast, rfl⟩ := isLast
          obtain ⟨_, rfl, rfl⟩ := isFurther
          simp [Leaf.below, advance_cons_of_none (advance_getLast? isLast), bound, complete]
      · intro empty
        obtain ⟨index, -, none⟩ := List.mem_map.mp empty
        exact leaves_ne_nil _ (List.map_eq_nil_iff.mp none)

/-! ### Leaves and answers -/

/-- Every path to a leaf is a sequence of answers, and every sequence of answers
leads to a leaf. -/
theorem answered_iff {answers : List Nat} {result : Result} :
    tree.answered answers = some result ↔
      ∃ path, (path, result) ∈ tree.leaves ∧ path.map Node.index = answers := by
  induction tree generalizing answers with
  | done held =>
      cases answers with
      | nil =>
          simp only [answered, leaves, List.mem_singleton, Prod.mk.injEq, Option.some.injEq]
          constructor
          · rintro rfl
            exact ⟨[], ⟨rfl, rfl⟩, rfl⟩
          · rintro ⟨_, ⟨-, rfl⟩, -⟩
            rfl
      | cons => simp [answered, leaves]
  | ask others kind next inductionHypothesis =>
      cases answers with
      | nil =>
          simp only [answered, mem_leaves_ask, List.map_eq_nil_iff, false_iff, reduceCtorEq]
          rintro ⟨_, ⟨index, bound, rest, member, same⟩, rfl⟩
          exact List.cons_ne_nil _ _ (congrArg Prod.fst same)
      | cons index rest =>
          constructor
          · intro led
            obtain ⟨bound, led⟩ := Option.ite_none_right_eq_some.mp led
            obtain ⟨path, member, rfl⟩ := (inductionHypothesis index).mp led
            exact ⟨⟨others + 1, index, kind⟩ :: path,
              mem_leaves_ask.mpr ⟨index, bound, (path, result), member, rfl⟩, rfl⟩
          · rintro ⟨_, member, answers⟩
            obtain ⟨index, bound, ⟨path, held⟩, within, same⟩ := mem_leaves_ask.mp member
            cases same
            cases answers
            simp only [answered, bound, if_true]
            exact (inductionHypothesis index).mpr ⟨path, within, rfl⟩

/-- The leaves are in the lexicographic order of the answers that lead to them. -/
theorem pairwise_leaves (tree : Tree Kind Result) :
    tree.leaves.Pairwise fun leaf further =>
      List.Lex (· < ·) (leaf.1.map Node.index) (further.1.map Node.index) := by
  induction tree with
  | done result => exact List.pairwise_singleton _ _
  | ask others kind next inductionHypothesis =>
      rw [leaves, List.pairwise_flatten]
      constructor
      · intro group member
        obtain ⟨index, -, rfl⟩ := List.mem_map.mp member
        rw [List.pairwise_map]
        apply (inductionHypothesis index).imp
        intro leaf further lower
        exact .cons lower
      · rw [List.pairwise_map]
        apply List.pairwise_lt_range.imp
        intro index larger lower leaf member further later
        obtain ⟨leaf, -, rfl⟩ := List.mem_map.mp member
        obtain ⟨further, -, rfl⟩ := List.mem_map.mp later
        exact .rel lower

end Tree

end LockFree.Search
