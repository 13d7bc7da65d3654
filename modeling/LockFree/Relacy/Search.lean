import LockFree.Search.Tree
import Mathlib.Data.List.GetD

/-!
# The search among all schedules

`full_search_scheduler.hpp` and `context.hpp`: an iteration runs the test once,
and whenever something is left open the scheduler is asked for a number. Seen
from the scheduler, a test that does nothing else by chance is a tree.

`stree_` is the path of an iteration. From one iteration to the next it is
advanced, and when an iteration fails it is written out as text, from which a
second run takes up the search at the failure in order to collect its history.
-/

namespace LockFree.Relacy

open Search

/-- `sched_type` -/
inductive SchedType where
  | sched
  | atomicLoad
  | casFail
  | memRealloc
  | user
deriving DecidableEq, Repr

/-- `stree_node` -/
abbrev StreeNode := Node SchedType

/-- What an iteration of a test does with the answers of the scheduler, from the
choice of its first thread on. It ends in a failure, or in success. -/
abbrev Test (Failure : Type) := Tree SchedType (Option Failure)

/-- `rand` names a thread of the list. -/
def randThread {Tid : Type} : List Tid → Tree SchedType (Option Tid)
  | [] => .done none
  | t :: rest => .ask rest.length .sched fun index => .done (some ((t :: rest).getD index t))

/-- The choice of a running thread, for which `rand` is asked if there are several. -/
def chooseThread {Tid : Type} : List Tid → Tree SchedType (Option Tid)
  | [t] => .done (some t)
  | running => randThread running

section Running

variable {Tid Next : Type} {running : List Tid} {next : Option Tid}
  {further further' : Option Tid → Tree SchedType Next}

/-- `rand` can name every thread. -/
theorem yields_randThread (busy : running ≠ []) :
    (randThread running).Yields next ↔ ∃ t ∈ running, next = some t := by
  obtain ⟨t, rest, rfl⟩ := List.exists_cons_of_ne_nil busy
  simp only [randThread, Tree.yields_ask, Tree.yields_done]
  constructor
  · rintro ⟨index, bound, rfl⟩
    have inside : index < (t :: rest).length := bound
    rw [List.getD_eq_getElem _ _ inside]
    exact ⟨_, List.getElem_mem inside, rfl⟩
  · rintro ⟨v, member, rfl⟩
    obtain ⟨index, inside, rfl⟩ := List.mem_iff_getElem.mp member
    exact ⟨index, inside, by rw [List.getD_eq_getElem _ _ inside]⟩

/-- What comes after `rand` has to be known for the threads of the list only. -/
theorem randThread_congr (busy : running ≠ [])
    (same : ∀ t ∈ running, further (some t) = further' (some t)) :
    (randThread running).bind further = (randThread running).bind further' := by
  obtain ⟨t, rest, rfl⟩ := List.exists_cons_of_ne_nil busy
  simp only [randThread, Tree.bind]
  congr 1
  funext index
  apply same
  by_cases inside : index < (t :: rest).length
  · rw [List.getD_eq_getElem _ _ inside]
    exact List.getElem_mem inside
  · rw [List.getD_eq_default _ _ (Nat.le_of_not_lt inside)]
    exact List.mem_cons_self

/-- Every running thread can be chosen. -/
theorem yields_chooseThread (busy : running ≠ []) :
    (chooseThread running).Yields next ↔ ∃ t ∈ running, next = some t := by
  match running with
  | [t] => simp [chooseThread, eq_comm]
  | t :: u :: rest => exact yields_randThread busy

/-- What comes after the choice has to be known for the running threads only. -/
theorem chooseThread_congr (busy : running ≠ [])
    (same : ∀ t ∈ running, further (some t) = further' (some t)) :
    (chooseThread running).bind further = (chooseThread running).bind further' := by
  match running with
  | [t] => exact same t (List.mem_singleton_self t)
  | t :: u :: rest => exact randThread_congr busy same

end Running

/-- Why a run of the search has no result. -/
inductive Halt where
  | unverified
  | outOfFuel
deriving DecidableEq, Repr

/-- `RL_VERIFY` -/
def verify (condition : Bool) : Except Halt Unit :=
  if condition then .ok () else .error .unverified

/-- `tree_search_scheduler` -/
structure TreeSearch where
  stree : List StreeNode
  streeDepth : Nat
deriving DecidableEq, Repr

namespace TreeSearch

/-- `rand_impl` -/
def randImpl (search : TreeSearch) (limit : Nat) (t : SchedType) :
    Except Halt (Nat × TreeSearch) :=
  if search.streeDepth = search.stree.length then
    .ok (0, ⟨search.stree ++ [⟨limit, 0, t⟩], search.streeDepth + 1⟩)
  else
    match search.stree[search.streeDepth]? with
    | none => .error .unverified
    | some n => do
        verify (n.kind = t)
        verify (n.count = limit)
        verify (n.index < n.count)
        .ok (n.index, { search with streeDepth := search.streeDepth + 1 })

/-- The loop of `iteration_end_impl`, from the i-th node down. -/
def iterationEndLoop (stree : List StreeNode) : Nat → Except Halt (Option (List StreeNode))
  | 0 => .ok none
  | i + 1 =>
      match stree[i]? with
      | none => .error .unverified
      | some n =>
          if n.index ≠ n.count - 1 then do
            verify (n.index + 1 < n.count)
            .ok (some (stree.take i ++ [{ n with index := n.index + 1 }]))
          else iterationEndLoop stree i

/-- `iteration_end_impl`: the search for the next iteration, if there is one. -/
def iterationEndImpl (search : TreeSearch) : Except Halt (Option TreeSearch) := do
  verify (search.streeDepth = search.stree.length)
  let further ← iterationEndLoop search.stree search.stree.length
  .ok (further.map fun stree => { search with stree })

/-- The test with the answers of `rand_impl`. -/
def play {Failure : Type} : Test Failure → TreeSearch → Except Halt (Option Failure × TreeSearch)
  | .done result, search => .ok (result, search)
  | .ask others kind next, search => do
      let (index, search) ← search.randImpl (others + 1) kind
      play (next index) search

/-- `iteration` -/
def iteration {Failure : Type} (test : Test Failure) (search : TreeSearch) :
    Except Halt (Option Failure × TreeSearch) :=
  play test { search with streeDepth := 0 }

end TreeSearch

/-- What a run of the search ends with. -/
structure Stopped (Failure : Type) where
  testResult : Option Failure
  stopIteration : Nat
  search : TreeSearch
deriving DecidableEq, Repr

/-- `simulate2` from an iteration on. -/
def simulate2 {Failure : Type} (test : Test Failure) (second : Bool) :
    Nat → Nat → TreeSearch → Except Halt (Stopped Failure)
  | 0, _, _ => .error .outOfFuel
  | fuel + 1, iter, search => do
      let (result, search) ← search.iteration test
      match result with
      | some failure => .ok ⟨some failure, iter, search⟩
      | none => do
          verify (!second)
          match ← search.iterationEndImpl with
          | none => .ok ⟨none, iter, search⟩
          | some search => simulate2 test second fuel (iter + 1) search

/-! ### The state of the search as text -/

/-- `static_cast<unsigned>(n.type_)` -/
def SchedType.toNat : SchedType → Nat
  | .sched => 0
  | .atomicLoad => 1
  | .casFail => 2
  | .memRealloc => 3
  | .user => 4

/-- `static_cast<sched_type>(type)` -/
def SchedType.ofNat? : Nat → Option SchedType
  | 0 => some .sched
  | 1 => some .atomicLoad
  | 2 => some .casFail
  | 3 => some .memRealloc
  | 4 => some .user
  | _ => none

/-- `ss << n << " "` -/
def put (n : Nat) : List Char := Nat.toDigits 10 n ++ [' ']

/-- `std::istream`, which reads nothing any more after it has failed. -/
structure Stream where
  rest : List Char
  failed : Bool

/-- `ss >> n`, in a text without signs, as `get_state` writes it: a variable that cannot
be read is zero. -/
def Stream.get (stream : Stream) : Nat × Stream :=
  let rest := stream.rest.dropWhile Char.isWhitespace
  let digits := rest.takeWhile Char.isDigit
  if stream.failed || digits.isEmpty then (0, { stream with failed := true })
  else (Nat.ofDigitChars 10 digits 0, ⟨rest.dropWhile Char.isDigit, false⟩)

/-- `get_state_impl` -/
def TreeSearch.getStateImpl (search : TreeSearch) : List Char :=
  put search.stree.length ++
    (search.stree.map fun n => put n.count ++ put n.index ++ put n.kind.toNat).flatten

/-- The loop of `set_state_impl`. -/
def Stream.getNodes : Nat → Stream → Option (List StreeNode)
  | 0, _ => some []
  | size + 1, stream => do
      let (count, stream) := stream.get
      let (index, stream) := stream.get
      let (type, stream) := stream.get
      let kind ← SchedType.ofNat? type
      let nodes ← getNodes size stream
      some (⟨count, index, kind⟩ :: nodes)

/-- `set_state_impl` of a search that has not begun. -/
def setStateImpl (stream : Stream) : Option TreeSearch :=
  let (size, stream) := stream.get
  (stream.getNodes size).map fun stree => ⟨stree, 0⟩

/-! ### Runs of a test -/

/-- Where `context_impl::simulate` starts: at the first iteration, or at the one that
`initial_state` holds. -/
def restore (initialState : List Char) : Except Halt (Nat × TreeSearch) :=
  if initialState.isEmpty then .ok (1, ⟨[], 0⟩)
  else
    let (start, stream) := Stream.get ⟨initialState, false⟩
    match setStateImpl stream with
    | none => .error .unverified
    | some search => .ok (start, search)

/-- What `context_impl::simulate` writes after a failure. -/
def written (stopIteration : Nat) (search : TreeSearch) : List Char :=
  put stopIteration ++ search.getStateImpl

/-- `context_impl::simulate`: the end of the run, and what it writes. -/
def contextSimulate {Failure : Type} (test : Test Failure) (second collectHistory : Bool)
    (fuel : Nat) (initialState : List Char) : Except Halt (Stopped Failure × List Char) := do
  let (start, search) ← restore initialState
  let stopped ← simulate2 test second fuel start search
  .ok (stopped, if stopped.testResult.isSome && !collectHistory then
    written stopped.stopIteration stopped.search else [])

/-- `test_params`, as far as it says how the search runs. -/
structure TestParams where
  collectHistory : Bool := false
  outputHistory : Bool := false
  initialState : List Char := []

/-- The output fields of `test_params`. -/
structure Report (Failure : Type) where
  testResult : Option Failure
  stopIteration : Nat
  finalState : List Char
deriving DecidableEq, Repr

/-- `simulate` of a test. A failure of which no history has been kept is run a second
time. -/
def simulate {Failure : Type} [DecidableEq Failure] (params : TestParams) (test : Test Failure)
    (fuel : Nat) : Except Halt (Report Failure) := do
  let (stopped, written) ←
    contextSimulate test false params.collectHistory fuel params.initialState
  if stopped.testResult.isSome && !params.outputHistory && !params.collectHistory then do
    let (stopped2, _) ← contextSimulate test true true fuel written
    verify (stopped.testResult = stopped2.testResult)
    verify (stopped2.stopIteration = stopped.stopIteration)
    .ok ⟨stopped.testResult, stopped.stopIteration, written⟩
  else .ok ⟨stopped.testResult, stopped.stopIteration, []⟩

variable {Failure : Type} {test : Test Failure}

@[simp] theorem verify_true : verify true = .ok () := rfl

@[simp] theorem verify_false : verify false = .error .unverified := rfl

/-! ### One iteration -/

namespace TreeSearch

/-- The scheduler answers with the recorded node, and records the first child of a
node it has not come to before. -/
theorem randImpl_eq (passed rest : List StreeNode) (others : Nat) (kind : SchedType) :
    randImpl ⟨passed ++ rest, passed.length⟩ (others + 1) kind =
      match rest with
      | [] => .ok (0, ⟨passed ++ [⟨others + 1, 0, kind⟩], passed.length + 1⟩)
      | n :: _ =>
          if n.kind = kind ∧ n.count = others + 1 ∧ n.index < n.count then
            .ok (n.index, ⟨passed ++ rest, passed.length + 1⟩)
          else .error .unverified := by
  cases rest with
  | nil => simp [randImpl]
  | cons n rest =>
      by_cases sameKind : n.kind = kind <;> by_cases sameCount : n.count = others + 1 <;>
        by_cases bound : n.index < others + 1 <;>
        simp [randImpl, sameKind, sameCount, bound, bind, Except.bind]

/-- Below the nodes it has passed, an iteration reaches the leaf that completes the
recorded path, and leaves its path recorded. -/
theorem play_of_complete (passed : List StreeNode) {rest : List StreeNode}
    {leaf : Leaf SchedType (Option Failure)} (completed : test.complete rest = some leaf) :
    play test ⟨passed ++ rest, passed.length⟩ =
      .ok (leaf.2, ⟨passed ++ leaf.1, (passed ++ leaf.1).length⟩) := by
  induction test generalizing passed rest leaf with
  | done result =>
      cases rest with
      | nil =>
          cases completed
          simp [play, Tree.first]
      | cons => cases completed
  | ask others kind next inductionHypothesis =>
      cases rest with
      | nil =>
          cases completed
          have further := inductionHypothesis 0 (passed ++ [⟨others + 1, 0, kind⟩])
            (Tree.complete_nil (next 0))
          have asked := randImpl_eq passed [] others kind
          rw [List.append_nil] at asked
          simpa [play, asked, bind, Except.bind, Tree.first, Leaf.below] using further
      | cons n rest =>
          obtain ⟨fits, completed⟩ := Option.ite_none_right_eq_some.mp completed
          obtain ⟨below, found, rfl⟩ := Option.map_eq_some_iff.mp completed
          have further := inductionHypothesis n.index (passed ++ [n]) found
          have asked := randImpl_eq passed (n :: rest) others kind
          simp only [if_pos fits] at asked
          simpa [play, asked, bind, Except.bind, Leaf.below] using further

/-- An iteration reaches the leaf that completes the path the search has kept. -/
theorem iteration_of_complete {search : TreeSearch} {leaf : Leaf SchedType (Option Failure)}
    (completed : test.complete search.stree = some leaf) :
    search.iteration test = .ok (leaf.2, ⟨leaf.1, leaf.1.length⟩) := by
  simpa [iteration] using play_of_complete [] completed

/-- Among nodes whose child exists, the loop finds where to advance. -/
theorem iterationEndLoop_eq (path rest : List StreeNode)
    (exist : ∀ n ∈ path, n.index < n.count) :
    iterationEndLoop (path ++ rest) path.length = .ok (advance path) := by
  induction path using List.reverseRecOn generalizing rest with
  | nil => rfl
  | append_singleton path n inductionHypothesis =>
      have bound : n.index < n.count := exist n (by simp)
      have earlier : ∀ n ∈ path, n.index < n.count := by
        intro node member
        exact exist node (List.mem_append_left _ member)
      have more : n.index ≠ n.count - 1 ↔ n.index + 1 < n.count := by
        omega
      rw [advance_concat, List.length_append, List.length_singleton, iterationEndLoop]
      by_cases left : n.index + 1 < n.count
      · simp [more.mpr left, left, verify, bind, Except.bind]
      · simpa [more, left] using inductionHypothesis (n :: rest) earlier

/-- The search goes on with the leaf after the one it has reached. -/
theorem iterationEndImpl_eq {leaf : Leaf SchedType (Option Failure)} (member : leaf ∈ test.leaves) :
    iterationEndImpl ⟨leaf.1, leaf.1.length⟩ =
      .ok ((advance leaf.1).map fun stree => ⟨stree, leaf.1.length⟩) := by
  have loop := iterationEndLoop_eq leaf.1 [] fun n passed => Tree.index_lt_of_mem member passed
  rw [List.append_nil] at loop
  simp [iterationEndImpl, loop, bind, Except.bind]

end TreeSearch

/-! ### The whole search -/

/-- The search through some leaves stops at the first failure, or at the last leaf. -/
def StopsAt (leaves : List (Leaf SchedType (Option Failure))) (first : Nat)
    (stopped : Stopped Failure) : Prop :=
  ∃ before leaf after, leaves = before ++ leaf :: after ∧
    stopped = ⟨leaf.2, first + before.length, ⟨leaf.1, leaf.1.length⟩⟩ ∧
    (∀ earlier ∈ before, earlier.2 = none) ∧ (leaf.2 = none → after = [])

/-- From a leaf on, the search goes through the leaves in order until one fails. -/
theorem simulate2_stopsAt {passed rest : List (Leaf SchedType (Option Failure))}
    {leaf : Leaf SchedType (Option Failure)} {search : TreeSearch} {fuel : Nat}
    (parts : test.leaves = passed ++ leaf :: rest)
    (completed : test.complete search.stree = some leaf) (enough : rest.length < fuel)
    (iter : Nat) :
    ∃ stopped, simulate2 test false fuel iter search = .ok stopped ∧
      StopsAt (leaf :: rest) iter stopped := by
  induction rest generalizing passed leaf search fuel iter with
  | nil =>
      obtain ⟨fuel, rfl⟩ := Nat.exists_eq_add_one_of_ne_zero (Nat.ne_zero_of_lt enough)
      refine ⟨⟨leaf.2, iter, ⟨leaf.1, leaf.1.length⟩⟩, ?_, [], leaf, [], by simp⟩
      have member : leaf ∈ test.leaves := by
        simp [parts]
      have last : advance leaf.1 = none := by
        have atEnd : leaf ∈ test.leaves.getLast? := by
          simp [parts]
        exact Tree.advance_getLast? atEnd
      cases ended : leaf.2 with
      | none =>
          simp [simulate2, TreeSearch.iteration_of_complete completed, ended, bind, Except.bind,
            TreeSearch.iterationEndImpl_eq member, last]
      | some failure =>
          simp [simulate2, TreeSearch.iteration_of_complete completed, ended, bind, Except.bind]
  | cons next rest inductionHypothesis =>
      obtain ⟨fuel, rfl⟩ := Nat.exists_eq_add_one_of_ne_zero (Nat.ne_zero_of_lt enough)
      cases ended : leaf.2 with
      | some failure =>
          refine ⟨⟨some failure, iter, ⟨leaf.1, leaf.1.length⟩⟩, ?_,
            [], leaf, next :: rest, by simp [ended]⟩
          simp [simulate2, TreeSearch.iteration_of_complete completed, ended, bind, Except.bind]
      | none =>
          have member : leaf ∈ test.leaves := by
            simp [parts]
          have follows : (advance leaf.1).bind test.complete = some next := by
            have chain := parts ▸ test.isChain_leaves
            exact (List.isChain_append_cons_cons.mp chain).2.1
          obtain ⟨stree, advanced, reached⟩ := Option.bind_eq_some_iff.mp follows
          obtain ⟨stopped, ran, before, last, after, same, ends, earlier, atEnd⟩ :=
            inductionHypothesis
              (show test.leaves = (passed ++ [leaf]) ++ next :: rest by simp [parts])
              (show test.complete (TreeSearch.mk stree leaf.1.length).stree = some next
                from reached)
              (Nat.lt_of_succ_lt_succ enough) (iter + 1)
          refine ⟨stopped, ?_, leaf :: before, last, after, ?_, ?_, ?_, atEnd⟩
          · simp [simulate2, TreeSearch.iteration_of_complete completed, ended, bind, Except.bind,
              TreeSearch.iterationEndImpl_eq member, advanced, ran]
          · rw [same, List.cons_append]
          · rw [ends, List.length_cons, Nat.add_right_comm, Nat.add_assoc]
          · intro earlierLeaf among
            rcases List.mem_cons.mp among with rfl | among
            · exact ended
            · exact earlier earlierLeaf among

/-! ### The text round trip -/

theorem isWhitespace_of_isDigit {c : Char} (digit : c.isDigit = true) : c.isWhitespace = false := by
  rw [Bool.eq_false_iff]
  intro blank
  simp only [Char.isWhitespace, Bool.or_eq_true, decide_eq_true_eq] at blank
  rcases blank with ((rfl | rfl) | rfl) | rfl <;> cases digit

/-- A number that was written is read back, after blanks or not. -/
theorem Stream.get_put (blanks : List Char) (n : Nat) (rest : List Char)
    (blank : ∀ c ∈ blanks, c.isWhitespace = true) :
    Stream.get ⟨blanks ++ put n ++ rest, false⟩ = (n, ⟨' ' :: rest, false⟩) := by
  have digits : ∀ c ∈ Nat.toDigits 10 n, c.isDigit = true := by
    intro c member
    exact Nat.isDigit_of_mem_toDigits (by decide) (by decide) member
  obtain ⟨first, others, written⟩ : ∃ first others, Nat.toDigits 10 n = first :: others :=
    List.exists_cons_of_ne_nil Nat.toDigits_ne_nil
  have begins : (Nat.toDigits 10 n ++ ' ' :: rest).dropWhile Char.isWhitespace =
      Nat.toDigits 10 n ++ ' ' :: rest := by
    have solid := isWhitespace_of_isDigit (digits first (by simp [written]))
    simp [written, solid]
  have skips : (blanks ++ put n ++ rest).dropWhile Char.isWhitespace =
      Nat.toDigits 10 n ++ ' ' :: rest := by
    rw [put, List.append_assoc, List.append_assoc, List.dropWhile_append_of_pos blank]
    exact begins
  have taken : (Nat.toDigits 10 n ++ ' ' :: rest).takeWhile Char.isDigit = Nat.toDigits 10 n := by
    rw [List.takeWhile_append_of_pos digits]
    simp
  have left : (Nat.toDigits 10 n ++ ' ' :: rest).dropWhile Char.isDigit = ' ' :: rest := by
    rw [List.dropWhile_append_of_pos digits]
    simp
  simp only [Stream.get, skips, taken, left, Nat.ofDigitChars_ten_toDigits]
  simp

@[simp] theorem SchedType.ofNat?_toNat (t : SchedType) : ofNat? t.toNat = some t := by
  cases t <;> rfl

/-- Nodes that were written are read back. -/
theorem Stream.getNodes_put (stree : List StreeNode) (rest : List Char) :
    Stream.getNodes stree.length
      ⟨' ' :: ((stree.map fun n => put n.count ++ put n.index ++ put n.kind.toNat).flatten ++ rest),
        false⟩ = some stree := by
  have blank : ∀ c ∈ [' '], c.isWhitespace = true := by
    simp
  induction stree with
  | nil => rfl
  | cons n stree inductionHypothesis =>
      have count := fun rest => Stream.get_put [' '] n.count rest blank
      have index := fun rest => Stream.get_put [' '] n.index rest blank
      have type := fun rest => Stream.get_put [' '] n.kind.toNat rest blank
      simp only [List.cons_append, List.nil_append] at count index type
      simp only [List.append_assoc] at inductionHypothesis
      simp only [List.length_cons, List.map_cons, List.flatten_cons, List.append_assoc,
        Stream.getNodes, count, index, type, SchedType.ofNat?_toNat, inductionHypothesis]
      rfl

/-- The search that was written out is read back. -/
theorem setStateImpl_getStateImpl (blanks : List Char) (search : TreeSearch)
    (blank : ∀ c ∈ blanks, c.isWhitespace = true) :
    setStateImpl ⟨blanks ++ search.getStateImpl, false⟩ = some ⟨search.stree, 0⟩ := by
  have nodes := Stream.getNodes_put search.stree []
  rw [List.append_nil] at nodes
  rw [setStateImpl, TreeSearch.getStateImpl, ← List.append_assoc, Stream.get_put _ _ _ blank]
  exact congrArg (Option.map fun stree => TreeSearch.mk stree 0) nodes

/-- A run that starts from what an iteration has written starts with that iteration. -/
theorem restore_written (iter : Nat) (search : TreeSearch) :
    restore (written iter search) = .ok (iter, ⟨search.stree, 0⟩) := by
  have solid : (written iter search).isEmpty = false := by
    simp [written, put]
  have begins := Stream.get_put [] iter search.getStateImpl (by simp)
  have nodes := setStateImpl_getStateImpl [' '] search (by simp)
  simp only [List.nil_append, List.cons_append] at begins nodes
  simp only [restore, solid, Bool.false_eq_true, if_false]
  simp only [written, begins, nodes]

/-! ### Runs of a test -/

/-- What is reported of a search through some leaves, the first of which has a number. -/
def Reports (params : TestParams) (leaves : List (Leaf SchedType (Option Failure))) (first : Nat)
    (report : Report Failure) : Prop :=
  ∃ before leaf after, leaves = before ++ leaf :: after ∧
    (∀ earlier ∈ before, earlier.2 = none) ∧ (leaf.2 = none → after = []) ∧
    report = ⟨leaf.2, first + before.length,
      if leaf.2.isSome && !params.outputHistory && !params.collectHistory then
        written (first + before.length) ⟨leaf.1, leaf.1.length⟩ else []⟩

/-- The second run of a test finds the failure again, in its first iteration. -/
theorem contextSimulate_second (fuel iter : Nat) {leaf : Leaf SchedType (Option Failure)}
    {failure : Failure} (member : leaf ∈ test.leaves) (ended : leaf.2 = some failure) :
    contextSimulate test true true (fuel + 1) (written iter ⟨leaf.1, leaf.1.length⟩) =
      .ok (⟨some failure, iter, ⟨leaf.1, leaf.1.length⟩⟩, []) := by
  have completed : test.complete (TreeSearch.mk leaf.1 0).stree = some leaf :=
    Tree.complete_of_mem member
  have iterated := TreeSearch.iteration_of_complete completed
  simp [contextSimulate, restore_written, simulate2, iterated, ended, bind, Except.bind]

/-- A run that goes through some leaves from where it starts reports on them. -/
theorem simulate_reports [DecidableEq Failure] (params : TestParams) {fuel first : Nat}
    {search : TreeSearch} {passed rest : List (Leaf SchedType (Option Failure))}
    {leaf : Leaf SchedType (Option Failure)} (parts : test.leaves = passed ++ leaf :: rest)
    (starts : restore params.initialState = .ok (first, search))
    (completed : test.complete search.stree = some leaf) (enough : rest.length < fuel) :
    ∃ report, simulate params test fuel = .ok report ∧
      Reports params (leaf :: rest) first report := by
  obtain ⟨stopped, ran, before, last, after, split, rfl, earlier, atEnd⟩ :=
    simulate2_stopsAt parts completed enough first
  refine ⟨_, ?_, before, last, after, split, earlier, atEnd, rfl⟩
  obtain ⟨fuel, rfl⟩ := Nat.exists_eq_add_one_of_ne_zero (Nat.ne_zero_of_lt enough)
  have firstRun : contextSimulate test false params.collectHistory (fuel + 1) params.initialState =
      .ok (⟨last.2, first + before.length, ⟨last.1, last.1.length⟩⟩,
        if last.2.isSome && !params.collectHistory then
          written (first + before.length) ⟨last.1, last.1.length⟩ else []) := by
    simp only [contextSimulate, starts, bind, Except.bind, ran]
  rw [simulate, firstRun]
  cases ended : last.2 with
  | none => simp [bind, Except.bind]
  | some failure =>
      have member : last ∈ test.leaves := by
        simp [parts, split]
      have secondRun := contextSimulate_second fuel (first + before.length) member ended
      cases output : params.outputHistory <;> cases collect : params.collectHistory <;>
        simp [bind, Except.bind, secondRun]

/-- A run from the start reports on all leaves. -/
theorem simulate_fresh [DecidableEq Failure] (test : Test Failure)
    (collectHistory outputHistory : Bool) (spare : Nat) :
    ∃ report, simulate ⟨collectHistory, outputHistory, []⟩ test (test.leaves.length + spare) =
        .ok report ∧ Reports ⟨collectHistory, outputHistory, []⟩ test.leaves 1 report := by
  obtain ⟨rest, parts⟩ : ∃ rest, test.leaves = test.first :: rest := by
    apply List.head?_eq_some_iff.mp
    exact test.head?_leaves
  have enough : rest.length < test.leaves.length + spare := by
    rw [parts, List.length_cons]
    omega
  have reports := simulate_reports ⟨collectHistory, outputHistory, []⟩
    (show test.leaves = [] ++ test.first :: rest from parts) rfl (test.complete_nil) enough
  rwa [← parts] at reports

/-- Success is reported if no answers lead to a failure. -/
theorem Reports.succeeds_iff {params : TestParams} {first : Nat} {report : Report Failure}
    (reports : Reports params test.leaves first report) :
    report.testResult = none ↔
      ∀ answers result, test.answered answers = some result → result = none := by
  obtain ⟨before, last, after, split, earlier, atEnd, rfl⟩ := reports
  constructor
  · intro succeeded answers result led
    obtain ⟨path, member, -⟩ := Tree.answered_iff.mp led
    rw [split, atEnd succeeded, List.mem_append, List.mem_singleton] at member
    rcases member with member | rfl
    · exact earlier _ member
    · exact succeeded
  · intro all
    apply all (last.1.map Node.index) last.2
    exact Tree.answered_iff.mpr ⟨last.1, by simp [split], rfl⟩

/-- A failure is reported if answers lead to it, and no answers before them in the
order of the search lead to any. -/
theorem Reports.fails {params : TestParams} {first : Nat} {report : Report Failure}
    (reports : Reports params test.leaves first report) {failure : Failure}
    (failed : report.testResult = some failure) :
    ∃ answers, test.answered answers = some (some failure) ∧
      ∀ others another, test.answered others = some (some another) →
        others = answers ∨ List.Lex (· < ·) answers others := by
  obtain ⟨before, last, after, split, earlier, atEnd, rfl⟩ := reports
  have failed : last.2 = some failure := failed
  refine ⟨last.1.map Node.index, Tree.answered_iff.mpr ⟨last.1, ?_, rfl⟩, ?_⟩
  · rw [← failed]
    simp [split]
  · intro others another led
    obtain ⟨path, member, rfl⟩ := Tree.answered_iff.mp led
    have ordered := test.pairwise_leaves
    rw [split] at member ordered
    rcases List.mem_append.mp member with member | member
    · cases earlier _ member
    · rcases List.mem_cons.mp member with rfl | member
      · exact .inl rfl
      · exact .inr (List.rel_of_pairwise_cons (List.pairwise_append.mp ordered).2.1 member)

/-- **The full search decides a test.** It comes to an end without a failed
assertion. It has run the outcomes of the test in order, each of them once, up to the
first failure or to the last one. It reports success, after as many iterations as the
test has outcomes, if and only if no answers of the scheduler make the test fail; a
failure it reports is that of the lexicographically first answers which do. -/
theorem search_exhaustive [DecidableEq Failure] (test : Test Failure)
    (collectHistory outputHistory : Bool) (spare : Nat) :
    ∃ report, simulate ⟨collectHistory, outputHistory, []⟩ test (test.leaves.length + spare) =
        .ok report ∧
      Reports ⟨collectHistory, outputHistory, []⟩ test.leaves 1 report ∧
      (report.testResult = none ↔
        ∀ answers result, test.answered answers = some result → result = none) ∧
      (report.testResult = none → report.stopIteration = test.leaves.length) ∧
      ∀ failure, report.testResult = some failure → ∃ answers,
        test.answered answers = some (some failure) ∧
        ∀ others another, test.answered others = some (some another) →
          others = answers ∨ List.Lex (· < ·) answers others := by
  obtain ⟨report, ran, reports⟩ := simulate_fresh test collectHistory outputHistory spare
  refine ⟨report, ran, reports, reports.succeeds_iff, ?_, fun failure => reports.fails⟩
  obtain ⟨before, last, after, split, _, atEnd, rfl⟩ := reports
  intro succeeded
  simp only [split, atEnd succeeded, List.length_append, List.length_singleton]
  omega

/-- **A saved search goes on where it was.** From the text that was written for an
iteration, the search runs that iteration again under the number it had, and after it
those that follow, none twice. When the iteration is the one that failed, it fails again
at once. -/
theorem search_resumes [DecidableEq Failure] (test : Test Failure)
    (index : Fin test.leaves.length) (iter spare : Nat) (collectHistory outputHistory : Bool) :
    ∃ report, simulate ⟨collectHistory, outputHistory,
        written iter ⟨(test.leaves.get index).1, (test.leaves.get index).1.length⟩⟩ test
        (test.leaves.length - index + spare) = .ok report ∧
      Reports ⟨collectHistory, outputHistory, []⟩ (test.leaves.drop index) iter report ∧
      ∀ failure, (test.leaves.get index).2 = some failure →
        report.testResult = some failure ∧ report.stopIteration = iter := by
  have parts : test.leaves = test.leaves.take index ++
      test.leaves.get index :: test.leaves.drop (index + 1) := by
    simp
  have completed : test.complete (TreeSearch.mk (test.leaves.get index).1 0).stree =
      some (test.leaves.get index) :=
    Tree.complete_of_mem (List.get_mem ..)
  have enough : (test.leaves.drop (index + 1)).length < test.leaves.length - index + spare := by
    rw [List.length_drop]
    omega
  obtain ⟨report, ran, before, last, after, split, earlier, atEnd, rfl⟩ := simulate_reports
    ⟨collectHistory, outputHistory,
      written iter ⟨(test.leaves.get index).1, (test.leaves.get index).1.length⟩⟩ parts
    (restore_written iter _) completed enough
  refine ⟨_, ran, ⟨before, last, after, ?_, earlier, atEnd, rfl⟩, ?_⟩
  · rw [← split]
    simp
  · intro failure failed
    cases before with
    | nil =>
        obtain ⟨rfl, -⟩ := List.cons_eq_cons.mp split
        exact ⟨failed, rfl⟩
    | cons head before =>
        obtain ⟨rfl, -⟩ := List.cons_eq_cons.mp split
        have succeeded := earlier (test.leaves.get index) (List.mem_cons_self ..)
        rw [failed] at succeeded
        cases succeeded

end LockFree.Relacy
