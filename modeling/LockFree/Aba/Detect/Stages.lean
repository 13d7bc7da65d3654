import LockFree.Aba.Detect.Effects

/-!
# While `t1` has not unlinked a node

Until the compare-exchange of `t1` succeeds only `t2` changes the stack, and how
far `t2` has come says what `head`, the first three blocks and the free list of
`t2` hold. `t1` has read one of the three nodes, and the `next` it has read is
one the block has had by then.
-/

namespace LockFree.Aba.Detect

open Raw (Addr Pc)

/-- The first three nodes of the list that `main` has filled. -/
structure Top where
  first : Addr
  second : Addr
  third : Addr
  firstData : Int
  secondData : Int
  thirdData : Int
  rest : Option Addr
  first_ne_second : first ≠ second
  first_ne_third : first ≠ third
  second_ne_third : second ≠ third

/-- How far `t2` has come. -/
inductive Stage where
  | untouched
  | firstUnlinked
  | firstFreed
  | secondUnlinked
  | secondFreed
  | constructed
  | allocated
  | assigned
  | published
deriving DecidableEq, Repr

namespace Stage

/-- The place of a stage in their order. -/
def rank : Stage → Nat
  | .untouched => 0
  | .firstUnlinked => 1
  | .firstFreed => 2
  | .secondUnlinked => 3
  | .secondFreed => 4
  | .constructed => 5
  | .allocated => 6
  | .assigned => 7
  | .published => 8

variable (top : Top)

/-- The first node of the stack. -/
def head : Stage → Addr
  | .untouched | .published => top.first
  | .firstUnlinked | .firstFreed => top.second
  | .secondUnlinked | .secondFreed | .constructed | .allocated | .assigned => top.third

/-- The block of the node that `t2` pops first, in which it pushes. -/
def firstBlock : Stage → Raw.Block Int
  | .untouched | .firstUnlinked => .live top.firstData (some top.second)
  | .firstFreed | .secondUnlinked | .secondFreed | .constructed =>
      .freed top.firstData (some top.second)
  | .allocated => .live 5 none
  | .assigned | .published => .live 5 (some top.third)

/-- The block of the node that `t2` pops second, in which it constructs `node(666)`. -/
def secondBlock : Stage → Raw.Block Int
  | .untouched | .firstUnlinked | .firstFreed | .secondUnlinked =>
      .live top.secondData (some top.third)
  | .secondFreed => .freed top.secondData (some top.third)
  | .constructed | .allocated | .assigned | .published => .live 666 none

/-- The blocks that `t2` has freed and not got back. -/
def freed : Stage → List Addr
  | .firstFreed | .secondUnlinked | .constructed => [top.first]
  | .secondFreed => [top.second, top.first]
  | .untouched | .firstUnlinked | .allocated | .assigned | .published => []

/-- The variable `n` of `main`. -/
def n : Stage → Option Addr
  | .constructed | .allocated | .assigned | .published => some top.second
  | .untouched | .firstUnlinked | .firstFreed | .secondUnlinked | .secondFreed => none

/-- The block in which `t2` has constructed a node whose `next` is not assigned. -/
def building : Stage → Option Addr
  | .allocated => some top.first
  | .untouched | .firstUnlinked | .firstFreed | .secondUnlinked | .secondFreed | .constructed
  | .assigned | .published => none

end Stage

/-- What a state holds at a stage. -/
structure Facts (top : Top) (stage : Stage) (s : State) : Prop where
  head : s.stack.head = some (stage.head top)
  firstBlock : s.stack.memory top.first = stage.firstBlock top
  secondBlock : s.stack.memory top.second = stage.secondBlock top
  thirdBlock : s.stack.memory top.third = .live top.thirdData top.rest
  freed : s.freed .t2 = stage.freed top
  n : s.n = stage.n top

/-- Where `t2` is at a stage: the calls it has still to make, and its position. -/
inductive Script (top : Top) : Stage → List (Call Int) → Pc Int → Prop where
  | start : Script top .untouched [.pop, .pop, .push 5] .idle
  | loadFirst : Script top .untouched [.pop, .push 5] .popLoad
  | testFirst : Script top .untouched [.pop, .push 5] (.test (some top.first))
  | exchangeFirst :
      Script top .untouched [.pop, .push 5] (.exchange top.first (some top.second))
  | moveFirst : Script top .firstUnlinked [.pop, .push 5] (.move top.first)
  | deleteFirst : Script top .firstUnlinked [.pop, .push 5] (.delete top.first top.firstData)
  | leaveFirst : Script top .firstFreed [.pop, .push 5] (.leave (.value top.firstData))
  | between : Script top .firstFreed [.pop, .push 5] .idle
  | loadSecond : Script top .firstFreed [.push 5] .popLoad
  | testSecond : Script top .firstFreed [.push 5] (.test (some top.second))
  | exchangeSecond : Script top .firstFreed [.push 5] (.exchange top.second (some top.third))
  | moveSecond : Script top .secondUnlinked [.push 5] (.move top.second)
  | deleteSecond : Script top .secondUnlinked [.push 5] (.delete top.second top.secondData)
  | leaveSecond : Script top .secondFreed [.push 5] (.leave (.value top.secondData))
  | construct : Script top .secondFreed [.push 5] .idle
  | constructed : Script top .constructed [.push 5] .idle
  | make : Script top .constructed [] (.make 5)
  | load : Script top .allocated [] (.load 5 top.first)
  | assign : Script top .allocated [] (.assign 5 top.first (some top.third))
  | publish : Script top .assigned [] (.publish 5 top.first)
  | leave : Script top .published [] (.leave .done)
  | finished : Script top .published [] .idle

variable {top : Top} {stage : Stage} {s : State}

/-- A step that leaves `head`, the memory and the free blocks of `t2` leaves the facts. -/
theorem Facts.quiet {s' : State} (facts : Facts top stage s)
    (head : s'.stack.head = s.stack.head) (memory : s'.stack.memory = s.stack.memory)
    (freed : s'.freed .t2 = s.freed .t2) (n : s'.n = s.n) : Facts top stage s' where
  head := head.trans facts.head
  firstBlock := memory ▸ facts.firstBlock
  secondBlock := memory ▸ facts.secondBlock
  thirdBlock := memory ▸ facts.thirdBlock
  freed := freed.trans facts.freed
  n := n.trans facts.n

/-- A step of `t2` on the stack, as long as `t1` has not unlinked a node. -/
theorem Script.step {event : Raw.Event Who Int} {stack : Raw.State Who Int}
    (facts : Facts top stage s)
    (script : Script top stage (s.stack.threads .t2).calls (s.stack.threads .t2).pc)
    (effect : Raw.Effect s.stack event stack) (thread : event.thread = .t2)
    (provided : Provided s event) (ready : s.ready .t2 = true)
    (notFaulted : event ≠ .faulted event.thread) :
    ∃ stage', Facts top stage' { s with stack, freed := freedAfter s.freed event } ∧
      Script top stage' (stack.threads .t2).calls (stack.threads .t2).pc ∧
      stage.rank ≤ stage'.rank ∧
      ∀ w : Watch, w.building = stage.building top →
        (w.after (.stack event)).building = stage'.building top ∧
          (w.after (.stack event)).early = w.early := by
  generalize calls : (s.stack.threads .t2).calls = todo at script
  have ne := top.first_ne_second
  have ne' := top.first_ne_third
  have ne'' := top.second_ne_third
  cases effect with
  | @called t call rest pc next =>
      obtain rfl : t = .t2 := thread
      rw [pc] at script
      refine ⟨stage, facts.quiet rfl rfl rfl rfl, ?_, Nat.le_refl _, fun w same => ⟨same, rfl⟩⟩
      have split := next.symm.trans calls
      cases script with
      | start | between | constructed =>
          cases split
          simp only [Function.update_self]
          constructor
      | construct => simp [State.ready, State.atConstruct, calls, pc, facts.n, Stage.n] at ready
      | finished => cases split
  | @made t data n pc fresh =>
      obtain rfl : t = .t2 := thread
      rw [pc] at script
      cases script with
      | make =>
          have freed := facts.freed
          obtain rfl : n = top.first := by
            simpa [Provided, State.answers, freed, Stage.freed] using provided
          refine ⟨.allocated, ⟨facts.head, ?_, ?_, ?_, ?_, facts.n⟩, ?_, by decide,
            fun w _ => ⟨rfl, rfl⟩⟩
          · simp [Stage.firstBlock]
          · simpa [Ne.symm ne, Stage.secondBlock] using facts.secondBlock
          · simpa [Ne.symm ne'] using facts.thirdBlock
          · simp [freedAfter, freed, Stage.freed]
          · rw [Raw.put_calls, Raw.put_threads_self, calls]
            exact .load
  | @loadedPush t data n value pc seen =>
      obtain rfl : t = .t2 := thread
      rw [pc] at script
      refine ⟨stage, facts.quiet rfl rfl rfl rfl, ?_, Nat.le_refl _, fun w same => ⟨same, rfl⟩⟩
      rw [Raw.put_calls, Raw.put_threads_self, calls]
      cases script with
      | load =>
          have loaded : value = some top.third := provided.trans facts.head
          exact loaded ▸ .assign
  | @assigned t data n loaded content previous pc found =>
      obtain rfl : t = .t2 := thread
      rw [pc] at script
      cases script with
      | assign =>
          have block := Raw.view_eq_some.mp found
          rw [facts.firstBlock] at block
          cases block
          refine ⟨.assigned, ⟨facts.head, ?_, ?_, ?_, facts.freed, facts.n⟩, ?_, by decide,
            fun w _ => ⟨rfl, rfl⟩⟩
          · simp [Stage.firstBlock]
          · simpa [Ne.symm ne, Stage.secondBlock] using facts.secondBlock
          · simpa [Ne.symm ne'] using facts.thirdBlock
          · rw [Raw.put_calls, Raw.put_threads_self, calls]
            exact .publish
  | @published t data n content pc found =>
      obtain rfl : t = .t2 := thread
      rw [pc] at script
      cases script with
      | publish =>
          refine ⟨.published, ⟨rfl, facts.firstBlock, facts.secondBlock, facts.thirdBlock,
            facts.freed, facts.n⟩, ?_, by decide, fun w same => ⟨same, rfl⟩⟩
          rw [Raw.setHead_threads, Raw.put_calls, Raw.put_threads_self, calls]
          exact .leave
  | @pushFailed t data n content expected spurious pc found flag =>
      obtain rfl : t = .t2 := thread
      rw [pc] at script
      cases script with
      | publish =>
          have block := Raw.view_eq_some.mp found
          rw [facts.firstBlock] at block
          cases block
          refine ⟨.assigned, ⟨facts.head, ?_, ?_, ?_, facts.freed, facts.n⟩, ?_, by decide,
            fun w same => ⟨same, rfl⟩⟩
          · simp [Stage.firstBlock, facts.head, Stage.head]
          · simpa [Ne.symm ne, Stage.secondBlock] using facts.secondBlock
          · simpa [Ne.symm ne'] using facts.thirdBlock
          · rw [Raw.put_calls, Raw.put_threads_self, calls]
            exact .publish
  | @loadedPop t pc =>
      obtain rfl : t = .t2 := thread
      rw [pc] at script
      refine ⟨stage, facts.quiet rfl rfl rfl rfl, ?_, Nat.le_refl _, fun w same => ⟨same, rfl⟩⟩
      rw [Raw.put_calls, Raw.put_threads_self, calls, facts.head]
      cases script with
      | loadFirst => exact .testFirst
      | loadSecond => exact .testSecond
  | @foundEmpty t pc =>
      obtain rfl : t = .t2 := thread
      rw [pc] at script
      cases script
  | @readNext t a value pc shown =>
      obtain rfl : t = .t2 := thread
      rw [pc] at script
      refine ⟨stage, facts.quiet rfl rfl rfl rfl, ?_, Nat.le_refl _, fun w same => ⟨same, rfl⟩⟩
      have shown : value = (s.stack.memory a).link := provided
      rw [Raw.put_calls, Raw.put_threads_self, calls]
      cases script with
      | testFirst =>
          rw [facts.firstBlock] at shown
          exact shown ▸ .exchangeFirst
      | testSecond =>
          rw [facts.secondBlock] at shown
          exact shown ▸ .exchangeSecond
  | @unlinked t a next pc at_ =>
      obtain rfl : t = .t2 := thread
      rw [pc] at script
      cases script with
      | exchangeFirst =>
          refine ⟨.firstUnlinked, ⟨rfl, facts.firstBlock, facts.secondBlock, facts.thirdBlock,
            facts.freed, facts.n⟩, ?_, by decide, fun w same => ⟨same, rfl⟩⟩
          rw [Raw.setHead_threads, Raw.put_calls, Raw.put_threads_self, calls]
          exact .moveFirst
      | exchangeSecond =>
          refine ⟨.secondUnlinked, ⟨rfl, facts.firstBlock, facts.secondBlock, facts.thirdBlock,
            facts.freed, facts.n⟩, ?_, by decide, fun w same => ⟨same, rfl⟩⟩
          rw [Raw.setHead_threads, Raw.put_calls, Raw.put_threads_self, calls]
          exact .moveSecond
  | @popFailed t a next spurious pc flag =>
      obtain rfl : t = .t2 := thread
      rw [pc] at script
      refine ⟨stage, facts.quiet rfl rfl rfl rfl, ?_, Nat.le_refl _, fun w same => ⟨same, rfl⟩⟩
      rw [Raw.put_calls, Raw.put_threads_self, calls, facts.head]
      cases script with
      | exchangeFirst => exact .testFirst
      | exchangeSecond => exact .testSecond
  | @moved t a data next pc found =>
      obtain rfl : t = .t2 := thread
      rw [pc] at script
      refine ⟨stage, facts.quiet rfl rfl rfl rfl, ?_, Nat.le_refl _, fun w same => ⟨same, rfl⟩⟩
      have block := Raw.view_eq_some.mp found
      rw [Raw.put_calls, Raw.put_threads_self, calls]
      cases script with
      | moveFirst =>
          rw [facts.firstBlock] at block
          cases block
          exact .deleteFirst
      | moveSecond =>
          rw [facts.secondBlock] at block
          cases block
          exact .deleteSecond
  | @deleted t a tmp data next pc found =>
      obtain rfl : t = .t2 := thread
      rw [pc] at script
      have block := Raw.view_eq_some.mp found
      cases script with
      | deleteFirst =>
          rw [facts.firstBlock] at block
          cases block
          refine ⟨.firstFreed, ⟨facts.head, ?_, ?_, ?_, ?_, facts.n⟩, ?_, by decide,
            fun w same => ⟨same, rfl⟩⟩
          · simp [Stage.firstBlock]
          · simpa [Ne.symm ne, Stage.secondBlock] using facts.secondBlock
          · simpa [Ne.symm ne'] using facts.thirdBlock
          · simp [freedAfter, facts.freed, Stage.freed]
          · rw [Raw.put_calls, Raw.put_threads_self, calls]
            exact .leaveFirst
      | deleteSecond =>
          rw [facts.secondBlock] at block
          cases block
          refine ⟨.secondFreed, ⟨facts.head, ?_, ?_, ?_, ?_, facts.n⟩, ?_, by decide,
            fun w same => ⟨same, rfl⟩⟩
          · simpa [ne, Stage.firstBlock] using facts.firstBlock
          · simp [Stage.secondBlock]
          · simpa [Ne.symm ne''] using facts.thirdBlock
          · simp [freedAfter, facts.freed, Stage.freed]
          · rw [Raw.put_calls, Raw.put_threads_self, calls]
            exact .leaveSecond
  | @returned t result pc =>
      obtain rfl : t = .t2 := thread
      rw [pc] at script
      refine ⟨stage, facts.quiet rfl rfl rfl rfl, ?_, Nat.le_refl _, fun w same => ⟨same, rfl⟩⟩
      rw [Raw.put_calls, Raw.put_threads_self, calls]
      cases script with
      | leaveFirst => exact .between
      | leaveSecond => exact .construct
      | leave => exact .finished
  | faulted => exact absurd rfl notFaulted

/-- `t2` constructs `node(666)`, as long as `t1` has not unlinked a node. -/
theorem Facts.constructed {node : Addr} (facts : Facts top stage s)
    (script : Script top stage (s.stack.threads .t2).calls (s.stack.threads .t2).pc)
    (at_ : s.atConstruct = true) (first : s.n = none) (answers : s.answers .t2 node = true) :
    ∃ stage', Facts top stage' (construct s node).2 ∧
      Script top stage' (s.stack.threads .t2).calls (s.stack.threads .t2).pc ∧
      stage.rank ≤ stage'.rank ∧ stage.building top = none ∧ stage'.building top = none := by
  simp only [State.atConstruct, Bool.and_eq_true, decide_eq_true_eq] at at_
  obtain ⟨calls, pc⟩ := at_
  rw [calls, pc] at script ⊢
  cases script with
  | construct =>
      have freed := facts.freed
      obtain rfl : node = top.second := by
        simpa [State.answers, freed, Stage.freed] using answers
      refine ⟨.constructed, ⟨facts.head, ?_, ?_, ?_, ?_, rfl⟩, .constructed, by decide, rfl, rfl⟩
      · simpa [construct, top.first_ne_second, Stage.firstBlock] using facts.firstBlock
      · simp [construct, Stage.secondBlock]
      · simpa [construct, Ne.symm top.second_ne_third] using facts.thirdBlock
      · simp [construct, freed, Stage.freed]
  | constructed =>
      rw [facts.n] at first
      cases first

/-! ### The reader -/

/-- A node that `head` has pointed to by a stage of that rank. -/
def Seen (top : Top) (rank : Nat) (a : Addr) : Prop :=
  a = top.first ∨ (a = top.second ∧ 1 ≤ rank) ∨ (a = top.third ∧ 3 ≤ rank)

/-- The `next` that `t1` may have read of a node by a stage of that rank, early
when the node that `t2` pushes was not yet assigned its `next`. -/
inductive Read (top : Top) (rank : Nat) : Bool → Addr → Option Addr → Prop where
  | popped : Read top rank false top.first (some top.second)
  | constructed (late : 6 ≤ rank) : Read top rank true top.first none
  | assigned (late : 7 ≤ rank) : Read top rank false top.first (some top.third)
  | second {next} (late : 1 ≤ rank) (value : rank ≤ 4 → next = some top.third) :
      Read top rank false top.second next
  | third (late : 3 ≤ rank) : Read top rank false top.third top.rest

/-- Where `t1` is while its compare-exchange has not succeeded: the calls it has
still to make, its position, and whether it read early. -/
inductive Reader (top : Top) (rank : Nat) : Bool → List (Call Int) → Pc Int → Prop where
  | start {early} : Reader top rank early [.pop] .idle
  | load {early} : Reader top rank early [] .popLoad
  | test {early a} (seen : Seen top rank a) : Reader top rank early [] (.test (some a))
  | exchange {early a next} (read : Read top rank early a next) :
      Reader top rank early [] (.exchange a next)

variable {rank rank' : Nat} {early : Bool} {calls : List (Call Int)} {pc : Pc Int}

/-- What `t1` has read by a stage it has read by a later one. -/
theorem Reader.mono (reader : Reader top rank early calls pc) (later : rank ≤ rank') :
    Reader top rank' early calls pc := by
  cases reader with
  | start => exact .start
  | load => exact .load
  | test seen =>
      rcases seen with first | ⟨second, late⟩ | ⟨third, late⟩
      · exact .test (.inl first)
      · exact .test (.inr (.inl ⟨second, Nat.le_trans late later⟩))
      · exact .test (.inr (.inr ⟨third, Nat.le_trans late later⟩))
  | exchange read =>
      refine .exchange ?_
      cases read with
      | popped => exact .popped
      | constructed late => exact .constructed (Nat.le_trans late later)
      | assigned late => exact .assigned (Nat.le_trans late later)
      | second late value =>
          exact .second (Nat.le_trans late later) fun short => value (Nat.le_trans later short)
      | third late => exact .third (Nat.le_trans late later)

/-- What `head` points to has been seen. -/
theorem Stage.seen_head (stage : Stage) : Seen top stage.rank (stage.head top) := by
  cases stage <;> simp [Seen, Stage.rank, Stage.head]

/-- What a block shows may have been read of it. -/
theorem Facts.read {a : Addr} (facts : Facts top stage s) (seen : Seen top stage.rank a) :
    Read top stage.rank (stage.building top = some a) a (s.stack.memory a).link := by
  rcases seen with rfl | ⟨rfl, late⟩ | ⟨rfl, late⟩
  · rw [facts.firstBlock]
    cases stage with
    | allocated =>
        simpa [Stage.building, Stage.firstBlock, Raw.Block.link] using
          Read.constructed (show 6 ≤ Stage.allocated.rank by decide)
    | assigned =>
        simpa [Stage.building, Stage.firstBlock, Raw.Block.link] using
          Read.assigned (show 7 ≤ Stage.assigned.rank by decide)
    | published =>
        simpa [Stage.building, Stage.firstBlock, Raw.Block.link] using
          Read.assigned (show 7 ≤ Stage.published.rank by decide)
    | _ => simpa [Stage.building, Stage.firstBlock, Raw.Block.link] using Read.popped
  · have notBuilding : stage.building top ≠ some top.second := by
      cases stage <;> simp [Stage.building, top.first_ne_second]
    rw [facts.secondBlock, decide_eq_false notBuilding]
    refine .second late fun short => ?_
    cases stage <;> simp_all [Stage.secondBlock, Raw.Block.link, Stage.rank]
  · have notBuilding : stage.building top ≠ some top.third := by
      cases stage <;> simp [Stage.building, top.first_ne_third]
    rw [facts.thirdBlock, decide_eq_false notBuilding]
    exact .third late

/-- What a successful compare-exchange of `t1` installs: the `next` of the first
node, or, once `t2` has pushed, the node it popped second or a null pointer that
was read early. -/
theorem Facts.installs {next : Option Addr} (facts : Facts top stage s)
    (read : Read top stage.rank early (stage.head top) next) :
    (s.stack.next (stage.head top) = next ∧ early = false) ∨
      (stage = .published ∧ s.stack.next (stage.head top) = some top.third ∧
        ((next = some top.second ∧ early = false) ∨ (next = none ∧ early = true))) := by
  generalize head : stage.head top = a at read ⊢
  have first : s.stack.next top.first = (stage.firstBlock top).view.bind Prod.snd := by
    rw [Raw.State.next, Raw.State.view, facts.firstBlock]
  have second : s.stack.next top.second = (stage.secondBlock top).view.bind Prod.snd := by
    rw [Raw.State.next, Raw.State.view, facts.secondBlock]
  cases read with
  | popped =>
      rw [first]
      cases stage with
      | untouched => exact .inl ⟨rfl, rfl⟩
      | published => exact .inr ⟨rfl, rfl, .inl ⟨rfl, rfl⟩⟩
      | firstUnlinked | firstFreed => exact absurd head.symm top.first_ne_second
      | _ => exact absurd head.symm top.first_ne_third
  | constructed late =>
      rw [first]
      cases stage with
      | published => exact .inr ⟨rfl, rfl, .inr ⟨rfl, rfl⟩⟩
      | allocated | assigned => exact absurd head.symm top.first_ne_third
      | _ => simp [Stage.rank] at late
  | assigned late =>
      rw [first]
      cases stage with
      | published => exact .inl ⟨rfl, rfl⟩
      | assigned => exact absurd head.symm top.first_ne_third
      | _ => simp [Stage.rank] at late
  | second late value =>
      rw [second]
      cases stage with
      | firstUnlinked | firstFreed => exact .inl ⟨(value (by decide)).symm, rfl⟩
      | untouched | published => exact absurd head top.first_ne_second
      | _ => exact absurd head.symm top.second_ne_third
  | third late =>
      refine .inl ⟨?_, rfl⟩
      rw [Raw.State.next, Raw.State.view, facts.thirdBlock]
      rfl

/-- A step of `t1` that does not unlink a node. -/
theorem Reader.step {event : Raw.Event Who Int} {stack : Raw.State Who Int} {w : Watch}
    (facts : Facts top stage s)
    (reader : Reader top stage.rank w.early (s.stack.threads .t1).calls (s.stack.threads .t1).pc)
    (building : w.building = stage.building top) (effect : Raw.Effect s.stack event stack)
    (thread : event.thread = .t1) (provided : Provided s event)
    (notUnlinked : ∀ a installed actual, event ≠ .unlinked .t1 a installed actual)
    (notFaulted : event ≠ .faulted event.thread) :
    Facts top stage { s with stack, freed := freedAfter s.freed event } ∧
      Reader top stage.rank (w.after (.stack event)).early
        (stack.threads .t1).calls (stack.threads .t1).pc ∧
      (w.after (.stack event)).building = w.building := by
  generalize calls : (s.stack.threads .t1).calls = todo at reader
  cases effect with
  | @called t call rest pc next =>
      obtain rfl : t = .t1 := thread
      rw [pc] at reader
      refine ⟨facts.quiet rfl rfl rfl rfl, ?_, rfl⟩
      have split := next.symm.trans calls
      cases reader with
      | start =>
          cases split
          simp only [Function.update_self]
          exact .load
  | @loadedPop t pc =>
      obtain rfl : t = .t1 := thread
      rw [pc] at reader
      refine ⟨facts.quiet rfl rfl rfl rfl, ?_, rfl⟩
      rw [Raw.put_calls, Raw.put_threads_self, calls, facts.head]
      cases reader with
      | load => exact .test stage.seen_head
  | @readNext t a value pc shown =>
      obtain rfl : t = .t1 := thread
      rw [pc] at reader
      refine ⟨facts.quiet rfl rfl rfl rfl, ?_, rfl⟩
      have shown : value = (s.stack.memory a).link := provided
      rw [Raw.put_calls, Raw.put_threads_self, calls, shown]
      cases reader with
      | test seen =>
          refine .exchange ?_
          simp only [Watch.after, building]
          exact facts.read seen
  | @popFailed t a next spurious pc flag =>
      obtain rfl : t = .t1 := thread
      rw [pc] at reader
      refine ⟨facts.quiet rfl rfl rfl rfl, ?_, rfl⟩
      rw [Raw.put_calls, Raw.put_threads_self, calls, facts.head]
      cases reader with
      | exchange read => exact .test stage.seen_head
  | @unlinked t a next pc at_ =>
      obtain rfl : t = .t1 := thread
      exact absurd rfl (notUnlinked a next _)
  | faulted => exact absurd rfl notFaulted
  | made pc | loadedPush pc | assigned pc | published pc | pushFailed pc | foundEmpty pc | moved pc
  | deleted pc | returned pc =>
      obtain rfl := thread
      rw [pc] at reader
      cases reader

end LockFree.Aba.Detect
