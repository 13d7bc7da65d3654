import LockFree.Aba.Raw.Machine

/-!
# The detector of `aba_detect.cpp`

One round of the loop of `main`, from the start of the two threads on: `t1` pops
once, `t2` pops twice, constructs `node(666)` and pushes 5, and `main` pops after
both joins. The stack is that of `aba.cpp`; its steps interleave, so that a load
sees the present `head`.

Of the heap the model assumes what `heap_reuse.cpp` probes: `new` answers with
the block the thread freed last, or with one never used when there is none, and
a freed block keeps its contents until a node is constructed in it again.
-/

namespace LockFree.Aba.Detect

/-- The threads of the program. -/
inductive Who where
  | t1
  | t2
  | main
deriving DecidableEq, Repr

/-- The stack, the blocks each thread has freed and not got back, the last one
first, and the variable `n` of `main`. -/
structure State where
  stack : Raw.State Who Int
  freed : Who → List Raw.Addr
  n : Option Raw.Addr

/-- What one step shows. -/
inductive Event where
  | stack (event : Raw.Event Who Int)
  | constructed (node : Raw.Addr)
deriving DecidableEq, Repr

/-- What the program leaves open: a step of the stack, or `n = new node(666)`. -/
inductive Choice where
  | stack (choice : Raw.Choice Who)
  | construct (node : Raw.Addr)
deriving DecidableEq, Repr

/-- The calls on the stack. -/
def program : Who → List (Call Int)
  | .t1 => [.pop]
  | .t2 => [.pop, .pop, .push 5]
  | .main => [.pop]

/-- Whether `new` answers with a block in a thread. -/
def State.answers (s : State) (t : Who) (node : Raw.Addr) : Bool :=
  match s.freed t with
  | [] => s.stack.memory node = .unused
  | last :: _ => node = last

/-- A thread has come to its end. -/
def State.joined (s : State) (t : Who) : Bool :=
  (s.stack.threads t).calls = [] && (s.stack.threads t).pc = .idle

/-- `t2` is between its pops and its push. -/
def State.atConstruct (s : State) : Bool :=
  (s.stack.threads .t2).calls = [.push 5] && (s.stack.threads .t2).pc = .idle

/-- Whether a thread may take a step on the stack: `t2` pushes after it has
constructed `node(666)`, `main` pops after both joins. -/
def State.ready (s : State) : Who → Bool
  | .t1 => true
  | .t2 => !s.atConstruct || s.n.isSome
  | .main => s.joined .t1 && s.joined .t2

/-- What the heap and the memory answer. -/
def State.provides (s : State) : Raw.Choice Who → Bool
  | .allocate t node => s.answers t node
  | .see _ value => value = s.stack.head
  | .stale t value =>
      match (s.stack.threads t).pc with
      | .test (some oldHead) => value = (s.stack.memory oldHead).link
      | _ => false
  | _ => true

/-- The blocks each thread has freed and not got back after a step on the stack. -/
def freedAfter (freed : Who → List Raw.Addr) : Raw.Event Who Int → Who → List Raw.Addr
  | .made t _ => Function.update freed t (freed t).tail
  | .deleted t node => Function.update freed t (node :: freed t)
  | _ => freed

/-- `n = new node(666)`. -/
def construct (s : State) (node : Raw.Addr) : Event × State :=
  (.constructed node,
    { stack := { s.stack with memory := Function.update s.stack.memory node (.live 666 none) }
      freed := Function.update s.freed .t2 (s.freed .t2).tail
      n := some node })

/-- One atomic step. -/
def step? (s : State) : Choice → Option (Event × State)
  | .stack choice =>
      if s.ready choice.thread && s.provides choice then
        (Raw.step? s.stack choice).map fun taken =>
          (.stack taken.1, { s with stack := taken.2, freed := freedAfter s.freed taken.1 })
      else none
  | .construct node =>
      if s.atConstruct && s.n.isNone && s.answers .t2 node && (s.stack.view node).isNone
          && !s.stack.fault then
        some (construct s node)
      else none

/-- The program. -/
def machine : System State Event := .ofStep? step?

/-- The memory that holds a list of nodes. -/
def filled : List (Raw.Addr × Int) → Raw.Addr → Raw.Block Int
  | [] => fun _ => .unused
  | (a, data) :: rest =>
      Function.update (filled rest) a (.live data (rest.head?.map Prod.fst))

/-- The stack that `main` has filled, when it starts the threads. -/
def initial (nodes : List (Raw.Addr × Int)) : State where
  stack :=
    { memory := filled nodes
      head := nodes.head?.map Prod.fst
      past := [nodes.head?.map Prod.fst]
      threads := fun t => ⟨program t, .idle⟩
      fault := false }
  freed _ := []
  n := none

/-- The verdict of `main` is right: its pop does not throw, and returns 666 just
when `t1` installed another pointer than the `next` of the first node. -/
def Exact (events : List Event) : Prop :=
  ∀ result, .stack (.returned .main result) ∈ events →
    result ≠ .outOfRange ∧
      (result = .value 666 ↔ ∃ node installed actual,
        .stack (.unlinked .t1 node installed actual) ∈ events ∧ installed ≠ actual)

/-- The block in which the push of `t2` has constructed its node and not yet
assigned the `next`, and whether the last read of `old_head->next` by `t1` was
of that block. -/
structure Watch where
  building : Option Raw.Addr
  early : Bool
deriving DecidableEq, Repr

/-- The watch after one more event. -/
def Watch.after (watch : Watch) : Event → Watch
  | .stack (.made .t2 node) => { watch with building := some node }
  | .stack (.assigned .t2 _) => { watch with building := none }
  | .stack (.readNext .t1 node _) => { watch with early := watch.building = some node }
  | _ => watch

/-- The watch after the events of a run. -/
def watch (events : List Event) : Watch := events.foldl Watch.after ⟨none, false⟩

/-- `t1` last read `old_head->next` between the construction of the node that
`t2` pushes in that block and the assignment of its `next`. -/
def EarlyRead (events : List Event) : Prop := (watch events).early = true

end LockFree.Aba.Detect
