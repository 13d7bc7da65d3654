import LockFree.Aba.Lifo
import LockFree.Memory.Chain
import Mathlib.Data.Fintype.Basic

/-!
# The raw-pointer stack of `aba.cpp`

`aba_sync.cpp` and `aba_detect.cpp` have the same `push` and `pop`. The model
steps one thread at a time, with the same atomic actions as the model of the
reference-counted stack, and a `delete` in place of the releases.

What the program does not control is left open: `new` may answer with any block
that is not in use, the relaxed load at the start of `push` may see any earlier
value of `head`, and reading `old_head->next` in a deleted node may show
anything.
-/

namespace LockFree.Aba.Raw

/-- The address of a block. -/
abbrev Addr := Nat

/-- A block: never used, in use by a node, or freed. A freed block still holds
what was last written to it. -/
inductive Block (T : Type) where
  | unused
  | live (data : T) (next : Option Addr)
  | freed (data : T) (next : Option Addr)
deriving DecidableEq, Repr

/-- Where a thread stands in `push` or `pop`. -/
inductive Pc (T : Type) where
  /-- Between two calls. -/
  | idle
  /-- `push`: about to evaluate `new node<T>(data)`. -/
  | make (data : T)
  /-- `push`: about to load `head`. -/
  | load (data : T) (newNode : Addr)
  /-- `push`: about to store the loaded pointer in `new_node->next`. -/
  | assign (data : T) (newNode : Addr) (loaded : Option Addr)
  /-- `push`: about to evaluate `head.compare_exchange_weak(new_node->next, new_node)`. -/
  | publish (data : T) (newNode : Addr)
  /-- `pop`: about to load `head`. -/
  | popLoad
  /-- `pop`: about to evaluate the loop condition, up to the read of `old_head->next`. -/
  | test (oldHead : Option Addr)
  /-- `pop`: about to perform the compare-exchange. -/
  | exchange (oldHead : Addr) (next : Option Addr)
  /-- `pop`: about to move the data out of the unlinked node. -/
  | move (oldHead : Addr)
  /-- `pop`: about to delete the unlinked node. -/
  | delete (oldHead : Addr) (tmp : T)
  /-- About to leave the call. -/
  | leave (result : Result T)
deriving DecidableEq, Repr

/-- A thread: the calls it has still to make, and its position. -/
structure Thread (T : Type) where
  calls : List (Call T)
  pc : Pc T
deriving DecidableEq, Repr

/-- The shared memory and all threads. `past` are the values `head` has had, the
current one first. `fault` is set by an access that the language leaves
undefined, other than a read of `old_head->next`; nothing happens after it. -/
structure State (Tid : Type) (T : Type) where
  memory : Addr → Block T
  head : Option Addr
  past : List (Option Addr)
  threads : Tid → Thread T
  fault : Bool

/-- What one step shows. A successful compare-exchange of `pop` shows the pointer
it installed and the `next` of the node that was first at that instant. -/
inductive Event (Tid : Type) (T : Type) where
  | called (thread : Tid) (call : Call T)
  | made (thread : Tid) (node : Addr)
  | loaded (thread : Tid) (value : Option Addr)
  | assigned (thread : Tid) (node : Addr)
  | published (thread : Tid) (node : Addr)
  | readNext (thread : Tid) (node : Addr) (value : Option Addr)
  | foundEmpty (thread : Tid)
  | unlinked (thread : Tid) (node : Addr) (installed actual : Option Addr)
  | exchangeFailed (thread : Tid) (spurious : Bool)
  | moved (thread : Tid) (node : Addr)
  | deleted (thread : Tid) (node : Addr)
  | returned (thread : Tid) (result : Result T)
  | faulted (thread : Tid)
deriving DecidableEq, Repr

/-- The thread that takes the step. -/
def Event.thread {Tid T : Type} : Event Tid T → Tid
  | .called t _ | .made t _ | .loaded t _ | .assigned t _ | .published t _ | .readNext t _ _
  | .foundEmpty t | .unlinked t _ _ _ | .exchangeFailed t _ | .moved t _ | .deleted t _
  | .returned t _ | .faulted t => t

/-- What the program leaves open: which thread takes its next step, the block
`new` answers with, what the relaxed load sees, what a read of a deleted node
shows, whether a compare-exchange that could succeed fails spuriously. -/
inductive Choice (Tid : Type) where
  | run (thread : Tid)
  | allocate (thread : Tid) (node : Addr)
  | see (thread : Tid) (value : Option Addr)
  | stale (thread : Tid) (value : Option Addr)
  | spurious (thread : Tid)
deriving DecidableEq, Repr

/-- The thread a choice is about. -/
def Choice.thread {Tid : Type} : Choice Tid → Tid
  | .run t | .allocate t _ | .see t _ | .stale t _ | .spurious t => t

variable {Tid : Type} {T : Type}

/-- What reading a block in use shows. -/
def Block.view : Block T → Option (T × Option Addr)
  | .live data next => some (data, next)
  | _ => none

/-- The `next` last written to a block, in use or freed. -/
def Block.link : Block T → Option Addr
  | .live _ next | .freed _ next => next
  | .unused => none

/-- What reading a node in use shows. -/
def State.view (s : State Tid T) (a : Addr) : Option (T × Option Addr) := (s.memory a).view

/-- The successor of a node in use. -/
def State.next (s : State Tid T) (a : Addr) : Option Addr := (s.view a).bind Prod.snd

variable [DecidableEq Tid]

/-- The state after a step of one thread that leaves `head` alone. -/
def State.put (s : State Tid T) (t : Tid) (pc : Pc T) (memory : Addr → Block T) : State Tid T :=
  { s with memory, threads := Function.update s.threads t { s.threads t with pc } }

/-- `head` is set. -/
def State.setHead (s : State Tid T) (head : Option Addr) : State Tid T :=
  { s with head, past := head :: s.past }

/-- An access that the language leaves undefined. -/
def faulted (s : State Tid T) (t : Tid) : Event Tid T × State Tid T :=
  (.faulted t, { s with fault := true })

/-- The first step of a call. -/
def Call.entry : Call T → Pc T
  | .push data => .make data
  | .pop => .popLoad

/-- `new node<T>(data)` in a block that is not in use. -/
def allocate (s : State Tid T) (t : Tid) (data : T) (node : Addr) :
    Option (Event Tid T × State Tid T) :=
  match s.memory node with
  | .live _ _ => none
  | _ => some (.made t node,
      s.put t (.load data node) (Function.update s.memory node (.live data none)))

/-- `new_node->next = ` the loaded pointer. -/
def assignNext (s : State Tid T) (t : Tid) (data : T) (newNode : Addr) (loaded : Option Addr) :
    Event Tid T × State Tid T :=
  match s.memory newNode with
  | .live content _ => (.assigned t newNode,
      s.put t (.publish data newNode) (Function.update s.memory newNode (.live content loaded)))
  | _ => faulted s t

/-- `head.compare_exchange_weak(new_node->next, new_node)`. -/
def exchangePush (s : State Tid T) (t : Tid) (data : T) (newNode : Addr) (spurious : Bool) :
    Event Tid T × State Tid T :=
  match s.memory newNode with
  | .live content expected =>
      if s.head = expected && !spurious then
        (.published t newNode, (s.put t (.leave .done) s.memory).setHead (some newNode))
      else
        (.exchangeFailed t (s.head = expected), s.put t (.publish data newNode)
          (Function.update s.memory newNode (.live content s.head)))
  | _ => faulted s t

/-- `head.compare_exchange_weak(old_head, old_head->next)`, `next` read before. -/
def exchangePop (s : State Tid T) (t : Tid) (oldHead : Addr) (next : Option Addr)
    (spurious : Bool) : Event Tid T × State Tid T :=
  if s.head = some oldHead && !spurious then
    (.unlinked t oldHead next (s.next oldHead), (s.put t (.move oldHead) s.memory).setHead next)
  else
    (.exchangeFailed t (s.head = some oldHead), s.put t (.test s.head) s.memory)

/-- `T tmp = std::move(old_head->data)`. -/
def moveData (s : State Tid T) (t : Tid) (oldHead : Addr) : Event Tid T × State Tid T :=
  match s.memory oldHead with
  | .live data _ => (.moved t oldHead, s.put t (.delete oldHead data) s.memory)
  | _ => faulted s t

/-- `delete old_head`. -/
def deleteNode (s : State Tid T) (t : Tid) (oldHead : Addr) (tmp : T) :
    Event Tid T × State Tid T :=
  match s.memory oldHead with
  | .live data next => (.deleted t oldHead,
      s.put t (.leave (.value tmp)) (Function.update s.memory oldHead (.freed data next)))
  | _ => faulted s t

/-- The next step of a thread when nothing is left open. -/
def run (s : State Tid T) (t : Tid) : Option (Event Tid T × State Tid T) :=
  match (s.threads t).pc with
  | .idle =>
      match (s.threads t).calls with
      | [] => none
      | call :: calls =>
          some (.called t call, { s with
            threads := Function.update s.threads t ⟨calls, Call.entry call⟩ })
  | .make _ | .load _ _ => none
  | .assign data newNode loaded => some (assignNext s t data newNode loaded)
  | .publish data newNode => some (exchangePush s t data newNode false)
  | .popLoad => some (.loaded t s.head, s.put t (.test s.head) s.memory)
  | .test none => some (.foundEmpty t, s.put t (.leave .outOfRange) s.memory)
  | .test (some oldHead) =>
      match s.memory oldHead with
      | .live _ next =>
          some (.readNext t oldHead next, s.put t (.exchange oldHead next) s.memory)
      | _ => none
  | .exchange oldHead next => some (exchangePop s t oldHead next false)
  | .move oldHead => some (moveData s t oldHead)
  | .delete oldHead tmp => some (deleteNode s t oldHead tmp)
  | .leave result => some (.returned t result, s.put t .idle s.memory)

/-- One atomic step. -/
def step? (s : State Tid T) (choice : Choice Tid) : Option (Event Tid T × State Tid T) :=
  if s.fault then none else
    match choice with
    | .run t => run s t
    | .allocate t node =>
        match (s.threads t).pc with
        | .make data => allocate s t data node
        | _ => none
    | .see t value =>
        match (s.threads t).pc with
        | .load data newNode =>
            if value ∈ s.past then
              some (.loaded t value, s.put t (.assign data newNode value) s.memory)
            else none
        | _ => none
    | .stale t value =>
        match (s.threads t).pc with
        | .test (some oldHead) =>
            match s.memory oldHead with
            | .live _ _ => none
            | _ => some (.readNext t oldHead value, s.put t (.exchange oldHead value) s.memory)
        | _ => none
    | .spurious t =>
        match (s.threads t).pc with
        | .publish data newNode =>
            if s.head = s.next newNode then some (exchangePush s t data newNode true) else none
        | .exchange oldHead next =>
            if s.head = some oldHead then some (exchangePop s t oldHead next true) else none
        | _ => none

/-- The program: the threads on one shared stack. -/
def machine : System (State Tid T) (Event Tid T) := .ofStep? step?

/-- An empty stack, and threads about to make the calls of a program. -/
def initial (program : Tid → List (Call T)) : State Tid T where
  memory _ := .unused
  head := none
  past := [none]
  threads t := ⟨program t, .idle⟩
  fault := false

/-- The values stored in the stack, top first. -/
def Stores (s : State Tid T) (values : List T) : Prop := Memory.Lists s.view s.head values

/-- No operation is in flight. -/
def State.Quiescent (s : State Tid T) : Prop := ∀ t, (s.threads t).pc = .idle

instance [Fintype Tid] [DecidableEq T] (s : State Tid T) : Decidable s.Quiescent :=
  inferInstanceAs (Decidable (∀ t, (s.threads t).pc = .idle))

/-- The calls and returns a step shows. -/
def Event.action : Event Tid T → Option (Linearization.Action Tid (Call T) (Result T))
  | .called t call => some (.call t call)
  | .returned t result => some (.ret t result)
  | _ => none

end LockFree.Aba.Raw
