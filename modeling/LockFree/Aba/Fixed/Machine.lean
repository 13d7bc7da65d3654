import LockFree.Aba.Lifo
import LockFree.Memory.Counted
import Mathlib.Data.Fintype.Basic

/-!
# The reference-counted stack of `aba_fixed.cpp`

The model steps one thread at a time, and a step is one atomic action of the
source: a load of `head`, the copy of `old_head->next` into the by-value
argument of the compare-exchange, the compare-exchange itself, the move of the
data into `tmp` and of `tmp` into the returned object, the release of one
`shared_ptr`. A compiler that elides the second move has the runs in which it
does not throw.

`std::shared_ptr` is a counted pointer of `Memory.Heap`. What a compare-exchange
takes out of its operands (the previous value of `head` or of `expected`, and
its copy of `desired`) is released after it, one release a step: these
references wait in the thread's `drops`, and a thread with waiting releases does
nothing else.
-/

namespace LockFree.Aba.Fixed

open Memory

/-- The address of a node. -/
abbrev Addr := Nat

/-- Which exceptions can come from outside of the stack: from `make_shared`
(a failed allocation or a throwing copy of the element) and from the moves of an
element. -/
structure Throws where
  make : Bool
  move : Bool
deriving DecidableEq, Repr

/-- Where a thread stands in `push`, `pop` or `~stack`. -/
inductive Pc (T : Type) where
  /-- Between two calls. -/
  | idle
  /-- `push`: about to call `make_shared`. -/
  | make (data : T)
  /-- `push`: about to load `head`. -/
  | load (data : T) (newNode : Addr)
  /-- `push`: about to move the loaded pointer into `new_node->next`. -/
  | assign (data : T) (newNode : Addr) (loaded : Option Addr)
  /-- `push`: about to evaluate `head.compare_exchange_weak(new_node->next, new_node)`. -/
  | publish (data : T) (newNode : Addr)
  /-- `pop`: about to load `head`. -/
  | popLoad
  /-- `pop`: about to evaluate the loop condition, up to the copy of `old_head->next`. -/
  | test (oldHead : Option Addr)
  /-- `pop`: about to perform the compare-exchange. -/
  | exchange (oldHead : Addr) (next : Option Addr)
  /-- `pop`: about to move the data out of the unlinked node. -/
  | move (oldHead : Addr)
  /-- `pop`: about to construct the returned object from `tmp`. -/
  | returnTmp (oldHead : Addr) (tmp : T)
  /-- About to leave the call, by a return or an exception. -/
  | leave (result : Result T)
  /-- `~stack`: about to evaluate the loop condition. -/
  | scan
  /-- `~stack` has returned. -/
  | gone
  /-- An exception has left `~stack`, which ends the program. -/
  | terminated
deriving DecidableEq, Repr

/-- A thread: the calls it has still to make, its position, the references
waiting to be released, and whether it pops on behalf of `~stack`. -/
structure Thread (T : Type) where
  calls : List (Call T)
  pc : Pc T
  drops : List Addr
  destructor : Bool
deriving DecidableEq, Repr

/-- The shared memory and all threads. The data of a node is `none` once it has
been moved out. `fault` is set by an access to a node that is not live and by a
use of moved-out data; nothing happens after it. -/
structure State (Tid : Type) (T : Type) where
  heap : Heap Addr (Option T)
  head : Option Addr
  threads : Tid → Thread T
  fault : Bool

/-- What one step shows. A release lists the nodes it destroyed. -/
inductive Event (Tid : Type) (T : Type) where
  | called (thread : Tid) (call : Call T)
  | made (thread : Tid) (node : Addr)
  | makeFailed (thread : Tid)
  | loaded (thread : Tid) (value : Option Addr)
  | assigned (thread : Tid) (node : Addr)
  | published (thread : Tid) (node : Addr)
  | readNext (thread : Tid) (node : Addr)
  | foundEmpty (thread : Tid)
  | unlinked (thread : Tid) (node : Addr)
  | exchangeFailed (thread : Tid) (spurious : Bool)
  | moved (thread : Tid) (node : Addr)
  | moveFailed (thread : Tid) (node : Addr)
  | resultMoved (thread : Tid) (node : Addr)
  | resultMoveFailed (thread : Tid) (node : Addr)
  | released (thread : Tid) (node : Addr) (destroyed : List Addr)
  | returned (thread : Tid) (result : Result T)
  | popped (thread : Tid)
  | faulted (thread : Tid)
deriving DecidableEq, Repr

/-- The thread that takes the step. -/
def Event.thread {Tid T : Type} : Event Tid T → Tid
  | .called t _ | .made t _ | .makeFailed t | .loaded t _ | .assigned t _ | .published t _
  | .readNext t _ | .foundEmpty t | .unlinked t _ | .exchangeFailed t _ | .moved t _
  | .moveFailed t _ | .resultMoved t _ | .resultMoveFailed t _ | .released t _ _
  | .returned t _ | .popped t | .faulted t => t

/-- What the program leaves open: which thread takes its next step, the address
`make_shared` answers with, whether the step throws, whether a
compare-exchange that could succeed fails spuriously. -/
inductive Choice (Tid : Type) where
  | run (thread : Tid)
  | allocate (thread : Tid) (node : Addr)
  | throws (thread : Tid)
  | spurious (thread : Tid)
deriving DecidableEq, Repr

/-- The references held by the variables of a call. -/
def Pc.refs {T : Type} : Pc T → Multiset Addr
  | .load _ newNode => {newNode}
  | .assign _ newNode loaded => newNode ::ₘ own loaded
  | .publish _ newNode => {newNode}
  | .test oldHead => own oldHead
  | .exchange oldHead next => oldHead ::ₘ own next
  | .move oldHead => {oldHead}
  | .returnTmp oldHead _ => {oldHead}
  | _ => 0

/-- The references held by a thread. -/
def Thread.refs {T : Type} (thread : Thread T) : Multiset Addr :=
  thread.pc.refs + (thread.drops : Multiset Addr)

variable {Tid : Type} {T : Type} [DecidableEq Tid]

/-- The state after a step of one thread. -/
def State.put (s : State Tid T) (t : Tid) (thread : Thread T) (heap : Heap Addr (Option T))
    (head : Option Addr) : State Tid T :=
  { s with heap, head, threads := Function.update s.threads t thread }

/-- An access that the language leaves undefined. -/
def faulted (s : State Tid T) (t : Tid) : Event Tid T × State Tid T :=
  (.faulted t, { s with fault := true })

/-- The first step of a call. -/
def Call.entry : Call T → Pc T
  | .push data => .make data
  | .pop => .popLoad

/-- Release the first of the waiting references. -/
def release (s : State Tid T) (t : Tid) (node : Addr) (rest : List Addr) :
    Option (Event Tid T × State Tid T) := do
  let (heap, destroyed) ← s.heap.release node
  return (.released t node destroyed, s.put t { s.threads t with drops := rest } heap s.head)

/-- `head.load()`: a copy of the shared pointer. -/
def loadHead (s : State Tid T) (t : Tid) (continue_ : Option Addr → Thread T) :
    Option (Event Tid T × State Tid T) := do
  let heap ← s.heap.retainPtr s.head
  return (.loaded t s.head, s.put t (continue_ s.head) heap s.head)

/-- `new_node->next = ` the loaded pointer. The field's previous value is released. -/
def assignNext (s : State Tid T) (t : Tid) (data : T) (newNode : Addr) (loaded : Option Addr) :
    Option (Event Tid T × State Tid T) := do
  let (_, previous) ← s.heap.view newNode
  let heap ← s.heap.setNext newNode loaded
  let thread := { s.threads t with pc := .publish data newNode, drops := previous.toList }
  return (.assigned t newNode, s.put t thread heap s.head)

/-- `head.compare_exchange_weak(new_node->next, new_node)`. The copy of
`new_node` becomes `head`, or `new_node->next` becomes a copy of `head`. -/
def exchangePush (s : State Tid T) (t : Tid) (newNode : Addr) (spurious : Bool) :
    Option (Event Tid T × State Tid T) := do
  let (_, expected) ← s.heap.view newNode
  let copied ← s.heap.retain newNode
  if s.head = expected && !spurious then
    let thread := { s.threads t with pc := .leave .done, drops := s.head.toList ++ [newNode] }
    return (.published t newNode, s.put t thread copied (some newNode))
  else
    let shared ← copied.retainPtr s.head
    let heap ← shared.setNext newNode s.head
    let thread := { s.threads t with drops := expected.toList ++ [newNode] }
    return (.exchangeFailed t (s.head = expected), s.put t thread heap s.head)

/-- The loop condition of `pop` up to the compare-exchange: a null `old_head`
leaves the loop to the `throw`, another one has its `next` copied. -/
def testOldHead (s : State Tid T) (t : Tid) :
    Option Addr → Option (Event Tid T × State Tid T)
  | none =>
      some (.foundEmpty t, s.put t { s.threads t with pc := .leave .outOfRange } s.heap s.head)
  | some oldHead => do
      let (_, next) ← s.heap.view oldHead
      let heap ← s.heap.retainPtr next
      return (.readNext t oldHead,
        s.put t { s.threads t with pc := .exchange oldHead next } heap s.head)

/-- `head.compare_exchange_weak(old_head, old_head->next)`. The copy of the next
pointer becomes `head`, or `old_head` becomes a copy of `head`. -/
def exchangePop (s : State Tid T) (t : Tid) (oldHead : Addr) (next : Option Addr)
    (spurious : Bool) : Option (Event Tid T × State Tid T) :=
  if s.head = some oldHead && !spurious then
    let thread := { s.threads t with pc := .move oldHead, drops := [oldHead] }
    some (.unlinked t oldHead, s.put t thread s.heap next)
  else do
    let heap ← s.heap.retainPtr s.head
    let thread := { s.threads t with pc := .test s.head, drops := oldHead :: next.toList }
    return (.exchangeFailed t (s.head = some oldHead), s.put t thread heap s.head)

/-- `T tmp = std::move(old_head->data)` -/
def moveData (s : State Tid T) (t : Tid) (oldHead : Addr) :
    Option (Event Tid T × State Tid T) := do
  let (content, _) ← s.heap.view oldHead
  let data ← content
  let heap ← s.heap.setData oldHead none
  return (.moved t oldHead, s.put t { s.threads t with pc := .returnTmp oldHead data } heap s.head)

/-- `return tmp`. Leaving the function releases `old_head`. -/
def returnTmp (s : State Tid T) (t : Tid) (oldHead : Addr) (tmp : T) :
    Event Tid T × State Tid T :=
  let thread := { s.threads t with pc := .leave (.value tmp), drops := [oldHead] }
  (.resultMoved t oldHead, s.put t thread s.heap s.head)

/-- Leave a call. `~stack` goes on with its loop when its `pop` returns, and
cannot let an exception out. -/
def leave (s : State Tid T) (t : Tid) (result : Result T) : Event Tid T × State Tid T :=
  if (s.threads t).destructor then
    let pc : Pc T := match result with
      | .value _ => .scan
      | _ => .terminated
    (.popped t, s.put t { s.threads t with pc } s.heap s.head)
  else
    (.returned t result, s.put t { s.threads t with pc := .idle } s.heap s.head)

/-- The next step of a thread when nothing is left open. -/
def run (s : State Tid T) (t : Tid) : Option (Event Tid T × State Tid T) :=
  let thread := s.threads t
  match thread.drops, thread.pc with
  | node :: rest, _ => (release s t node rest).getD (faulted s t)
  | [], .idle =>
      match thread.calls with
      | [] => none
      | call :: calls =>
          some (.called t call, s.put t { thread with calls, pc := Call.entry call } s.heap s.head)
  | [], .make _ => none
  | [], .load data newNode =>
      (loadHead s t fun loaded => { thread with pc := .assign data newNode loaded }).getD
        (faulted s t)
  | [], .assign data newNode loaded => (assignNext s t data newNode loaded).getD (faulted s t)
  | [], .publish _ newNode => (exchangePush s t newNode false).getD (faulted s t)
  | [], .popLoad =>
      (loadHead s t fun loaded => { thread with pc := .test loaded }).getD (faulted s t)
  | [], .test oldHead => (testOldHead s t oldHead).getD (faulted s t)
  | [], .exchange oldHead next => (exchangePop s t oldHead next false).getD (faulted s t)
  | [], .move oldHead => (moveData s t oldHead).getD (faulted s t)
  | [], .returnTmp oldHead tmp => some (returnTmp s t oldHead tmp)
  | [], .leave result => some (leave s t result)
  | [], .scan =>
      -- the pointer tested by `while (head.load(...))` is a temporary
      (loadHead s t fun loaded =>
        { thread with
          pc := if loaded = none then .gone else .popLoad
          drops := loaded.toList }).getD
        (faulted s t)
  | [], .gone => none
  | [], .terminated => none

/-- One atomic step. -/
def step? (throws : Throws) (s : State Tid T) (choice : Choice Tid) :
    Option (Event Tid T × State Tid T) :=
  if s.fault then none else
    match choice with
    | .run t => run s t
    | .allocate t node =>
        match (s.threads t).drops, (s.threads t).pc with
        | [], .make data =>
            if node ∈ s.heap then none else
              some (.made t node, s.put t { s.threads t with pc := .load data node }
                (s.heap.create node (some data)) s.head)
        | _, _ => none
    | .throws t =>
        match (s.threads t).drops, (s.threads t).pc with
        | [], .make _ =>
            if throws.make then
              some (.makeFailed t, s.put t { s.threads t with pc := .leave .threw } s.heap s.head)
            else none
        | [], .move oldHead =>
            if throws.move then
              some (.moveFailed t oldHead, s.put t
                { s.threads t with pc := .leave .threw, drops := [oldHead] } s.heap s.head)
            else none
        | [], .returnTmp oldHead _ =>
            if throws.move then
              some (.resultMoveFailed t oldHead, s.put t
                { s.threads t with pc := .leave .threw, drops := [oldHead] } s.heap s.head)
            else none
        | _, _ => none
    | .spurious t =>
        match (s.threads t).drops, (s.threads t).pc with
        | [], .publish _ newNode =>
            -- a compare-exchange that has to fail does not fail spuriously
            if s.head = s.heap.next newNode then
              (exchangePush s t newNode true).getD (faulted s t)
            else none
        | [], .exchange oldHead next =>
            if s.head = some oldHead then
              (exchangePop s t oldHead next true).getD (faulted s t)
            else none
        | _, _ => none

/-- The program: the threads on one shared stack. -/
def machine (throws : Throws) : System (State Tid T) (Event Tid T) :=
  .ofStep? (step? throws)

/-- An empty stack, and threads about to make the calls of a program. -/
def initial (program : Tid → List (Call T)) : State Tid T where
  heap := ∅
  head := none
  threads t := ⟨program t, .idle, [], false⟩
  fault := false

/-- `t` starts `~stack`; no other call is made any more. -/
def State.destroy (s : State Tid T) (t : Tid) : State Tid T :=
  { s with threads := fun u => if u = t then ⟨[], .scan, [], true⟩ else ⟨[], .idle, [], false⟩ }

/-- A thread that is in no call. -/
def Thread.quiet (thread : Thread T) : Prop := thread.pc = .idle ∧ thread.drops = []

/-- No operation is in flight. -/
def State.Quiescent (s : State Tid T) : Prop := ∀ t, (s.threads t).quiet

/-- Every call has been made and has ended. -/
def State.Finished (s : State Tid T) : Prop := ∀ t, (s.threads t).quiet ∧ (s.threads t).calls = []

section Decide

variable [Fintype Tid] [DecidableEq T]

instance (thread : Thread T) : Decidable thread.quiet :=
  inferInstanceAs (Decidable (thread.pc = .idle ∧ thread.drops = []))

instance (s : State Tid T) : Decidable s.Quiescent :=
  inferInstanceAs (Decidable (∀ t, (s.threads t).quiet))

instance (s : State Tid T) : Decidable s.Finished :=
  inferInstanceAs (Decidable (∀ t, (s.threads t).quiet ∧ (s.threads t).calls = []))

end Decide

/-- The calls and returns a step shows. -/
def Event.action : Event Tid T → Option (Linearization.Action Tid (Call T) (Result T))
  | .called t call => some (.call t call)
  | .returned t result => some (.ret t result)
  | _ => none

/-! ### `operator<<` -/

/-- What `operator<<` writes: a value, or the text between two values. -/
inductive Token (T : Type) where
  | value (data : T)
  | text (characters : String)
deriving DecidableEq, Repr

/-- The loop of `operator<<` from the pointer `cur`, for at most `bound` nodes.
Moving on copies the successor and releases the node left behind. -/
def printFrom : Nat → Heap Addr (Option T) → Option Addr →
    Option (List (Token T) × Heap Addr (Option T))
  | _, heap, none => some ([], heap)
  | 0, _, some _ => none
  | bound + 1, heap, some cur => do
      let (content, next) ← heap.view cur
      let data ← content
      let copied ← heap.retainPtr next
      let (left, _) ← copied.release cur
      let (rest, heap) ← printFrom bound left next
      let separator := if next.isSome then [Token.text ", "] else []
      return (.value data :: separator ++ rest, heap)

/-- `out << s`. -/
def print (s : State Tid T) : Option (List (Token T) × Heap Addr (Option T)) := do
  let heap ← s.heap.retainPtr s.head
  printFrom heap.keys.card heap s.head

/-- Values with `", "` between them. -/
def render : List T → List (Token T)
  | [] => []
  | [data] => [.value data]
  | data :: rest => .value data :: .text ", " :: render rest

end LockFree.Aba.Fixed
