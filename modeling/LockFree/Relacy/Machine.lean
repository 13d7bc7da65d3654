import LockFree.Semantics.Execution
import Mathlib.Data.Fintype.Basic
import Mathlib.Data.Finset.Lattice.Fold
import Mathlib.Logic.Function.Basic
import Mathlib.Order.Lattice.Nat

/-!
# The simulated memory of Relacy

`thread.hpp`, `atomic.hpp`, `var.hpp` and `sync_var.hpp`: every thread has a
vector clock, atomics keep a history of what was stored, and a plain variable
remembers when each thread last loaded and stored it.

A run is any sequence of operations of any threads. What the test program leaves
open is a choice: which thread performs which operation, and what the scheduler
answers when a load may see an older value or a compare-exchange may fail
spuriously. A failure ends the run.

The history of an atomic is an array of `atomic_history_size` records that is
used as a ring. Which record an index stands for is the parameter `slot`; `ring`
is that of the source.
-/

namespace LockFree.Relacy

/-- `memory_order`. -/
inductive MemoryOrder where
  | relaxed
  | consume
  | acquire
  | release
  | acqRel
  | seqCst
deriving DecidableEq, Repr

/-- The order of the `atomic_load_*` that `load` calls. -/
def MemoryOrder.load? : MemoryOrder → Option MemoryOrder
  | .relaxed => some .relaxed
  | .consume | .acquire => some .acquire
  | .seqCst => some .seqCst
  | .release | .acqRel => none

/-- The order of the `atomic_store_*` that `store` calls. -/
def MemoryOrder.store? : MemoryOrder → Option MemoryOrder
  | .relaxed => some .relaxed
  | .release => some .release
  | .seqCst => some .seqCst
  | .consume | .acquire | .acqRel => none

/-- The order of the `atomic_rmw_*` that `rmw` and `compare_exchange` call. -/
def MemoryOrder.rmw : MemoryOrder → MemoryOrder
  | .consume => .acquire
  | order => order

/-- The order of the `atomic_load_*_rmw` of a failed `compare_exchange`. -/
def MemoryOrder.failure? : MemoryOrder → MemoryOrder → Option MemoryOrder
  | _, .relaxed => some .relaxed
  | .consume, .consume => some .acquire
  | .acquire, .consume | .acquire, .acquire => some .acquire
  | .acqRel, .consume | .acqRel, .acquire => some .acquire
  | .seqCst, .consume | .seqCst, .acquire => some .acquire
  | .seqCst, .seqCst => some .seqCst
  | _, _ => none

/-- `synch` of `atomic_load`. -/
def MemoryOrder.acquires : MemoryOrder → Bool
  | .acquire | .acqRel | .seqCst => true
  | _ => false

/-- `synch` of `atomic_store`. -/
def MemoryOrder.releases : MemoryOrder → Bool
  | .release | .acqRel | .seqCst => true
  | _ => false

/-- The address of an atomic, of a variable or of a synchronization object. -/
abbrev Address := Nat

/-- One timestamp for each thread. -/
abbrev Clock (Tid : Type) := Tid → Nat

/-- `foreach<thread_count>(first, second, assign_max)`. -/
def assignMax {Tid : Type} (first second : Clock Tid) : Clock Tid :=
  fun t => max (first t) (second t)

/-- `history_record`, together with the value of the record. A thread that has
not seen the record has no `first_seen_order_`. -/
structure Record (Tid Value : Type) where
  acqRelOrder : Clock Tid
  firstSeenOrder : Tid → Option Nat
  busy : Bool
  seqCst : Bool
  threadId : Option Tid
  acqRelTimestamp : Nat
  value : Value

/-- `atomic_data_impl` and `generic_atomic`. -/
structure Atomic (Tid Value : Type) where
  history : Nat → Record Tid Value
  currentIndex : Nat
  value : Value
  initialized : Bool
  alreadyFailed : Bool

/-- `var_data_impl` and `var`. -/
structure Var (Tid Value : Type) where
  loadTimestamp : Clock Tid
  storeTimestamp : Clock Tid
  value : Value
  initialized : Bool

/-- `thread_info`. -/
structure ThreadInfo (Tid : Type) where
  acqRelOrder : Clock Tid
  acquireFenceOrder : Clock Tid
  releaseFenceOrder : Clock Tid
  lastYield : Nat

/-- The memory and all threads. -/
structure State (Tid Value : Type) where
  threads : Tid → ThreadInfo Tid
  atomics : Address → Atomic Tid Value
  vars : Address → Var Tid Value
  syncs : Address → Clock Tid
  seqCstFenceOrder : Clock Tid
  failed : Bool

/-- What a thread can do. A read-modify-write is given by what it does to the
value. -/
inductive Op (Value : Type) where
  | load (x : Address) (order : MemoryOrder)
  | store (x : Address) (value : Value) (order : MemoryOrder)
  | compareExchange (weak : Bool) (x : Address) (expected desired : Value)
      (order failure : MemoryOrder)
  | rmw (x : Address) (modify : Value → Value) (order : MemoryOrder)
  | fence (order : MemoryOrder)
  | varLoad (v : Address)
  | varStore (v : Address) (value : Value)
  | acquire (m : Address)
  | release (m : Address)
  | acqRel (m : Address)
  | yield
  | globalFence

/-- What one step shows. Loads and stores show the index of their record in the
order of modification, stores the thread of the record before. A failed
compare-exchange shows as a load, a read-modify-write shows the record it reads;
the one it stores is the next. -/
inductive Event (Tid Value : Type) where
  | load (thread : Tid) (x : Address) (order : MemoryOrder) (index : Nat) (value : Value)
  | store (thread : Tid) (x : Address) (order : MemoryOrder) (index : Nat)
      (previous : Option Tid) (value : Value)
  | rmw (thread : Tid) (x : Address) (order : MemoryOrder) (index : Nat) (value : Value)
  | fence (thread : Tid) (order : MemoryOrder)
  | access (thread : Tid) (v : Address) (write : Bool) (value : Value)
  | acquired (thread : Tid) (m : Address)
  | released (thread : Tid) (m : Address)
  | acqReled (thread : Tid) (m : Address)
  | yielded (thread : Tid)
  | globalFence (thread : Tid)
  | raced (thread : Tid) (v : Address) (write : Bool)
  | uninitialized (thread : Tid)
deriving DecidableEq, Repr

/-- The thread that takes the step. -/
def Event.thread {Tid Value : Type} : Event Tid Value → Tid
  | .load t _ _ _ _ | .store t _ _ _ _ _ | .rmw t _ _ _ _ | .fence t _ | .access t _ _ _
  | .acquired t _ | .released t _ | .acqReled t _ | .yielded t | .globalFence t | .raced t _ _
  | .uninitialized t => t

/-- A thread performs an operation. `stop` answers whether the search for the
record to load stops at the n-th one it tries, `spurious` whether a weak
compare-exchange fails. -/
structure Choice (Tid Value : Type) where
  thread : Tid
  op : Op Value
  stop : Nat → Bool
  spurious : Bool

/-- `atomic_history_size` -/
def atomicHistorySize : Nat := 3

/-- The record of an index in the source. -/
def ring (index : Nat) : Nat := index % atomicHistorySize

/-- What the scheduler fixes: where a record is kept, and whether the search
among schedules is random. -/
structure Setting where
  slot : Nat → Nat
  random : Bool

variable {Tid Value : Type} [DecidableEq Tid]

/-- `own_acq_rel_order_ += 1` -/
def ThreadInfo.tick (th : ThreadInfo Tid) (t : Tid) : ThreadInfo Tid :=
  { th with acqRelOrder := Function.update th.acqRelOrder t (th.acqRelOrder t + 1) }

/-- The state with another `thread_info` of a thread. -/
def State.setThread (s : State Tid Value) (t : Tid) (th : ThreadInfo Tid) : State Tid Value :=
  { s with threads := Function.update s.threads t th }

/-- The state with other data of an atomic. -/
def State.setAtomic (s : State Tid Value) (x : Address) (data : Atomic Tid Value) :
    State Tid Value :=
  { s with atomics := Function.update s.atomics x data }

/-- The state with other data of a variable. -/
def State.setVar (s : State Tid Value) (v : Address) (data : Var Tid Value) : State Tid Value :=
  { s with vars := Function.update s.vars v data }

/-- The state with another order of a synchronization object. -/
def State.setSync (s : State Tid Value) (m : Address) (order : Clock Tid) : State Tid Value :=
  { s with syncs := Function.update s.syncs m order }

/-- The data with another record at an index. -/
def Atomic.setRecord (data : Atomic Tid Value) (slot : Nat → Nat) (index : Nat)
    (record : Record Tid Value) : Atomic Tid Value :=
  { data with history := Function.update data.history (slot index) record }

/-! ### Atomics -/

/-- The thread cannot see anything older than the record: its store happens before
the load, or its being seen by some thread does. -/
def Record.covered [Fintype Tid] (record : Record Tid Value) (order : Clock Tid) : Bool :=
  record.threadId.any (fun u => record.acqRelTimestamp ≤ order u) ||
    decide (∃ u, ∃ seen, record.firstSeenOrder u = some seen ∧ seen ≤ order u)

/-- The loop of `get_load_index` from an index, with `limit - i` rounds left. -/
def searchIndex [Fintype Tid] (setting : Setting) (data : Atomic Tid Value) (th : ThreadInfo Tid)
    (t : Tid) (order : MemoryOrder) (stop : Nat → Bool) : Nat → Nat → Nat → Option Nat
  | 0, _, index => some index
  | rounds + 1, i, index =>
      let record := data.history (setting.slot index)
      let previous := data.history (setting.slot (index - 1))
      if !record.busy then none
      else if previous.busy && (previous.firstSeenOrder t).any (· ≤ th.lastYield) then some index
      else if order = .seqCst && record.seqCst then some index
      else if record.covered th.acqRelOrder then some index
      else if stop i then some index
      else searchIndex setting data th t order stop rounds (i + 1) (index - 1)

/-- `get_load_index`: the index of the record a load sees, unless it sees an
uninitialized one. A read-modify-write sees the last. -/
def getLoadIndex [Fintype Tid] (setting : Setting) (data : Atomic Tid Value) (th : ThreadInfo Tid)
    (t : Tid) (order : MemoryOrder) (rmw : Bool) (stop : Nat → Bool) : Option Nat := do
  let limit := if setting.random then atomicHistorySize - 1 else 1
  let index ← if rmw then some data.currentIndex
    else searchIndex setting data th t order stop limit 0 data.currentIndex
  if (data.history (setting.slot index)).busy then some index else none

/-- The record after a thread has seen it. -/
def Record.see (record : Record Tid Value) (t : Tid) (timestamp : Nat) : Record Tid Value :=
  if record.firstSeenOrder t = none then
    { record with firstSeenOrder := Function.update record.firstSeenOrder t (some timestamp) }
  else record

/-- The thread after it has loaded a record. -/
def ThreadInfo.see (th : ThreadInfo Tid) (order : MemoryOrder) (record : Record Tid Value) :
    ThreadInfo Tid :=
  if order.acquires then { th with acqRelOrder := assignMax th.acqRelOrder record.acqRelOrder }
  else { th with acquireFenceOrder := assignMax th.acquireFenceOrder record.acqRelOrder }

/-- `atomic_load` of the record at an index. -/
def atomicLoad (setting : Setting) (s : State Tid Value) (t : Tid) (x : Address)
    (order : MemoryOrder) (index : Nat) : State Tid Value :=
  let data := s.atomics x
  let record := data.history (setting.slot index)
  let th := (s.threads t).tick t
  (s.setThread t (th.see order record)).setAtomic x
    (data.setRecord setting.slot index (record.see t (th.acqRelOrder t)))

/-- `preserve` of `atomic_store`: the record goes on with the release sequence of
the one before. -/
def preserves (rmw : Bool) (t : Tid) (previous : Option Tid) : Bool :=
  previous.any fun u => rmw || decide (u = t)

/-- The thread of a record that is in use. -/
def Record.owner (record : Record Tid Value) : Option Tid :=
  if record.busy then record.threadId else none

/-- `atomic_store`. -/
def atomicStore (setting : Setting) (s : State Tid Value) (t : Tid) (x : Address)
    (order : MemoryOrder) (rmw : Bool) (value : Value) : State Tid Value :=
  let data := s.atomics x
  let index := data.currentIndex + 1
  let previous := data.history (setting.slot data.currentIndex)
  let th := (s.threads t).tick t
  let passed := if order.releases then th.acqRelOrder else th.releaseFenceOrder
  let record : Record Tid Value := {
    acqRelOrder :=
      if preserves rmw t previous.owner then assignMax previous.acqRelOrder passed else passed
    firstSeenOrder := Function.update (fun _ => none) t (some (th.acqRelOrder t))
    busy := true
    seqCst := order = .seqCst
    threadId := some t
    acqRelTimestamp := th.acqRelOrder t
    value }
  (s.setThread t th).setAtomic x
    { data.setRecord setting.slot index record with
      currentIndex := index, value, initialized := true }

/-- `atomic_rmw`. -/
def atomicRmw (setting : Setting) (s : State Tid Value) (t : Tid) (x : Address)
    (order : MemoryOrder) (value : Value) : State Tid Value :=
  atomicStore setting (atomicLoad setting s t x order (s.atomics x).currentIndex)
    t x order true value

/-- A failure ends the run. -/
def fail (s : State Tid Value) (event : Event Tid Value) :
    Event Tid Value × State Tid Value :=
  (event, { s with failed := true })

/-- `load_impl` -/
def loadImpl [Fintype Tid] (setting : Setting) (s : State Tid Value) (t : Tid) (x : Address)
    (order : MemoryOrder) (rmw : Bool) (stop : Nat → Bool) : Event Tid Value × State Tid Value :=
  match getLoadIndex setting (s.atomics x) (s.threads t) t order rmw stop with
  | none => fail s (.uninitialized t)
  | some index =>
      (.load t x order index ((s.atomics x).history (setting.slot index)).value,
        atomicLoad setting s t x order index)

/-- `store_impl` -/
def storeImpl (setting : Setting) (s : State Tid Value) (t : Tid) (x : Address)
    (order : MemoryOrder) (value : Value) : Event Tid Value × State Tid Value :=
  let data := s.atomics x
  let previous := (data.history (setting.slot data.currentIndex)).owner
  (.store t x order (data.currentIndex + 1) previous value,
    atomicStore setting s t x order false value)

/-- `rmw_impl` -/
def rmwImpl (setting : Setting) (s : State Tid Value) (t : Tid) (x : Address)
    (order : MemoryOrder) (modify : Value → Value) : Event Tid Value × State Tid Value :=
  let data := s.atomics x
  if data.initialized then
    let value := modify data.value
    (.rmw t x order data.currentIndex value, atomicRmw setting s t x order value)
  else fail s (.uninitialized t)

/-- `compare_swap_impl`. In a search among all schedules one atomic fails
spuriously once. -/
def compareSwapImpl [Fintype Tid] [DecidableEq Value] (setting : Setting) (s : State Tid Value)
    (t : Tid) (weak : Bool) (x : Address) (expected desired : Value) (order failure : MemoryOrder)
    (spurious : Bool) : Event Tid Value × State Tid Value :=
  let data := s.atomics x
  if data.initialized then
    if data.value = expected then
      if weak && spurious && (setting.random || !data.alreadyFailed) then
        let noted := if setting.random then s
          else s.setAtomic x { data with alreadyFailed := true }
        loadImpl setting noted t x failure true fun _ => true
      else
        (.rmw t x order data.currentIndex desired, atomicRmw setting s t x order desired)
    else loadImpl setting s t x failure true fun _ => true
  else fail s (.uninitialized t)

/-! ### Fences, synchronization objects, variables -/

/-- `atomic_thread_fence_acquire` -/
def ThreadInfo.fenceAcquire (th : ThreadInfo Tid) : ThreadInfo Tid :=
  { th with acqRelOrder := assignMax th.acqRelOrder th.acquireFenceOrder }

/-- `atomic_thread_fence_release` -/
def ThreadInfo.fenceRelease (th : ThreadInfo Tid) : ThreadInfo Tid :=
  { th with releaseFenceOrder := th.acqRelOrder }

/-- `atomic_thread_fence` -/
def threadFence (s : State Tid Value) (t : Tid) :
    MemoryOrder → Option (Event Tid Value × State Tid Value)
  | .relaxed => none
  | .consume | .acquire =>
      some (.fence t .acquire, s.setThread t (s.threads t).fenceAcquire)
  | .release => some (.fence t .release, s.setThread t (s.threads t).fenceRelease)
  | .acqRel =>
      some (.fence t .acqRel, s.setThread t (s.threads t).fenceAcquire.fenceRelease)
  | .seqCst =>
      let acquired := (s.threads t).fenceAcquire
      let order := assignMax acquired.acqRelOrder s.seqCstFenceOrder
      some (.fence t .seqCst,
        { s.setThread t { acquired with acqRelOrder := order }.fenceRelease with
          seqCstFenceOrder := order })

/-- `sync_var::acquire` -/
def syncAcquire (s : State Tid Value) (t : Tid) (m : Address) : State Tid Value :=
  let th := (s.threads t).tick t
  s.setThread t { th with acqRelOrder := assignMax th.acqRelOrder (s.syncs m) }

/-- `sync_var::release` -/
def syncRelease (s : State Tid Value) (t : Tid) (m : Address) : State Tid Value :=
  let th := (s.threads t).tick t
  (s.setThread t th).setSync m (assignMax (s.syncs m) th.acqRelOrder)

/-- `sync_var::acq_rel` -/
def syncAcqRel (s : State Tid Value) (t : Tid) (m : Address) : State Tid Value :=
  let th := (s.threads t).tick t
  let order := assignMax th.acqRelOrder (s.syncs m)
  (s.setThread t { th with acqRelOrder := order }).setSync m (assignMax (s.syncs m) order)

/-- `rl_global_fence` -/
def globalFence [Fintype Tid] (s : State Tid Value) : State Tid Value :=
  let latest := Finset.univ.sup fun t => (s.threads t).acqRelOrder t
  { s with threads := fun t => { s.threads t with acqRelOrder := fun _ => latest } }

/-- A timestamp of another thread that the clock does not cover. -/
def uncovered [Fintype Tid] (order timestamps : Clock Tid) : Bool :=
  decide (∃ u, order u < timestamps u)

/-- `var::load` -/
def varLoad [Fintype Tid] (s : State Tid Value) (t : Tid) (v : Address) :
    Event Tid Value × State Tid Value :=
  let data := s.vars v
  if !data.initialized then fail s (.uninitialized t)
  else if uncovered (s.threads t).acqRelOrder data.storeTimestamp then fail s (.raced t v false)
  else
    let th := (s.threads t).tick t
    (.access t v false data.value, (s.setThread t th).setVar v
      { data with loadTimestamp := Function.update data.loadTimestamp t (th.acqRelOrder t) })

/-- `var::store` -/
def varStore [Fintype Tid] (s : State Tid Value) (t : Tid) (v : Address) (value : Value) :
    Event Tid Value × State Tid Value :=
  let data := s.vars v
  let order := (s.threads t).acqRelOrder
  if data.initialized &&
      (uncovered order data.storeTimestamp || uncovered order data.loadTimestamp) then
    fail s (.raced t v true)
  else
    let th := (s.threads t).tick t
    (.access t v true value, (s.setThread t th).setVar v
      { data with
        storeTimestamp := Function.update data.storeTimestamp t (th.acqRelOrder t)
        value, initialized := true })

/-! ### Runs -/

/-- An operation of a thread. -/
def perform [Fintype Tid] [DecidableEq Value] (setting : Setting) (s : State Tid Value) (t : Tid)
    (stop : Nat → Bool) (spurious : Bool) :
    Op Value → Option (Event Tid Value × State Tid Value)
  | .load x order => order.load?.map fun order => loadImpl setting s t x order false stop
  | .store x value order => order.store?.map fun order => storeImpl setting s t x order value
  | .compareExchange weak x expected desired order failure =>
      (order.failure? failure).map fun failure =>
        compareSwapImpl setting s t weak x expected desired order.rmw failure spurious
  | .rmw x modify order => some (rmwImpl setting s t x order.rmw modify)
  | .fence order => threadFence s t order
  | .varLoad v => some (varLoad s t v)
  | .varStore v value => some (varStore s t v value)
  | .acquire m => some (.acquired t m, syncAcquire s t m)
  | .release m => some (.released t m, syncRelease s t m)
  | .acqRel m => some (.acqReled t m, syncAcqRel s t m)
  | .yield => some (.yielded t,
      s.setThread t { s.threads t with lastYield := (s.threads t).acqRelOrder t })
  | .globalFence => some (.globalFence t, globalFence s)

/-- One operation, as long as nothing has failed. -/
def step? [Fintype Tid] [DecidableEq Value] (setting : Setting) (s : State Tid Value)
    (choice : Choice Tid Value) : Option (Event Tid Value × State Tid Value) :=
  if s.failed then none
  else perform setting s choice.thread choice.stop choice.spurious choice.op

/-- All sequences of operations. -/
def machine [Fintype Tid] [DecidableEq Value] (setting : Setting) :
    System (State Tid Value) (Event Tid Value) :=
  .ofStep? (step? setting)

/-- The start of an iteration. -/
def initial [Inhabited Value] : State Tid Value where
  threads t := ⟨Function.update (fun _ => 0) t 1, fun _ => 0, fun _ => 0, 0⟩
  atomics _ := ⟨fun _ => ⟨fun _ => 0, fun _ => none, false, false, none, 0, default⟩, 0, default,
    false, false⟩
  vars _ := ⟨fun _ => 0, fun _ => 0, default, false⟩
  syncs _ _ := 0
  seqCstFenceOrder _ := 0
  failed := false

end LockFree.Relacy
