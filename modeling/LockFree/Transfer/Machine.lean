import LockFree.Semantics.Linearization
import Mathlib.Algebra.Group.Int.Defs
import Mathlib.Data.Fintype.Basic

/-!
# The transfers of `data_race_race_cond.cpp`

Threads call `transferMoney` on shared accounts. The check of `from.balance` and
the two updates are one atomic step each, as if `balance` were atomic, and the
balances are of type `int`: an update that overflows is undefined.
-/

namespace LockFree.Transfer

/-- The largest `int`. -/
def intMax : Int := 2 ^ 31 - 1

/-- The smallest `int`. -/
def intMin : Int := -2 ^ 31

/-- A call of `transferMoney`. -/
structure Call (Account : Type) where
  amount : Int
  from_ : Account
  to_ : Account
deriving DecidableEq, Repr

/-- Where a thread stands in `transferMoney`. -/
inductive Pc (Account : Type) where
  /-- Between two calls. -/
  | idle
  /-- About to evaluate `from.balance >= amount`. -/
  | check (call : Call Account)
  /-- About to perform `from.balance -= amount`. -/
  | debit (call : Call Account)
  /-- About to perform `to.balance += amount`. -/
  | credit (call : Call Account)
  /-- About to return, the check passed or not. -/
  | leave (passed : Bool)
deriving DecidableEq, Repr

/-- A thread: the calls it has still to make, and its position. -/
structure Thread (Account : Type) where
  calls : List (Call Account)
  pc : Pc Account
deriving DecidableEq, Repr

/-- The accounts and all threads. -/
structure State (Tid Account : Type) where
  balance : Account → Int
  threads : Tid → Thread Account

/-- What one step shows. -/
inductive Event (Tid Account : Type) where
  | called (thread : Tid) (call : Call Account)
  | checked (thread : Tid) (passed : Bool)
  | debited (thread : Tid)
  | credited (thread : Tid)
  | returned (thread : Tid) (passed : Bool)
  | overflowed (thread : Tid)
deriving DecidableEq, Repr

variable {Tid Account : Type} [DecidableEq Tid] [DecidableEq Account]

/-- The state after a step of one thread. -/
def State.put (s : State Tid Account) (t : Tid) (pc : Pc Account) (balance : Account → Int) :
    State Tid Account where
  balance := balance
  threads := Function.update s.threads t { s.threads t with pc }

/-- An update of a balance that is of type `int`. -/
def assign (s : State Tid Account) (t : Tid) (account : Account) (value : Int) (pc : Pc Account)
    (event : Event Tid Account) : Event Tid Account × State Tid Account :=
  if intMin ≤ value ∧ value ≤ intMax then
    (event, s.put t pc (Function.update s.balance account value))
  else (.overflowed t, s)

/-- One atomic step of a thread. -/
def step? (s : State Tid Account) (t : Tid) : Option (Event Tid Account × State Tid Account) :=
  match (s.threads t).pc with
  | .idle =>
      match (s.threads t).calls with
      | [] => none
      | call :: calls =>
          some (.called t call,
            { s with threads := Function.update s.threads t ⟨calls, .check call⟩ })
  | .check call =>
      if s.balance call.from_ ≥ call.amount then
        some (.checked t true, s.put t (.debit call) s.balance)
      else some (.checked t false, s.put t (.leave false) s.balance)
  | .debit call =>
      some (assign s t call.from_ (s.balance call.from_ - call.amount) (.credit call) (.debited t))
  | .credit call =>
      some (assign s t call.to_ (s.balance call.to_ + call.amount) (.leave true) (.credited t))
  | .leave passed => some (.returned t passed, s.put t .idle s.balance)

/-- The program: the threads on the shared accounts. -/
def machine : System (State Tid Account) (Event Tid Account) := .ofStep? step?

/-- Threads about to make the calls of a program. -/
def initial (balance : Account → Int) (program : Tid → List (Call Account)) :
    State Tid Account where
  balance := balance
  threads t := ⟨program t, .idle⟩

/-- No call is in progress. -/
def State.Quiescent (s : State Tid Account) : Prop := ∀ t, (s.threads t).pc = .idle

instance [Fintype Tid] (s : State Tid Account) : Decidable s.Quiescent :=
  inferInstanceAs (Decidable (∀ t, (s.threads t).pc = .idle))

/-- The calls and returns a step shows; a call returns what it decided. -/
def Event.action : Event Tid Account → Option (Linearization.Action Tid (Call Account) Bool)
  | .called t call => some (.call t call)
  | .returned t passed => some (.ret t passed)
  | _ => none

/-! ### What the transfers are compared with -/

/-- The balances after the two updates of a transfer, one right after the other. -/
def moved (balance : Account → Int) (call : Call Account) : Account → Int :=
  let debited := Function.update balance call.from_ (balance call.from_ - call.amount)
  Function.update debited call.to_ (debited call.to_ + call.amount)

/-- A transfer that nothing interrupts. -/
inductive Bank : (Account → Int) → Call Account → Bool → (Account → Int) → Prop where
  | passed {balance call} (enough : balance call.from_ ≥ call.amount) :
      Bank balance call true (moved balance call)
  | refused {balance call} (short : balance call.from_ < call.amount) :
      Bank balance call false balance

end LockFree.Transfer
