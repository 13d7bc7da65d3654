import LockFree.Transfer.Machine
import LockFree.Semantics.Threads
import Mathlib.Algebra.BigOperators.Group.Finset.Piecewise
import Mathlib.Algebra.Order.BigOperators.Group.Finset

/-!
# Transfers with one debtor for each account

When no account is debited by two threads, transfers are atomic. One whose check
fails takes effect at the check, one whose check passes at the credit: what has
been debited and not yet credited still counts as money of the debited account.
-/

namespace LockFree.Transfer

open Linearization

variable {Tid Account : Type}

/-- The call a position is in, until it has taken effect. -/
def Pc.call? : Pc Account → Option (Call Account)
  | .check call | .debit call | .credit call => some call
  | _ => none

/-- The calls of a thread that have not taken effect. -/
def Thread.todo (thread : Thread Account) : List (Call Account) :=
  thread.pc.call?.toList ++ thread.calls

/-- What has been debited at a position and not yet credited. -/
def Pc.inFlight : Pc Account → Int
  | .credit call => call.amount
  | _ => 0

/-- How far a call has come at a position. -/
def Pc.phase : Pc Account → Phase (Call Account) Bool
  | .check call | .debit call | .credit call => .pending call
  | .leave passed => .settled passed
  | .idle => .idle

/-- The phases of all threads. -/
def State.phase (s : State Tid Account) (t : Tid) : Phase (Call Account) Bool :=
  (s.threads t).pc.phase

variable [DecidableEq Account]

/-- The part of it that comes from an account. -/
def Pc.held (a : Account) : Pc Account → Int
  | .credit call => if call.from_ = a then call.amount else 0
  | _ => 0

@[simp] theorem held_idle (a : Account) : (Pc.idle : Pc Account).held a = 0 := rfl
@[simp] theorem held_check (a : Account) (call : Call Account) : (Pc.check call).held a = 0 := rfl
@[simp] theorem held_debit (a : Account) (call : Call Account) : (Pc.debit call).held a = 0 := rfl
@[simp] theorem held_leave (a : Account) (passed : Bool) :
    (Pc.leave passed : Pc Account).held a = 0 := rfl
@[simp] theorem held_credit (a : Account) (call : Call Account) :
    (Pc.credit call).held a = if call.from_ = a then call.amount else 0 := rfl

/-- The value that a position is about to assign to a balance. -/
def Pc.assigns (balance : Account → Int) : Pc Account → Option Int
  | .debit call => some (balance call.from_ - call.amount)
  | .credit call => some (balance call.to_ + call.amount)
  | _ => none

variable [DecidableEq Tid]

/-- The forms a step can take. -/
inductive Effect (s : State Tid Account) : Event Tid Account → State Tid Account → Prop where
  | called {t call calls} (pc : (s.threads t).pc = .idle)
      (next : (s.threads t).calls = call :: calls) :
      Effect s (.called t call)
        { s with threads := Function.update s.threads t ⟨calls, .check call⟩ }
  | passed {t call} (pc : (s.threads t).pc = .check call)
      (enough : s.balance call.from_ ≥ call.amount) :
      Effect s (.checked t true) (s.put t (.debit call) s.balance)
  | refused {t call} (pc : (s.threads t).pc = .check call)
      (short : s.balance call.from_ < call.amount) :
      Effect s (.checked t false) (s.put t (.leave false) s.balance)
  | debited {t call} (pc : (s.threads t).pc = .debit call) :
      Effect s (.debited t) (s.put t (.credit call)
        (Function.update s.balance call.from_ (s.balance call.from_ - call.amount)))
  | credited {t call} (pc : (s.threads t).pc = .credit call) :
      Effect s (.credited t) (s.put t (.leave true)
        (Function.update s.balance call.to_ (s.balance call.to_ + call.amount)))
  | returned {t passed} (pc : (s.threads t).pc = .leave passed) :
      Effect s (.returned t passed) (s.put t .idle s.balance)
  | overflowed {t value} (assigns : (s.threads t).pc.assigns s.balance = some value)
      (outside : ¬ (intMin ≤ value ∧ value ≤ intMax)) : Effect s (.overflowed t) s

variable {s s' : State Tid Account} {event : Event Tid Account} {t : Tid}

/-- Every step is one of the effects. -/
theorem step_effect (transition : machine.Step s event s') : Effect s event s' := by
  obtain ⟨t, taken⟩ := transition
  unfold step? at taken
  cases pc : (s.threads t).pc with
  | idle =>
      cases todo : (s.threads t).calls with
      | nil => simp [pc, todo] at taken
      | cons call calls =>
          simp only [pc, todo, Option.some.injEq] at taken
          cases taken
          exact .called pc todo
  | check call =>
      simp only [pc] at taken
      split at taken
      · next enough =>
          cases taken
          exact .passed pc enough
      · next short =>
          cases taken
          exact .refused pc (not_le.mp short)
  | debit call =>
      simp only [pc, assign, Option.some.injEq] at taken
      split at taken
      · cases taken
        exact .debited pc
      · next outside =>
          cases taken
          exact .overflowed (by rw [pc]; rfl) outside
  | credit call =>
      simp only [pc, assign, Option.some.injEq] at taken
      split at taken
      · cases taken
        exact .credited pc
      · next outside =>
          cases taken
          exact .overflowed (by rw [pc]; rfl) outside
  | leave passed =>
      simp only [pc, Option.some.injEq] at taken
      cases taken
      exact .returned pc

/-- The invariant: `object` are the balances as the transfers that have taken
effect leave them. -/
structure Inv [Fintype Tid] [Fintype Account] (total : Int) (s : State Tid Account)
    (object : Account → Int) : Prop where
  nonneg : ∀ a, 0 ≤ s.balance a
  stands : ∀ a, object a = s.balance a + ∑ t, (s.threads t).pc.held a
  enough : ∀ t call, (s.threads t).pc = .debit call → call.amount ≤ s.balance call.from_
  amounts : ∀ t, ∀ call ∈ (s.threads t).todo, 0 ≤ call.amount
  debtor : ∀ t u, ∀ call ∈ (s.threads t).todo, ∀ call' ∈ (s.threads u).todo,
    call.from_ = call'.from_ → t = u
  total_eq : ∑ a, object a = total

section Put

omit [DecidableEq Account] in
@[simp] theorem put_balance (s : State Tid Account) (t : Tid) (pc : Pc Account)
    (balance : Account → Int) : (s.put t pc balance).balance = balance := rfl

omit [DecidableEq Account] in
@[simp] theorem put_pc_self (s : State Tid Account) (t : Tid) (pc : Pc Account)
    (balance : Account → Int) : ((s.put t pc balance).threads t).pc = pc := by
  simp [State.put]

omit [DecidableEq Account] in
theorem put_threads_other (s : State Tid Account) {t u : Tid} (other : u ≠ t) (pc : Pc Account)
    (balance : Account → Int) : (s.put t pc balance).threads u = s.threads u := by
  simp [State.put, other]

omit [DecidableEq Account] in
/-- A step of one thread completes or keeps its calls. -/
theorem todo_put {pc : Pc Account} (balance : Account → Int)
    (kept : ∀ call, pc.call? = some call → (s.threads t).pc.call? = some call) (u : Tid) :
    ∀ call ∈ ((s.put t pc balance).threads u).todo, call ∈ (s.threads u).todo := by
  intro call member
  by_cases same : u = t
  · subst same
    simp only [Thread.todo, State.put, Function.update_self, List.mem_append,
      Option.mem_toList] at member ⊢
    exact member.imp_left (kept call)
  · rwa [put_threads_other s same] at member

/-- A step of one thread changes what is in flight from an account by its own part. -/
theorem held_put [Fintype Tid] (s : State Tid Account) (t : Tid) (pc : Pc Account)
    (balance : Account → Int) (a : Account) :
    ∑ u, ((s.put t pc balance).threads u).pc.held a + (s.threads t).pc.held a =
      ∑ u, (s.threads u).pc.held a + pc.held a :=
  sum_update s.threads t { s.threads t with pc } fun thread => thread.pc.held a

end Put

section Invariant

variable [Fintype Tid] [Fintype Account] {total : Int} {object : Account → Int}
  {call : Call Account}

omit [DecidableEq Tid] in
/-- From an account that a thread has still to debit no other thread has anything in flight. -/
theorem Inv.held_sum (inv : Inv total s object) (member : call ∈ (s.threads t).todo) :
    ∑ u, (s.threads u).pc.held call.from_ = (s.threads t).pc.held call.from_ := by
  refine Finset.sum_eq_single t (fun u _ other => ?_)
    fun absent => absurd (Finset.mem_univ t) absent
  cases pc : (s.threads u).pc with
  | credit call' =>
      refine if_neg fun same => other ?_
      exact inv.debtor u t call' (by simp [Thread.todo, pc, Pc.call?]) call member same
  | _ => rfl

omit [DecidableEq Tid] in
/-- The balances, and what is in flight, add up to the total. -/
theorem Inv.conserved (inv : Inv total s object) :
    ∑ a, s.balance a + ∑ t, (s.threads t).pc.inFlight = total := by
  have flights : ∀ pc : Pc Account, ∑ a, pc.held a = pc.inFlight := by
    intro pc
    cases pc <;> simp [Pc.held, Pc.inFlight]
  calc ∑ a, s.balance a + ∑ t, (s.threads t).pc.inFlight
      = ∑ a, s.balance a + ∑ a, ∑ t, (s.threads t).pc.held a := by
        rw [Finset.sum_comm]
        simp only [flights]
    _ = ∑ a, object a := by
        rw [← Finset.sum_add_distrib]
        exact Finset.sum_congr rfl fun a _ => (inv.stands a).symm
    _ = total := inv.total_eq

omit [DecidableEq Tid] in
/-- What a step assigns to a balance is between zero and the total. -/
theorem Inv.assigns_le (inv : Inv total s object) {value : Int}
    (assigns : (s.threads t).pc.assigns s.balance = some value) : 0 ≤ value ∧ value ≤ total := by
  have flights : ∀ u, 0 ≤ (s.threads u).pc.inFlight := by
    intro u
    have amounts := inv.amounts u
    cases pc : (s.threads u).pc with
    | credit call => exact amounts call (by simp [Thread.todo, pc, Pc.call?])
    | _ => exact Int.le_refl _
  have balance : ∀ a, s.balance a ≤ ∑ b, s.balance b := fun a =>
    Finset.single_le_sum (fun b _ => inv.nonneg b) (Finset.mem_univ a)
  have inFlight : (s.threads t).pc.inFlight ≤ ∑ u, (s.threads u).pc.inFlight :=
    Finset.single_le_sum (fun u _ => flights u) (Finset.mem_univ t)
  have conserved := inv.conserved
  have amounts := inv.amounts t
  cases pc : (s.threads t).pc with
  | debit call =>
      have amount := amounts call (by simp [Thread.todo, pc, Pc.call?])
      have enough := inv.enough t call pc
      have from_ := balance call.from_
      have rest := Finset.sum_nonneg fun u (_ : u ∈ Finset.univ) => flights u
      rw [pc] at assigns
      simp only [Pc.assigns, Option.some.injEq] at assigns
      omega
  | credit call =>
      have amount := amounts call (by simp [Thread.todo, pc, Pc.call?])
      have to_ := balance call.to_
      have old := inv.nonneg call.to_
      rw [pc] at assigns inFlight
      simp only [Pc.assigns, Option.some.injEq] at assigns
      simp only [Pc.inFlight] at inFlight conserved
      omega
  | _ => simp [pc, Pc.assigns] at assigns

omit [DecidableEq Tid] in
/-- The invariant after a step that completes or keeps the calls of its thread. -/
theorem Inv.keep {object' : Account → Int} (inv : Inv total s object)
    (todo : ∀ u, ∀ call ∈ (s'.threads u).todo, call ∈ (s.threads u).todo)
    (nonneg : ∀ a, 0 ≤ s'.balance a)
    (stands : ∀ a, object' a = s'.balance a + ∑ u, (s'.threads u).pc.held a)
    (enough : ∀ u call, (s'.threads u).pc = .debit call → call.amount ≤ s'.balance call.from_)
    (total_eq : ∑ a, object' a = total) : Inv total s' object' where
  nonneg := nonneg
  stands := stands
  enough := enough
  amounts u call member := inv.amounts u call (todo u call member)
  debtor u v call member call' member' :=
    inv.debtor u v call (todo u call member) call' (todo v call' member')
  total_eq := total_eq

/-- A step that leaves the balances and what is in flight. -/
theorem Inv.quiet (inv : Inv total s object) {pc : Pc Account}
    (kept : ∀ call, pc.call? = some call → (s.threads t).pc.call? = some call)
    (before : ∀ a, (s.threads t).pc.held a = 0) (after : ∀ a, pc.held a = 0)
    (enough : ∀ call, pc = .debit call → call.amount ≤ s.balance call.from_) :
    Inv total (s.put t pc s.balance) object := by
  refine inv.keep (todo_put _ kept) inv.nonneg (fun a => ?_) (fun u call debit => ?_) inv.total_eq
  · have held := held_put s t pc s.balance a
    rw [before, after] at held
    rw [inv.stands, put_balance]
    omega
  · by_cases same : u = t
    · subst same
      rw [put_pc_self] at debit
      exact enough call debit
    · rw [put_threads_other s same] at debit
      exact inv.enough u call debit

/-- The call of a transfer. -/
theorem Inv.begin (inv : Inv total s object) {calls : List (Call Account)}
    (pc : (s.threads t).pc = .idle) (next : (s.threads t).calls = call :: calls) :
    Inv total { s with threads := Function.update s.threads t ⟨calls, .check call⟩ } object := by
  have held := fun a => sum_update s.threads t ⟨calls, .check call⟩ fun thread => thread.pc.held a
  simp only [pc, held_idle, held_check, add_zero] at held
  refine inv.keep (fun u call' member => ?_) inv.nonneg (fun a => ?_) (fun u call' debit => ?_)
    inv.total_eq
  · by_cases same : u = t
    · subst same
      simpa [Thread.todo, pc, next, Pc.call?] using member
    · simpa [same] using member
  · rw [inv.stands, ← held a]
  · by_cases same : u = t
    · simp [same] at debit
    · exact inv.enough u call' (by simpa [same] using debit)

/-- The debit of a transfer whose check has passed. -/
theorem Inv.debit (inv : Inv total s object) (pc : (s.threads t).pc = .debit call) :
    Inv total (s.put t (.credit call)
      (Function.update s.balance call.from_ (s.balance call.from_ - call.amount))) object := by
  have member : call ∈ (s.threads t).todo := by simp [Thread.todo, pc, Pc.call?]
  refine inv.keep (todo_put _ (by simp [pc, Pc.call?])) (fun a => ?_) (fun a => ?_)
    (fun u call' debit => ?_) inv.total_eq
  · by_cases same : a = call.from_
    · have enough := inv.enough t call pc
      simp [same, enough]
    · simpa [same] using inv.nonneg a
  · have held := held_put s t (.credit call)
      (Function.update s.balance call.from_ (s.balance call.from_ - call.amount)) a
    simp only [pc, held_debit, held_credit, add_zero] at held
    rw [inv.stands, put_balance]
    by_cases same : a = call.from_
    · subst same
      rw [if_pos rfl] at held
      rw [Function.update_self]
      omega
    · rw [if_neg (Ne.symm same)] at held
      rw [Function.update_of_ne same]
      omega
  · by_cases same : u = t
    · subst same
      simp at debit
    · rw [put_threads_other s same] at debit
      have other : call'.from_ ≠ call.from_ := fun shared =>
        same (inv.debtor u t call' (by simp [Thread.todo, debit, Pc.call?]) call member shared)
      simpa [other] using inv.enough u call' debit

/-- The credit of a transfer, with which it takes effect. -/
theorem Inv.credit (inv : Inv total s object) (pc : (s.threads t).pc = .credit call) :
    object call.from_ ≥ call.amount ∧
      Inv total (s.put t (.leave true)
        (Function.update s.balance call.to_ (s.balance call.to_ + call.amount)))
        (moved object call) := by
  have member : call ∈ (s.threads t).todo := by simp [Thread.todo, pc, Pc.call?]
  have amount := inv.amounts t call member
  refine ⟨?_, inv.keep (todo_put _ (by simp [Pc.call?])) (fun a => ?_) (fun a => ?_)
    (fun u call' debit => ?_) ?_⟩
  · have own : (s.threads t).pc.held call.from_ = call.amount := by simp [pc, Pc.held]
    have old := inv.nonneg call.from_
    rw [inv.stands, inv.held_sum member, own]
    omega
  · by_cases same : a = call.to_
    · have old := inv.nonneg call.to_
      simp only [put_balance, same, Function.update_self]
      omega
    · simpa [same] using inv.nonneg a
  · have held := held_put s t (.leave true)
      (Function.update s.balance call.to_ (s.balance call.to_ + call.amount)) a
    have stands := inv.stands a
    simp only [pc, held_leave, held_credit, add_zero] at held
    rw [put_balance, moved]
    by_cases to_ : a = call.to_
    · subst to_
      by_cases from_ : call.to_ = call.from_
      · rw [if_pos from_.symm] at held
        simp only [from_, Function.update_self] at *
        omega
      · rw [if_neg (Ne.symm from_)] at held
        simp only [Function.update_self, Function.update_of_ne from_]
        omega
    · by_cases from_ : a = call.from_
      · subst from_
        rw [if_pos rfl] at held
        simp only [Function.update_self, Function.update_of_ne to_]
        omega
      · rw [if_neg (Ne.symm from_)] at held
        simp only [Function.update_of_ne to_, Function.update_of_ne from_]
        omega
  · by_cases same : u = t
    · subst same
      simp at debit
    · rw [put_threads_other s same] at debit
      have enough := inv.enough u call' debit
      by_cases here : call'.from_ = call.to_
      · simp only [put_balance, here, Function.update_self]
        rw [here] at enough
        omega
      · simpa [here] using enough
  · have debited := sum_update object call.from_ (object call.from_ - call.amount) id
    have credited := sum_update
      (Function.update object call.from_ (object call.from_ - call.amount)) call.to_
      (Function.update object call.from_ (object call.from_ - call.amount) call.to_ +
        call.amount) id
    simp only [id_eq] at debited credited
    have total_eq := inv.total_eq
    simp only [moved]
    omega

omit [DecidableEq Tid] in
/-- A check that fails finds too little in the account also when what is in
flight is counted. -/
theorem Inv.refuse (inv : Inv total s object) (pc : (s.threads t).pc = .check call)
    (short : s.balance call.from_ < call.amount) : object call.from_ < call.amount := by
  rw [inv.stands, inv.held_sum (t := t) (by simp [Thread.todo, pc, Pc.call?]), pc, held_check,
    add_zero]
  exact short

/-- What a step does to the accounts of a bank. -/
theorem Inv.matched (bounded : total ≤ intMax) (inv : Inv total s object)
    (transition : machine.Step s event s') :
    (∃ marks object', (atomic Bank).Steps ⟨object, s.phase⟩ marks ⟨object', s'.phase⟩ ∧
      marks.filterMap Mark.visible = event.action.toList ∧ Inv total s' object') ∧
    ∀ u, event ≠ .overflowed u := by
  -- the phases after a step that puts its thread into a position
  have others : ∀ {t : Tid} {pc : Pc Account} {balance : Account → Int} (u : Tid), u ≠ t →
      (s.put t pc balance).phase u = s.phase u := by
    intro t pc balance u other
    rw [State.phase, put_threads_other s other, State.phase]
  have own : ∀ {t : Tid} {pc : Pc Account} {balance : Account → Int},
      (s.put t pc balance).phase t = pc.phase := by
    intro t pc balance
    rw [State.phase, put_pc_self]
  cases step_effect transition with
  | @called t call calls pc next =>
      refine ⟨⟨[.call t call], object, accepts_call (by simp [State.phase, pc, Pc.phase])
        (fun u other => ?_) ?_, rfl, inv.begin pc next⟩, nofun⟩
      · simp [State.phase, other]
      · simp [State.phase, Pc.phase]
  | @passed t call pc enough =>
      refine ⟨⟨[], object,
        accepts_none others (own.trans (by simp [State.phase, pc, Pc.phase])), rfl,
        inv.quiet (by simp [pc, Pc.call?]) (by simp [pc]) (by simp) ?_⟩, nofun⟩
      rintro _ ⟨⟩
      exact enough
  | @refused t call pc short =>
      refine ⟨⟨[.instant t call false], object,
        accepts_instant (by simp [State.phase, pc, Pc.phase])
          (.refused (inv.refuse pc short)) others own,
        rfl, inv.quiet (by simp [Pc.call?]) (by simp [pc]) (by simp) nofun⟩, nofun⟩
  | @debited t call pc =>
      exact ⟨⟨[], object,
        accepts_none others (own.trans (by simp [State.phase, pc, Pc.phase])), rfl,
        inv.debit pc⟩, nofun⟩
  | @credited t call pc =>
      obtain ⟨enough, inv'⟩ := inv.credit pc
      exact ⟨⟨[.instant t call true], moved object call,
        accepts_instant (by simp [State.phase, pc, Pc.phase]) (.passed enough) others own, rfl,
        inv'⟩, nofun⟩
  | @returned t passed pc =>
      refine ⟨⟨[.ret t passed], object,
        accepts_ret (by simp [State.phase, pc, Pc.phase]) others own, rfl,
        inv.quiet (by simp [Pc.call?]) (by simp [pc]) (by simp) nofun⟩, nofun⟩
  | overflowed assigns outside =>
      obtain ⟨nonneg, small⟩ := inv.assigns_le assigns
      exact absurd ⟨le_trans (by decide) nonneg, le_trans small bounded⟩ outside

/-- Runs of transfers are matched by the bank. -/
def simulation (bounded : total ≤ intMax) :
    Simulation machine (fun (_ : State Tid Account) _ => True) Bank Event.action where
  Represents := Inv total
  phaseOf := State.phase
  matched inv _ transition := (inv.matched bounded transition).1

end Invariant

/-! ### Runs -/

section Runs

variable [Fintype Tid] [Fintype Account] {balance : Account → Int}
  {program : Tid → List (Call Account)} {events : List (Event Tid Account)}

omit [DecidableEq Tid] in
/-- The invariant holds before the first call. -/
theorem inv_initial (nonneg : ∀ a, 0 ≤ balance a)
    (amounts : ∀ t, ∀ call ∈ program t, 0 ≤ call.amount)
    (debtor : ∀ t u, ∀ call ∈ program t, ∀ call' ∈ program u, call.from_ = call'.from_ → t = u) :
    Inv (∑ a, balance a) (initial balance program) balance where
  nonneg := nonneg
  stands a := by simp [initial]
  enough t call debit := by simp [initial] at debit
  amounts := amounts
  debtor := debtor
  total_eq := rfl

/-- No update of a run overflows. -/
theorem clean_of_run {total : Int} (bounded : total ≤ intMax)
    (begun : Inv total (initial balance program) balance)
    (run : machine.Steps (initial balance program) events s) :
    (∃ object, Inv total s object) ∧ ∀ t, .overflowed t ∉ events := by
  induction run with
  | refl => exact ⟨⟨balance, begun⟩, by simp⟩
  | step prior transition _ inductionHypothesis =>
      obtain ⟨⟨object, inv⟩, clean⟩ := inductionHypothesis
      obtain ⟨⟨_, object', _, _, inv'⟩, fitting⟩ := inv.matched bounded transition
      refine ⟨⟨object', inv'⟩, fun t member => ?_⟩
      rcases List.mem_append.mp member with earlier | last
      · exact clean t earlier
      · exact fitting t (List.mem_singleton.mp last).symm

/-- When every account is debited by one thread at most, and the money fits into
an `int`, balances do not become negative, no update overflows, money is in the
accounts or in flight, and the transfers take effect one at a time: each decides
and moves the money at one instant between its call and its return. -/
theorem transfers_linearizable (nonneg : ∀ a, 0 ≤ balance a)
    (fits : ∑ a, balance a ≤ intMax)
    (amounts : ∀ t, ∀ call ∈ program t, 0 ≤ call.amount)
    (debtor : ∀ t u, ∀ call ∈ program t, ∀ call' ∈ program u, call.from_ = call'.from_ → t = u)
    (run : machine.Steps (initial balance program) events s) :
    (∀ a, 0 ≤ s.balance a) ∧ (∀ t, .overflowed t ∉ events) ∧
      ∑ a, s.balance a + ∑ t, (s.threads t).pc.inFlight = ∑ a, balance a ∧
      ∃ marks final, Linearizes Bank balance (events.filterMap Event.action) marks final ∧
        (∀ a, final.object a = s.balance a + ∑ t, (s.threads t).pc.held a) ∧
        (s.Quiescent → final.object = s.balance) := by
  have begun := inv_initial nonneg amounts debtor
  obtain ⟨marks, object, inv, linearizes⟩ := (simulation fits).linearizes run begun fun t => rfl
  obtain ⟨_, clean⟩ := clean_of_run fits begun run
  refine ⟨inv.nonneg, clean, inv.conserved, marks, _, linearizes, inv.stands, fun quiescent => ?_⟩
  funext a
  have stands := inv.stands a
  simpa [quiescent _] using stands

end Runs

/-- The two threads of `main`. -/
def twoTransfers : Fin 2 → List (Call (Fin 2))
  | 0 => [⟨50, 0, 1⟩]
  | 1 => [⟨130, 1, 0⟩]

/-- A run in which the second transfer is refused while the money that would
cover it is in flight. -/
theorem transfers_linearizable_run : ∃ (events : List (Event (Fin 2) (Fin 2)))
    (s : State (Fin 2) (Fin 2)) (marks : _) (final : _),
    Linearizes Bank (fun _ => 100) (events.filterMap Event.action) marks final ∧
      final.object = s.balance ∧ s.balance 0 = 50 ∧ s.balance 1 = 150 ∧
      .returned 1 false ∈ events := by
  obtain ⟨events, s, run, quiescent, left, right, refused⟩ :
      ∃ events s, machine.Steps (initial (fun _ => 100) twoTransfers) events s ∧ s.Quiescent ∧
        s.balance 0 = 50 ∧ s.balance 1 = 150 ∧ .returned 1 false ∈ events :=
    System.exists_steps [0, 0, 0, 1, 1, 0, 0, 1] (by decide +kernel)
  obtain ⟨_, _, _, marks, final, linearizes, _, atEnd⟩ :=
    transfers_linearizable (by decide) (by decide) (by decide) (by decide) run
  exact ⟨events, s, marks, final, linearizes, atEnd quiescent, left, right, refused⟩

end LockFree.Transfer
