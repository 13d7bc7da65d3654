import LockFree.Aba.Raw.Effects

/-!
# The invariant of the raw-pointer stack

A thread is guarded when no `new` answers with the address that its `pop` in
flight still holds as `old_head`. A node that `head` reaches is live and belongs
to no thread, and a guarded `pop` that holds it as `old_head` has read its
present `next`. As long as also the other threads install the present `next`,
every step keeps this.
-/

namespace LockFree.Aba.Raw

open Memory

variable {Tid T : Type}

/-- The node of a `push` that has not published it, with its data. -/
def Pc.pushing : Pc T → Option (T × Addr)
  | .load data newNode | .assign data newNode _ | .publish data newNode => some (data, newNode)
  | _ => none

/-- The node of a `push` that has not published it. -/
def Pc.private (pc : Pc T) : Option Addr := pc.pushing.map Prod.snd

/-- The node that only this thread has: not yet published, or unlinked. -/
def Pc.owned : Pc T → Option Addr
  | .load _ newNode | .assign _ newNode _ | .publish _ newNode => some newNode
  | .move oldHead | .delete oldHead _ => some oldHead
  | _ => none

/-- The `old_head` of a `pop` that has read `head` and not yet succeeded. -/
def Pc.oldHead : Pc T → Option Addr
  | .test oldHead => oldHead
  | .exchange oldHead _ => some oldHead
  | _ => none

/-- `new` does not answer with a block that a `pop` in flight holds as `old_head`. -/
def NoReuse (s : State Tid T) : Event Tid T → Prop
  | .made _ node => ∀ u, (s.threads u).pc.oldHead ≠ some node
  | _ => True

instance [Fintype Tid] (s : State Tid T) (event : Event Tid T) : Decidable (NoReuse s event) :=
  match event with
  | .made _ node => inferInstanceAs (Decidable (∀ u, (s.threads u).pc.oldHead ≠ some node))
  | .called .. | .loaded .. | .assigned .. | .published .. | .readNext .. | .foundEmpty ..
  | .unlinked .. | .exchangeFailed .. | .moved .. | .deleted .. | .returned .. | .faulted .. =>
      inferInstanceAs (Decidable True)

/-- A private node is owned. -/
theorem Pc.owned_of_private {pc : Pc T} {a : Addr} (private_ : pc.private = some a) :
    pc.owned = some a := by
  cases pc <;> simp_all [Pc.private, Pc.pushing, Pc.owned]

/-- What holds of the memory while a thread, guarded or not, is at a position. -/
structure Holds (s : State Tid T) (guard : Prop) (pc : Pc T) : Prop where
  live : ∀ a, pc.owned = some a → ∃ data next, s.view a = some (data, next)
  apart : ∀ a, pc.owned = some a → ¬ Reaches s.next s.head a
  content : ∀ data n, pc.pushing = some (data, n) → ∃ next, s.view n = some (data, next)
  current : guard → ∀ a next, pc = .exchange a next → Reaches s.next s.head a → s.next a = next

/-- What holds of the positions of two threads, the first guarded or not. -/
structure Separate (guard : Prop) (pc pc' : Pc T) : Prop where
  owned : ∀ a, pc.owned = some a → pc'.owned ≠ some a
  old : guard → ∀ a, pc.oldHead = some a → pc'.private ≠ some a

/-- The invariant for a set of guarded threads. -/
structure Inv (guarded : Tid → Prop) (s : State Tid T) (values : List T) : Prop where
  stores : Stores s values
  holds : ∀ t, Holds s (guarded t) (s.threads t).pc
  separate : ∀ t u, t ≠ u → Separate (guarded t) (s.threads t).pc (s.threads u).pc

/-- What the invariant asks of a step: it does not reuse the `old_head` of a
guarded thread, and a thread that is not guarded installs the present `next`. -/
def Sound (guarded : Tid → Prop) (s : State Tid T) : Event Tid T → Prop
  | .made _ node => ∀ u, guarded u → (s.threads u).pc.oldHead ≠ some node
  | .unlinked t _ installed actual => guarded t ∨ actual = installed
  | _ => True

/-- Without reuse all threads are guarded. -/
theorem NoReuse.sound {s : State Tid T} {event : Event Tid T} (noReuse : NoReuse s event) :
    Sound (fun _ => True) s event := by
  cases event with
  | made t n => exact fun u _ => noReuse u
  | unlinked => exact .inl trivial
  | _ => trivial

/-- How a step changes the stored values. -/
inductive Change (s : State Tid T) : Event Tid T → List T → List T → Prop where
  | published {t n data values} (pc : (s.threads t).pc = .publish data n) :
      Change s (.published t n) values (data :: values)
  | unlinked {t a data next values} (found : s.view a = some (data, next)) :
      Change s (.unlinked t a next next) (data :: values) values
  | kept {event values} (notPublished : ∀ t n, event ≠ .published t n)
      (notUnlinked : ∀ t a next actual, event ≠ .unlinked t a next actual) :
      Change s event values values

variable {guarded : Tid → Prop} {guard guard' : Prop} {s s' : State Tid T} {values : List T}
  {pc pc' : Pc T} {a n : Addr}

/-- Nothing is said about the memory while a thread holds no node. -/
theorem Holds.of_none (owned : pc.owned = none) (notExchange : ∀ a next, pc ≠ .exchange a next) :
    Holds s guard pc where
  live a own := by simp [owned] at own
  apart a own := by simp [owned] at own
  content data n push := by
    have own : pc.owned = some n := Pc.owned_of_private (by simp [Pc.private, push])
    simp [owned] at own
  current _ a next exchange := absurd exchange (notExchange a next)

/-- What holds at a position still does when its own node is as before, what
`head` newly reaches is not its concern, and the links on the way are the same. -/
theorem Holds.transfer (holds : Holds s guard pc)
    (views : ∀ a, pc.owned = some a → s'.view a = s.view a)
    (reached : ∀ a, Reaches s'.next s'.head a → Reaches s.next s.head a ∨
      (pc.owned ≠ some a ∧ (guard → pc.oldHead ≠ some a)))
    (links : ∀ a, Reaches s.next s.head a → s'.next a = s.next a) : Holds s' guard pc where
  live a own := by
    rw [views a own]
    exact holds.live a own
  apart a own reaches := by
    rcases reached a reaches with before | ⟨notOwned, _⟩
    · exact holds.apart a own before
    · exact notOwned own
  content data n push := by
    rw [views n (Pc.owned_of_private (by simp [Pc.private, push]))]
    exact holds.content data n push
  current guards a next exchange reaches := by
    rcases reached a reaches with before | ⟨_, notOld⟩
    · rw [links a before]
      exact holds.current guards a next exchange before
    · exact absurd (by simp [exchange, Pc.oldHead]) (notOld guards)

/-- A private node shows the data it was made for. -/
theorem Holds.private_view (holds : Holds s guard pc) {data content : T} {next : Option Addr}
    (push : pc.pushing = some (data, n)) (found : s.view n = some (content, next)) :
    content = data := by
  obtain ⟨_, shown⟩ := holds.content data n push
  rw [found] at shown
  cases shown
  rfl

/-- A node that `head` reaches is live. -/
theorem Inv.live (inv : Inv guarded s values) (reaches : Reaches s.next s.head a) :
    ∃ data next, s.view a = some (data, next) := by
  obtain ⟨data, next, found, _⟩ := inv.stores.found reaches
  exact ⟨data, next, found⟩

/-- A node that `head` reaches is not private. -/
theorem Inv.not_private (inv : Inv guarded s values) (reaches : Reaches s.next s.head a) (t : Tid) :
    (s.threads t).pc.private ≠ some a :=
  fun private_ => (inv.holds t).apart a (Pc.owned_of_private private_) reaches

section Written

variable (unreached : ¬ Reaches s.next s.head n) (views : ∀ b, b ≠ n → s'.view b = s.view b)
  (top : s'.head = s.head)

include unreached views

/-- A write to a node that `head` does not reach changes no link on the way. -/
theorem next_written (reaches : Reaches s.next s.head a) : s'.next a = s.next a := by
  have other : a ≠ n := fun same => unreached (same ▸ reaches)
  rw [State.next, views a other, State.next]

include top

/-- A write to a node that `head` does not reach adds nothing to what it reaches. -/
theorem reaches_written (reaches : Reaches s'.next s'.head a) : Reaches s.next s.head a := by
  rw [top] at reaches
  exact reaches.of_congr fun _ before => next_written unreached views before

/-- A write to a node that `head` does not reach leaves the stored values. -/
theorem stores_written (stores : Stores s values) : Stores s' values := by
  rw [Stores, top]
  exact stores.congr fun b reaches => views b fun same => unreached (same ▸ reaches)

/-- A write to a node that `head` does not reach is no concern of a thread that
does not own it. -/
theorem Holds.written (holds : Holds s guard pc) (notOwned : pc.owned ≠ some n) :
    Holds s' guard pc :=
  holds.transfer (fun a own => views a fun same => notOwned (same ▸ own))
    (fun _ reaches => .inl (reaches_written unreached views top reaches))
    (fun _ reaches => next_written unreached views reaches)

end Written

variable [DecidableEq Tid] {t : Tid} {event : Event Tid T}

/-- The invariant after a step of one thread, from what the step does to the
stored values, to its own position and to the others. -/
theorem Inv.put {values' : List T} {threads : Tid → Thread T} (inv : Inv guarded s values)
    (same : s'.threads = threads) (others : ∀ u, u ≠ t → threads u = s.threads u)
    (stores : Stores s' values') (own : Holds s' (guarded t) (threads t).pc)
    (holds : ∀ u, u ≠ t → Holds s' (guarded u) (s.threads u).pc)
    (separate : ∀ u, u ≠ t → Separate (guarded t) (threads t).pc (s.threads u).pc ∧
      Separate (guarded u) (s.threads u).pc (threads t).pc) : Inv guarded s' values' := by
  subst same
  refine ⟨stores, fun u => ?_, fun u v different => ?_⟩
  · by_cases stepped : u = t
    · exact stepped ▸ own
    · rw [others u stepped]
      exact holds u stepped
  · by_cases first : u = t
    · subst first
      rw [others v (Ne.symm different)]
      exact (separate v (Ne.symm different)).1
    · by_cases second : v = t
      · subst second
        rw [others u first]
        exact (separate u first).2
      · rw [others u first, others v second]
        exact inv.separate u v different

/-- A position with no more nodes than another is as separate as that one. -/
theorem Separate.mono (separate : Separate guard pc pc' ∧ Separate guard' pc' pc) {pc'' : Pc T}
    (owned : ∀ a, pc''.owned = some a → pc.owned = some a)
    (private_ : ∀ a, pc''.private = some a → pc.private = some a)
    (old : ∀ a, pc''.oldHead = some a → pc.oldHead = some a ∨ pc'.private ≠ some a) :
    Separate guard pc'' pc' ∧ Separate guard' pc' pc'' where
  left :=
    { owned := fun a own => separate.1.owned a (owned a own)
      old := fun guards a holds => (old a holds).elim (separate.1.old guards a) id }
  right :=
    { owned := fun a other own => separate.2.owned a other (owned a own)
      old := fun guards a other own => separate.2.old guards a other (private_ a own) }

/-- A step that neither writes to the memory nor moves `head`. -/
theorem Inv.quiet (inv : Inv guarded s values) (thread : Thread T)
    (owned : ∀ a, thread.pc.owned = some a → (s.threads t).pc.owned = some a)
    (pushing : ∀ data n, thread.pc.pushing = some (data, n) →
      (s.threads t).pc.pushing = some (data, n))
    (old : ∀ a, thread.pc.oldHead = some a →
      (s.threads t).pc.oldHead = some a ∨ Reaches s.next s.head a)
    (current : guarded t → ∀ a next, thread.pc = .exchange a next → Reaches s.next s.head a →
      s.next a = next) :
    Inv guarded { s with threads := Function.update s.threads t thread } values := by
  refine inv.put (t := t) rfl (fun u other => Function.update_of_ne other _ _) inv.stores ?_
    (fun u _ => ?_) fun u other => ?_
  · simp only [Function.update_self]
    exact ⟨fun a own => (inv.holds t).live a (owned a own),
      fun a own => (inv.holds t).apart a (owned a own),
      fun data n push => (inv.holds t).content data n (pushing data n push),
      fun guards => current guards⟩
  · exact ⟨(inv.holds u).live, (inv.holds u).apart, (inv.holds u).content, (inv.holds u).current⟩
  · simp only [Function.update_self]
    refine Separate.mono ⟨inv.separate t u (Ne.symm other), inv.separate u t other⟩ owned
      (fun a private_ => ?_) fun a holds => (old a holds).imp_right fun reaches =>
        inv.not_private reaches u
    simp only [Pc.private, Option.map_eq_some_iff] at private_ ⊢
    obtain ⟨⟨data, n⟩, push, rfl⟩ := private_
    exact ⟨_, pushing data n push, rfl⟩

/-- A step that writes to a node of its own or to a new one. -/
theorem Inv.write (inv : Inv guarded s values) {pc' : Pc T} {block : Block T}
    (unreached : ¬ Reaches s.next s.head n)
    (notOthers : ∀ u, u ≠ t → (s.threads u).pc.owned ≠ some n)
    (holds : Holds (s.put t pc' (Function.update s.memory n block)) (guarded t) pc')
    (separate : ∀ u, u ≠ t → Separate (guarded t) pc' (s.threads u).pc ∧
      Separate (guarded u) (s.threads u).pc pc') :
    Inv guarded (s.put t pc' (Function.update s.memory n block)) values := by
  have views : ∀ b, b ≠ n →
      (s.put t pc' (Function.update s.memory n block)).view b = s.view b := by
    intro b other
    rw [view_update, if_neg other]
  refine inv.put (t := t) rfl (fun u other => put_threads_other s other _ _)
    (stores_written unreached views rfl inv.stores) ?_ (fun u other => ?_) fun u other => ?_
  · rw [put_threads_self]
    exact holds
  · exact (inv.holds u).written unreached views rfl (notOthers u other)
  · rw [put_threads_self]
    exact separate u other

/-- A step that writes a live block to the private node of its own `push`. -/
theorem Inv.rewrite (inv : Inv guarded s values) {data : T} {pc' : Pc T} (link : Option Addr)
    (before : (s.threads t).pc.pushing = some (data, n)) (push : pc'.pushing = some (data, n))
    (owned : pc'.owned = some n) (old : pc'.oldHead = none) :
    Inv guarded (s.put t pc' (Function.update s.memory n (.live data link))) values := by
  have own : (s.threads t).pc.owned = some n :=
    Pc.owned_of_private (by simp [Pc.private, before])
  have unreached := (inv.holds t).apart n own
  have views : ∀ b, b ≠ n →
      (s.put t pc' (Function.update s.memory n (.live data link))).view b = s.view b := by
    intro b other
    rw [view_update, if_neg other]
  refine inv.write unreached
    (fun u other => (inv.separate t u (Ne.symm other)).owned n own) ⟨?_, ?_, ?_, ?_⟩
    fun u other => Separate.mono ⟨inv.separate t u (Ne.symm other), inv.separate u t other⟩
      (fun a same => ?_) (fun a same => ?_) fun a holds => ?_
  · intro a same
    obtain rfl : n = a := by simpa [owned] using same
    exact ⟨data, link, by simp [view_update]⟩
  · intro a same reaches
    obtain rfl : n = a := by simpa [owned] using same
    exact unreached (reaches_written unreached views rfl reaches)
  · intro data' n' same
    rw [push] at same
    cases same
    exact ⟨link, by simp [view_update]⟩
  · intro _ a next exchange
    rw [exchange] at push
    cases push
  · rw [owned] at same
    exact same ▸ own
  · simpa [Pc.private, before, push] using same
  · rw [old] at holds
    cases holds

/-- A new node in a block that nobody holds. -/
theorem Inv.make (inv : Inv guarded s values) {data : T} (fresh : s.view n = none)
    (notOld : ∀ u, guarded u → (s.threads u).pc.oldHead ≠ some n) :
    Inv guarded (s.put t (.load data n) (Function.update s.memory n (.live data none))) values := by
  have unreached : ¬ Reaches s.next s.head n := by
    intro reaches
    obtain ⟨_, _, found⟩ := inv.live reaches
    rw [fresh] at found
    cases found
  have notOwned : ∀ u, (s.threads u).pc.owned ≠ some n := by
    intro u own
    obtain ⟨_, _, found⟩ := (inv.holds u).live n own
    rw [fresh] at found
    cases found
  have views : ∀ b, b ≠ n →
      (s.put t (.load data n) (Function.update s.memory n (.live data none))).view b =
        s.view b := by
    intro b other
    rw [view_update, if_neg other]
  refine inv.write unreached (fun u _ => notOwned u) ⟨?_, ?_, ?_, ?_⟩ fun u _ => ⟨⟨?_, ?_⟩, ?_, ?_⟩
  · rintro _ ⟨⟩
    exact ⟨data, none, by simp [view_update]⟩
  · rintro _ ⟨⟩ reaches
    exact unreached (reaches_written unreached views rfl reaches)
  · rintro _ _ ⟨⟩
    exact ⟨none, by simp [view_update]⟩
  · rintro _ _ _ ⟨⟩
  · rintro _ ⟨⟩
    exact notOwned u
  · rintro _ _ ⟨⟩
  · rintro a own ⟨⟩
    exact notOwned u own
  · rintro guards a old ⟨⟩
    exact notOld u guards old

/-- The deletion of an unlinked node. -/
theorem Inv.delete (inv : Inv guarded s values) {tmp data : T} {next : Option Addr}
    (pc : (s.threads t).pc = .delete n tmp) :
    Inv guarded (s.put t (.leave (.value tmp)) (Function.update s.memory n (.freed data next)))
      values := by
  have own : (s.threads t).pc.owned = some n := by rw [pc]; rfl
  refine inv.write ((inv.holds t).apart n own)
    (fun u other => (inv.separate t u (Ne.symm other)).owned n own)
    (.of_none rfl fun _ _ exchange => by cases exchange)
    fun u other => Separate.mono ⟨inv.separate t u (Ne.symm other), inv.separate u t other⟩ ?_ ?_ ?_
  all_goals rintro a ⟨⟩

/-- What `head` reaches once a node that points to it is published. -/
theorem reaches_publish {next : Addr → Option Addr} {head : Option Addr} (link : next n = head) :
    Reaches next (some n) a ↔ a = n ∨ Reaches next head a := by
  constructor
  · intro reaches
    cases reaches with
    | here => exact .inl rfl
    | there rest => exact .inr (link ▸ rest)
  · rintro (rfl | reaches)
    · exact .here
    · exact .there (link.symm ▸ reaches)

/-- The publication of a private node. -/
theorem Inv.publish (inv : Inv guarded s values) {data content : T}
    (pc : (s.threads t).pc = .publish data n) (found : s.view n = some (content, s.head)) :
    Inv guarded ((s.put t (.leave .done) s.memory).setHead (some n)) (data :: values) := by
  have push : (s.threads t).pc.pushing = some (data, n) := by rw [pc]; rfl
  have private_ : (s.threads t).pc.private = some n := by simp [Pc.private, push]
  obtain rfl := (inv.holds t).private_view push found
  have link : s.next n = s.head := by simp [State.next, found]
  refine inv.put (t := t) rfl (fun u other => put_threads_other s other _ s.memory)
    (.cons found inv.stores) ?_ (fun u other => ?_) fun u other => ?_
  · rw [setHead_threads, put_threads_self]
    exact .of_none rfl fun _ _ exchange => by cases exchange
  · refine (inv.holds u).transfer (fun _ _ => rfl) (fun a reaches => ?_) fun _ _ => rfl
    rcases (reaches_publish link).mp reaches with rfl | before
    · have separate := inv.separate u t other
      exact .inr ⟨fun own => separate.owned a own (Pc.owned_of_private private_),
        fun guards old => separate.old guards a old private_⟩
    · exact .inl before
  · rw [setHead_threads, put_threads_self]
    refine Separate.mono ⟨inv.separate t u (Ne.symm other), inv.separate u t other⟩ ?_ ?_ ?_
    all_goals rintro a ⟨⟩

omit [DecidableEq Tid] in
/-- The stored values begin with that of the first node. -/
theorem Inv.uncons (inv : Inv guarded s values) (top : s.head = some a) :
    ∃ data next rest, values = data :: rest ∧ s.view a = some (data, next) ∧
      Lists s.view next rest := by
  have stores := inv.stores
  rw [Stores, top] at stores
  cases stores with
  | @cons _ data next rest found more => exact ⟨data, next, rest, rfl, found, more⟩

omit [DecidableEq Tid] in
/-- The first node is not reached from its successor. -/
theorem Inv.not_reached_from_next (inv : Inv guarded s values) (top : s.head = some a) :
    ¬ Reaches s.next (s.next a) a := by
  obtain ⟨path, chain, _⟩ := inv.stores.chain
  rw [top] at chain
  obtain ⟨rest, rfl, more⟩ := chain.uncons
  intro reaches
  exact (List.nodup_cons.mp chain.nodup).1 (more.reaches_iff.mp reaches)

omit [DecidableEq Tid] in
/-- A successful compare-exchange of `pop` installs the `next` of the first node. -/
theorem Inv.installs (inv : Inv guarded s values) {next : Option Addr}
    (pc : (s.threads t).pc = .exchange a next) (top : s.head = some a)
    (sound : Sound guarded s (.unlinked t a next (s.next a))) : s.next a = next :=
  sound.elim (fun guards => (inv.holds t).current guards a next pc (top ▸ .here)) id

/-- The unlinking of the first node. -/
theorem Inv.unlink (inv : Inv guarded s values) {next : Option Addr}
    (pc : (s.threads t).pc = .exchange a next) (top : s.head = some a)
    (installs : s.next a = next) :
    ∃ data rest, values = data :: rest ∧ s.view a = some (data, next) ∧
      Inv guarded ((s.put t (.move a) s.memory).setHead next) rest := by
  obtain ⟨data, link, rest, rfl, found, more⟩ := inv.uncons top
  obtain rfl : link = next := by simpa [State.next, found] using installs
  have old : (s.threads t).pc.oldHead = some a := by rw [pc]; rfl
  have reached : Reaches s.next s.head a := top ▸ .here
  have fewer : ∀ b, Reaches s.next link b → Reaches s.next s.head b := by
    intro b reaches
    rw [top]
    exact .there (installs.symm ▸ reaches)
  refine ⟨data, rest, rfl, found,
    inv.put (t := t) rfl (fun u other => put_threads_other s other _ s.memory) more ?_
      (fun u other => ?_) fun u other => ?_⟩
  · rw [setHead_threads, put_threads_self]
    refine ⟨?_, ?_, ?_, ?_⟩
    · rintro _ ⟨⟩
      exact ⟨data, link, found⟩
    · rintro _ ⟨⟩ reaches
      exact inv.not_reached_from_next top (installs.symm ▸ reaches)
    · rintro _ _ ⟨⟩
    · rintro _ _ _ ⟨⟩
  · exact (inv.holds u).transfer (fun _ _ => rfl) (fun b reaches => .inl (fewer b reaches))
      fun _ _ => rfl
  · rw [setHead_threads, put_threads_self]
    refine ⟨⟨?_, ?_⟩, ?_, ?_⟩
    · rintro _ ⟨⟩ own
      exact (inv.holds u).apart a own reached
    · rintro _ _ ⟨⟩
    · rintro _ own ⟨⟩
      exact (inv.holds u).apart a own reached
    · rintro _ _ _ ⟨⟩

/-- Every sound step keeps the invariant, changes the stored values as
`Change` says, and accesses no node that is not in use. -/
theorem Inv.effect (inv : Inv guarded s values) (effect : Effect s event s')
    (sound : Sound guarded s event) :
    ∃ values', Inv guarded s' values' ∧ Change s event values values' ∧
      event ≠ .faulted event.thread := by
  -- a step that leaves the stored values
  have kept : Inv guarded s' values → (∀ t n, event ≠ .published t n) →
      (∀ t a next actual, event ≠ .unlinked t a next actual) →
      event ≠ .faulted event.thread → ∃ values', Inv guarded s' values' ∧
        Change s event values values' ∧ event ≠ .faulted event.thread :=
    fun after notPublished notUnlinked notFaulted =>
      ⟨values, after, .kept notPublished notUnlinked, notFaulted⟩
  cases effect with
  | @called t call calls pc next =>
      refine kept (inv.quiet ⟨calls, Call.entry call⟩ ?_ ?_ ?_ ?_) nofun nofun nofun
      all_goals cases call <;> simp [Call.entry, Pc.owned, Pc.pushing, Pc.oldHead]
  | @made t data n pc fresh =>
      exact kept (inv.make fresh sound) nofun nofun nofun
  | @loadedPush t data n value pc seen =>
      refine kept (inv.quiet _ ?_ ?_ ?_ ?_) nofun nofun nofun <;>
        simp [pc, Pc.owned, Pc.pushing, Pc.oldHead]
  | @assigned t data n loaded content previous pc found =>
      obtain rfl := (inv.holds t).private_view (by rw [pc]; rfl) found
      exact kept (inv.rewrite loaded (by rw [pc]; rfl) rfl rfl rfl) nofun nofun nofun
  | @published t data n content pc found =>
      exact ⟨_, inv.publish pc found, .published pc, nofun⟩
  | @pushFailed t data n content expected spurious pc found flag =>
      obtain rfl := (inv.holds t).private_view (by rw [pc]; rfl) found
      exact kept (inv.rewrite s.head (by rw [pc]; rfl) rfl rfl rfl) nofun nofun nofun
  | @loadedPop t pc | @popFailed t a next spurious pc flag =>
      refine kept (inv.quiet _ ?_ ?_ ?_ ?_) nofun nofun nofun
      · simp [Pc.owned]
      · simp [Pc.pushing]
      · rintro b (top : s.head = some b)
        exact .inr (top ▸ .here)
      · simp
  | @foundEmpty t pc | @returned t result pc =>
      refine kept (inv.quiet _ ?_ ?_ ?_ ?_) nofun nofun nofun <;>
        simp [Pc.owned, Pc.pushing, Pc.oldHead]
  | @readNext t a value pc shown =>
      refine kept (inv.quiet _ ?_ ?_ ?_ ?_) nofun nofun nofun
      · simp [Pc.owned]
      · simp [Pc.pushing]
      · rintro b ⟨⟩
        exact .inl (by rw [pc]; rfl)
      · rintro _ b next ⟨⟩ reaches
        obtain ⟨data, link, found⟩ := inv.live reaches
        rw [State.next, found, shown data link found]
        rfl
  | @unlinked t a next pc top =>
      have installs := inv.installs pc top sound
      obtain ⟨data, rest, rfl, found, after⟩ := inv.unlink pc top installs
      rw [installs]
      exact ⟨rest, after, .unlinked found, nofun⟩
  | @moved t a data next pc found =>
      refine kept (inv.quiet _ ?_ ?_ ?_ ?_) nofun nofun nofun <;>
        simp [pc, Pc.owned, Pc.pushing, Pc.oldHead]
  | @deleted t a tmp data next pc found =>
      exact kept (inv.delete pc) nofun nofun nofun
  | @faulted t a accesses dead =>
      have own : (s.threads t).pc.owned = some a := by
        cases pc : (s.threads t).pc <;> simp_all [Pc.accesses, Pc.owned]
      obtain ⟨data, next, found⟩ := (inv.holds t).live a own
      rw [dead] at found
      cases found

omit [DecidableEq Tid] in
/-- A new stack stores nothing. -/
theorem inv_initial (program : Tid → List (Call T)) : Inv guarded (initial program) [] where
  stores := .nil
  holds _ := .of_none rfl fun _ _ exchange => by cases exchange
  separate _ _ _ := ⟨by rintro a ⟨⟩, by rintro _ a ⟨⟩⟩

end LockFree.Aba.Raw
