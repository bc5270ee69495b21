/-
Processes with mailboxes and sends that block.

A process has a mailbox and a worker.  A worker with nothing left to send takes
the first letter of its mailbox; what the letter makes it send it sends one by
one, and it blocks at a letter for which there is no room.  Whether there is room
is for the system to say, and may depend on everything in flight.  The other
threads of a process send letters too, and processes come and go.

* `Exchange.step` — one step of a worker, of another thread or of a process;
* `Exchange.waits_of_stuck` — **where no worker goes on, whoever blocks waits
  for one that blocks**;
* `Exchange.idle_of_wellFounded` — no deadlock without a cycle of such waits;
* `Exchange.stuck_run` — **a deadlock is for good**, as long as none of those
  that take part in it exits.
-/
import Mathlib.Logic.Function.Basic
import Mathlib.Order.WellFounded
import IflyosSDK.Runs

/-- A letter in flight. -/
structure Letter (P M : Type*) where
  sender : P
  receiver : P
  body : M

/-- What a system is made of: when a letter finds room among those in flight,
which letters are sent at all, what a process does with a letter, and what
becomes of the memory when a process starts or another thread changes it. -/
structure Exchange (P M W E : Type*) where
  room : List (Letter P M) → Letter P M → Bool
  sends : Letter P M → Bool
  react : W → P → M → W × List (P × M)
  start : W → P → W
  change : W → E → Option W

/-- The processes that run, the letters in flight in the order in which they
were sent, and what each worker has still to send. -/
structure Mailboxes (P M W : Type*) where
  live : P → Bool
  mail : List (Letter P M)
  todo : P → List (P × M)
  world : W

namespace Exchange

variable {P M W E : Type*}

/-- What can happen next: a worker takes a letter or sends one, another thread
sends a letter, a process starts or exits, the memory changes. -/
inductive Action (P M E : Type*)
  | take (p : P)
  | send (p : P)
  | post (l : Letter P M)
  | start (p : P)
  | exit (p : P)
  | change (e : E)

section Defs

variable (X : Exchange P M W E) (s : Mailboxes P M W)

/-- The letter that is found, and what is left without it. -/
theorem find_cases {α : Type*} {f : α → Bool} {xs : List α} {x : α} (h : xs.find? f = some x) :
    f x = true ∧ ∃ before after, xs = before ++ x :: after ∧ xs.eraseP f = before ++ after := by
  obtain ⟨hx, before, after, rfl, hbefore⟩ := List.find?_eq_some_iff_append.mp h
  refine ⟨hx, before, after, rfl, ?_⟩
  have hnot : ∀ y ∈ before, ¬ f y = true := fun y hy => by simpa using hbefore y hy
  rw [List.eraseP_append_right _ hnot, List.eraseP_cons_of_pos hx]

theorem countP_eraseP {α : Type*} {f g : α → Bool} {xs : List α} {x : α}
    (h : xs.find? f = some x) : xs.countP g = (xs.eraseP f).countP g + if g x then 1 else 0 := by
  obtain ⟨-, before, after, hxs, hrest⟩ := find_cases h
  rw [hrest, hxs, List.countP_append, List.countP_append, List.countP_cons, Nat.add_assoc]

/-- The letter joins those in flight, or is lost when nobody is there. -/
def deliver (l : Letter P M) : List (Letter P M) :=
  if s.live l.receiver then s.mail ++ [l] else s.mail

/-- There is no room for the letter. -/
def Blocks (l : Letter P M) : Prop := s.live l.receiver = true ∧ X.room s.mail l = false

instance (l : Letter P M) : Decidable (X.Blocks s l) := inferInstanceAs (Decidable (_ ∧ _))

/-- The worker has something to send. -/
def Busy (p : P) : Prop := s.todo p ≠ []

/-- Every letter has been taken, and no worker has anything to send. -/
def Idle : Prop := s.mail = [] ∧ ∀ p, s.todo p = []

/-- What `p` has to send goes to `q`, or a letter of `p` waits there. -/
def Waits (p q : P) : Prop :=
  ∃ l ∈ s.mail, l.receiver = q ∧ (l.sender = p ∨ ∃ m todo, s.todo p = (q, m) :: todo)

/-- Steps of the workers. -/
def Own : Action P M E → Prop
  | .take _ | .send _ => True
  | .post _ | .start _ | .exit _ | .change _ => False

instance : DecidablePred (Own : Action P M E → Prop)
  | .take _ | .send _ => isTrue trivial
  | .post _ | .start _ | .exit _ | .change _ => isFalse id

/-- A letter that is delivered joins the others at their end. -/
theorem mem_deliver {s : Mailboxes P M W} {l l' : Letter P M} (h : l' ∈ deliver s l) :
    l' ∈ s.mail ∨ l' = l ∧ s.live l.receiver = true := by
  rw [deliver] at h
  split_ifs at h with hlive
  · rcases List.mem_append.mp h with h | h
    · exact Or.inl h
    · exact Or.inr ⟨List.mem_singleton.mp h, hlive⟩
  · exact Or.inl h

theorem sublist_deliver {s : Mailboxes P M W} {l : Letter P M} : s.mail.Sublist (deliver s l) := by
  rw [deliver]
  split
  · exact List.sublist_append_left _ _
  · exact List.Sublist.refl _

variable [DecidableEq P]

def addressed (p : P) (l : Letter P M) : Bool := decide (l.receiver = p)

theorem addressed_iff {p : P} {l : Letter P M} : addressed p l = true ↔ l.receiver = p :=
  decide_eq_true_iff

def step (s : Mailboxes P M W) : Action P M E → Option (Mailboxes P M W)
  | .take p =>
    if s.live p ∧ (s.todo p).isEmpty then
      (s.mail.find? (addressed p)).map fun l =>
        let r := X.react s.world p l.body
        { s with
          mail := s.mail.eraseP (addressed p)
          todo := Function.update s.todo p r.2
          world := r.1 }
    else none
  | .send p =>
    match s.todo p with
    | [] => none
    | (q, m) :: todo =>
      if X.Blocks s ⟨p, q, m⟩ then none
      else some { s with mail := deliver s ⟨p, q, m⟩, todo := Function.update s.todo p todo }
  | .post l =>
    if s.live l.sender ∧ X.sends l ∧ ¬ X.Blocks s l then some { s with mail := deliver s l }
    else none
  | .start p =>
    if s.live p then none
    else some { s with live := Function.update s.live p true, world := X.start s.world p }
  | .exit p =>
    if s.live p then
      some { s with
        live := Function.update s.live p false
        mail := s.mail.filter fun l => !addressed p l
        todo := Function.update s.todo p [] }
    else none
  | .change e => (X.change s.world e).map fun w => { s with world := w }

/-- No worker can go on. -/
def Stuck : Prop := ∀ a : Action P M E, Own a → X.step s a = none

end Defs

/-- What is assumed of the room: a letter finds some when nothing of its sender
and nothing for its receiver is in flight, and less in flight leaves no less
room. -/
structure Roomy (X : Exchange P M W E) : Prop where
  clear : ∀ mail l, (∀ l' ∈ mail, l'.sender ≠ l.sender ∧ l'.receiver ≠ l.receiver) →
    X.room mail l = true
  sublist : ∀ mail mail' l, mail.Sublist mail' → X.room mail' l = true → X.room mail l = true

/-- What a reaction has a process send is something that it sends. -/
def Proper (X : Exchange P M W E) : Prop :=
  ∀ w p m, ∀ o ∈ (X.react w p m).2, X.sends ⟨p, o.1, o.2⟩ = true

/-! ### What holds of every exchange -/

/-- Letters wait, and workers are busy, at processes that run; and all of it is
what they send. -/
structure Inv (X : Exchange P M W E) (s : Mailboxes P M W) : Prop where
  mail_live : ∀ l ∈ s.mail, s.live l.receiver = true
  busy_live : ∀ p, Busy s p → s.live p = true
  mail_sends : ∀ l ∈ s.mail, X.sends l = true
  todo_sends : ∀ p, ∀ o ∈ s.todo p, X.sends ⟨p, o.1, o.2⟩ = true

theorem inv_of_idle {X : Exchange P M W E} {s : Mailboxes P M W} (hidle : Idle s) : X.Inv s := by
  obtain ⟨hmail, htodo⟩ := hidle
  refine ⟨fun l hl => ?_, fun p hp => (hp (htodo p)).elim, fun l hl => ?_, fun p o ho => ?_⟩
  · rw [hmail] at hl
    cases hl
  · rw [hmail] at hl
    cases hl
  · rw [htodo p] at ho
    cases ho

/-! ### What a step does -/

section Steps

variable [DecidableEq P] {X : Exchange P M W E} {s u : Mailboxes P M W} {a : Action P M E}
  {p q : P} {l : Letter P M}

inductive Step (X : Exchange P M W E) (s : Mailboxes P M W) :
    Action P M E → Mailboxes P M W → Prop
  | take {p : P} {l : Letter P M} (hlive : s.live p = true) (hfree : s.todo p = [])
    (hl : s.mail.find? (addressed p) = some l) :
    Step X s (.take p) { s with
      mail := s.mail.eraseP (addressed p)
      todo := Function.update s.todo p (X.react s.world p l.body).2
      world := (X.react s.world p l.body).1 }
  | send {p q : P} {m : M} {todo : List (P × M)} (htodo : s.todo p = (q, m) :: todo)
    (hroom : ¬ X.Blocks s ⟨p, q, m⟩) :
    Step X s (.send p)
      { s with mail := deliver s ⟨p, q, m⟩, todo := Function.update s.todo p todo }
  | post {l : Letter P M} (hlive : s.live l.sender = true) (hsends : X.sends l = true)
    (hroom : ¬ X.Blocks s l) : Step X s (.post l) { s with mail := deliver s l }
  | start {p : P} (hdown : s.live p = false) :
    Step X s (.start p)
      { s with live := Function.update s.live p true, world := X.start s.world p }
  | exit {p : P} (hlive : s.live p = true) :
    Step X s (.exit p) { s with
      live := Function.update s.live p false
      mail := s.mail.filter fun l => !addressed p l
      todo := Function.update s.todo p [] }
  | change {e : E} {w : W} (hw : X.change s.world e = some w) :
    Step X s (.change e) { s with world := w }

theorem step_cases (h : X.step s a = some u) : Step X s a u := by
  cases a with
  | take p =>
    rw [step] at h
    split_ifs at h with hfree
    obtain ⟨l, hl, rfl⟩ := Option.map_eq_some_iff.mp h
    exact .take hfree.1 (List.isEmpty_iff.mp hfree.2) hl
  | send p =>
    rw [step] at h
    split at h
    · cases h
    · rename_i q m todo htodo
      split_ifs at h with hblocks
      rw [← Option.some.inj h]
      exact .send htodo hblocks
  | post l =>
    rw [step] at h
    split_ifs at h with hl
    rw [← Option.some.inj h]
    exact .post hl.1 hl.2.1 hl.2.2
  | start p =>
    rw [step] at h
    split_ifs at h with hlive
    rw [← Option.some.inj h]
    exact .start (Bool.eq_false_iff.mpr hlive)
  | exit p =>
    rw [step] at h
    split_ifs at h with hlive
    rw [← Option.some.inj h]
    exact .exit hlive
  | change e =>
    obtain ⟨w, hw, rfl⟩ := Option.map_eq_some_iff.mp h
    exact .change hw

theorem inv_step (hX : X.Proper) (hinv : X.Inv s) (h : X.step s a = some u) : X.Inv u := by
  obtain ⟨hmail, hbusy, hsends, htodos⟩ := hinv
  -- what a worker has to send is replaced
  have hput : ∀ (p : P) (todo : List (P × M)), s.live p = true →
      (∀ o ∈ todo, X.sends ⟨p, o.1, o.2⟩ = true) →
      (∀ q, Function.update s.todo p todo q ≠ [] → s.live q = true) ∧
        ∀ q, ∀ o ∈ Function.update s.todo p todo q, X.sends ⟨q, o.1, o.2⟩ = true := by
    intro p todo hlive hnew
    constructor
    · intro q hq
      by_cases hqp : q = p
      · rw [hqp]
        exact hlive
      · rw [Function.update_of_ne hqp] at hq
        exact hbusy q hq
    · intro q o ho
      by_cases hqp : q = p
      · subst hqp
        rw [Function.update_self] at ho
        exact hnew o ho
      · rw [Function.update_of_ne hqp] at ho
        exact htodos q o ho
  cases step_cases h with
  | @take p l hlive hfree hl =>
    obtain ⟨hbusy', htodos'⟩ := hput p _ hlive (hX s.world p l.body)
    exact ⟨fun l' hl' => hmail l' (List.mem_of_mem_eraseP hl'), hbusy',
      fun l' hl' => hsends l' (List.mem_of_mem_eraseP hl'), htodos'⟩
  | @send p q m todo htodo hroom =>
    have hlive : s.live p = true := hbusy p (by rw [Busy, htodo]; exact List.cons_ne_nil _ _)
    have hall : ∀ o ∈ (q, m) :: todo, X.sends ⟨p, o.1, o.2⟩ = true := htodo ▸ htodos p
    obtain ⟨hbusy', htodos'⟩ := hput p todo hlive fun o ho => hall o (List.mem_cons_of_mem _ ho)
    refine ⟨fun l' hl' => ?_, hbusy', fun l' hl' => ?_, htodos'⟩
    · rcases mem_deliver hl' with hl' | ⟨rfl, hq⟩
      · exact hmail l' hl'
      · exact hq
    · rcases mem_deliver hl' with hl' | ⟨rfl, -⟩
      · exact hsends l' hl'
      · exact hall (q, m) List.mem_cons_self
  | @post l hlive hl hroom =>
    refine ⟨fun l' hl' => ?_, hbusy, fun l' hl' => ?_, htodos⟩
    · rcases mem_deliver hl' with hl' | ⟨rfl, hq⟩
      · exact hmail l' hl'
      · exact hq
    · rcases mem_deliver hl' with hl' | ⟨rfl, -⟩
      · exact hsends l' hl'
      · exact hl
  | @start p hdown =>
    have hlive : ∀ q, s.live q = true → Function.update s.live p true q = true := by
      intro q hq
      by_cases hqp : q = p
      · rw [hqp, Function.update_self]
      · rw [Function.update_of_ne hqp]
        exact hq
    exact ⟨fun l hl => hlive _ (hmail l hl), fun q hq => hlive q (hbusy q hq), hsends, htodos⟩
  | @exit p hlive =>
    refine ⟨fun l hl => ?_, fun q hq => ?_, fun l hl => ?_, fun q o ho => ?_⟩
    · obtain ⟨hl, hother⟩ := List.mem_filter.mp hl
      have hne : l.receiver ≠ p := by simpa [addressed] using hother
      show Function.update s.live p false l.receiver = true
      rw [Function.update_of_ne hne]
      exact hmail l hl
    · by_cases hqp : q = p
      · subst hqp
        exact (hq (Function.update_self q [] s.todo)).elim
      · have hq' : s.todo q ≠ [] := by
          rw [← Function.update_of_ne hqp ([] : List (P × M)) s.todo]
          exact hq
        show Function.update s.live p false q = true
        rw [Function.update_of_ne hqp]
        exact hbusy q hq'
    · exact hsends l (List.mem_filter.mp hl).1
    · exact (hput p [] hlive fun o ho => absurd ho List.not_mem_nil).2 q o ho
  | change hw => exact ⟨hmail, hbusy, hsends, htodos⟩

end Steps

/-- With more room no run is lost. -/
theorem run_mono [DecidableEq P] {X : Exchange P M W E} {s u : Mailboxes P M W}
    {tr : List (Mailboxes P M W × Action P M E)} {room : List (Letter P M) → Letter P M → Bool}
    (hroom : ∀ mail l, X.room mail l = true → room mail l = true) (h : Run X.step s tr u) :
    Run ({ X with room := room } : Exchange P M W E).step s tr u := by
  have hblocks : ∀ t l, ¬ X.Blocks t l →
      ¬ ({ X with room := room } : Exchange P M W E).Blocks t l := by
    rintro t l hfits ⟨hlive, hfull⟩
    refine hfits ⟨hlive, Bool.eq_false_iff.mpr fun hspace => ?_⟩
    exact Bool.eq_false_iff.mp hfull (hroom _ _ hspace)
  induction h with
  | nil => exact .nil
  | @snoc tr t a u _ hu ih =>
    refine ih.snoc ?_
    cases a with
    | send p =>
      cases step_cases hu with
      | @send p q m todo htodo hspace =>
        rw [step, htodo]
        exact if_neg (hblocks _ _ hspace)
    | post l =>
      cases step_cases hu with
      | post hlive hsends hspace => exact if_pos ⟨hlive, hsends, hblocks _ _ hspace⟩
    | take p | start p | exit p | change e => exact hu

/-- A worker that has taken nothing has nothing to send. -/
theorem todo_of_no_take [DecidableEq P] {X : Exchange P M W E} {s u : Mailboxes P M W}
    {tr : List (Mailboxes P M W × Action P M E)} {p : P} (hs : s.todo p = [])
    (h : Run X.step s tr u) (htr : ∀ c ∈ tr, c.2 ≠ .take p) : u.todo p = [] := by
  refine h.invariant_of (C := fun _ a => a ≠ .take p) (I := fun u => u.todo p = []) hs ?_ htr
  intro t a v ht ha hv
  have hput : ∀ {q : P} {todo : List (P × M)}, p ≠ q → Function.update t.todo q todo p = [] :=
    fun hq => (Function.update_of_ne hq _ _).trans ht
  cases step_cases hv with
  | @take q l hlive hfree hl => exact hput fun hq => ha (hq ▸ rfl)
  | @send q r m todo htodo hspace =>
    refine hput ?_
    rintro rfl
    rw [ht] at htodo
    cases htodo
  | @exit q hlive =>
    by_cases hq : p = q
    · subst hq
      exact Function.update_self p [] t.todo
    · exact hput hq
  | post _ _ _ | start _ | change _ => exact ht

/-! ### Deadlocks -/

section Deadlock

variable [DecidableEq P] {X : Exchange P M W E} {s u : Mailboxes P M W}
  {tr : List (Mailboxes P M W × Action P M E)} {p q : P} {l : Letter P M}

/-- A worker that is free takes a letter that waits for it. -/
theorem busy_of_mail (hinv : X.Inv s) (hstuck : X.Stuck s) (hl : l ∈ s.mail) :
    Busy s l.receiver := by
  intro hfree
  have hnone := hstuck (.take l.receiver) trivial
  rw [step, if_pos ⟨hinv.mail_live l hl, List.isEmpty_iff.mpr hfree⟩,
    Option.map_eq_none_iff, List.find?_eq_none] at hnone
  exact hnone l hl (addressed_iff.mpr rfl)

/-- A worker that has something to send is blocked at its first letter. -/
theorem blocks_of_busy {m : M} {todo : List (P × M)} (hstuck : X.Stuck s)
    (htodo : s.todo p = (q, m) :: todo) : X.Blocks s ⟨p, q, m⟩ := by
  have hnone := hstuck (.send p) trivial
  rw [step, htodo] at hnone
  by_contra hblocks
  simp only [if_neg hblocks] at hnone
  cases hnone

/-- **Whoever blocks waits for one that blocks.** -/
theorem waits_of_stuck (hroom : X.Roomy) (hinv : X.Inv s) (hstuck : X.Stuck s)
    (hp : Busy s p) : ∃ q, Busy s q ∧ Waits s p q := by
  obtain ⟨⟨q, m⟩, todo, htodo⟩ := List.exists_cons_of_ne_nil hp
  obtain ⟨-, hfull⟩ := blocks_of_busy hstuck htodo
  -- otherwise there would be room
  obtain ⟨l, hl, hof⟩ : ∃ l ∈ s.mail, l.sender = p ∨ l.receiver = q := by
    by_contra hnone
    push Not at hnone
    have hclear := hroom.clear s.mail ⟨p, q, m⟩ hnone
    rw [hclear] at hfull
    cases hfull
  refine ⟨l.receiver, busy_of_mail hinv hstuck hl, l, hl, rfl, ?_⟩
  rcases hof with hsender | rfl
  · exact Or.inl hsender
  · exact Or.inr ⟨m, todo, htodo⟩

/-- **No deadlock without a cycle.** -/
theorem idle_of_wellFounded {r : P → P → Prop} (hr : WellFounded r) (hroom : X.Roomy)
    (hinv : X.Inv s) (hstuck : X.Stuck s)
    (hwaits : ∀ p q, Busy s p → Busy s q → Waits s p q → r q p) : Idle s := by
  have hfree : ∀ p, ¬ Busy s p := by
    intro p
    induction p using hr.induction with
    | _ p ih =>
      intro hp
      obtain ⟨q, hq, hpq⟩ := waits_of_stuck hroom hinv hstuck hp
      exact ih q (hwaits p q hp hq hpq) hq
  refine ⟨List.eq_nil_iff_forall_not_mem.mpr fun l hl => ?_, fun p => not_not.mp (hfree p)⟩
  exact hfree _ (busy_of_mail hinv hstuck hl)

/-- What takes part in a deadlock: the processes that block, and those that they
send to. -/
def Involved (s : Mailboxes P M W) (p : P) : Prop :=
  Busy s p ∨ ∃ q m todo, s.todo q = (p, m) :: todo

/-- What a deadlock leaves as it is. -/
structure Holds (s u : Mailboxes P M W) : Prop where
  mail : s.mail.Sublist u.mail
  todo : ∀ p, Busy s p → u.todo p = s.todo p
  live : ∀ p, Involved s p → s.live p = true → u.live p = true

/-- A worker that was blocked is still blocked. -/
theorem Holds.blocks (hroom : X.Roomy) (hstuck : X.Stuck s) (h : Holds s u) {m : M}
    {todo : List (P × M)} (hp : Busy s p) (htodo : u.todo p = (q, m) :: todo) :
    X.Blocks u ⟨p, q, m⟩ := by
  have hbefore : s.todo p = (q, m) :: todo := (h.todo p hp).symm.trans htodo
  obtain ⟨hlive, hfull⟩ := blocks_of_busy hstuck hbefore
  refine ⟨h.live q (Or.inr ⟨p, m, todo, hbefore⟩) hlive, ?_⟩
  rw [Bool.eq_false_iff] at hfull ⊢
  exact fun hspace => hfull (hroom.sublist _ _ _ h.mail hspace)

theorem holds_step (hroom : X.Roomy) (hinv : X.Inv s) (hstuck : X.Stuck s) (h : Holds s u)
    {a : Action P M E} {v : Mailboxes P M W} (hstays : ∀ p, Involved s p → a ≠ .exit p)
    (hv : X.step u a = some v) : Holds s v := by
  -- nothing has waited for a process that did not block
  have hother : ∀ {p}, ¬ Busy s p → ∀ l ∈ s.mail, addressed p l = false := by
    intro p hp l hl
    rw [Bool.eq_false_iff, Ne, addressed_iff]
    rintro rfl
    exact hp (busy_of_mail hinv hstuck hl)
  have hput : ∀ {p : P} {todo : List (P × M)}, ¬ Busy s p →
      ∀ q, Busy s q → Function.update u.todo p todo q = s.todo q := by
    intro p todo hp q hq
    have hqp : q ≠ p := by
      rintro rfl
      exact hp hq
    rw [Function.update_of_ne hqp]
    exact h.todo q hq
  cases step_cases hv with
  | @take p l hlive hfree hl =>
    have hp : ¬ Busy s p := by
      intro hp
      exact hp ((h.todo p hp).symm.trans hfree)
    refine ⟨?_, hput hp, h.live⟩
    have hsame : s.mail.eraseP (addressed p) = s.mail :=
      List.eraseP_of_forall_not fun l hl => by rw [hother hp l hl]; decide
    rw [← hsame]
    exact h.mail.eraseP
  | @send p q m todo htodo hspace =>
    have hp : ¬ Busy s p := fun hp => hspace (h.blocks hroom hstuck hp htodo)
    exact ⟨h.mail.trans sublist_deliver, hput hp, h.live⟩
  | post hlive hsends hspace => exact ⟨h.mail.trans sublist_deliver, h.todo, h.live⟩
  | @start p hdown =>
    refine ⟨h.mail, h.todo, fun q hq hlive => ?_⟩
    by_cases hqp : q = p
    · rw [hqp]
      exact Function.update_self p true u.live
    · show Function.update u.live p true q = true
      rw [Function.update_of_ne hqp]
      exact h.live q hq hlive
  | @exit p hlive =>
    have hp : ¬ Involved s p := fun hp => hstays p hp rfl
    have hbusy : ¬ Busy s p := fun hbusy => hp (Or.inl hbusy)
    refine ⟨?_, hput hbusy, fun q hq hlive => ?_⟩
    · have hsame : (s.mail.filter fun l => !addressed p l) = s.mail :=
        List.filter_eq_self.mpr fun l hl => by rw [hother hbusy l hl]; rfl
      rw [← hsame]
      exact h.mail.filter _
    · have hqp : q ≠ p := by
        rintro rfl
        exact hp hq
      show Function.update u.live p false q = true
      rw [Function.update_of_ne hqp]
      exact h.live q hq hlive
  | change hw => exact ⟨h.mail, h.todo, h.live⟩

/-- **A deadlock is for good.** -/
theorem stuck_run (hroom : X.Roomy) (hinv : X.Inv s) (hstuck : X.Stuck s)
    (h : Run X.step s tr u) (hstays : ∀ c ∈ tr, ∀ p, Involved s p → c.2 ≠ .exit p) :
    Holds s u ∧ ∀ p, Busy s p → X.step u (.take p) = none ∧ X.step u (.send p) = none := by
  have hstart : Holds s s := ⟨List.Sublist.refl _, fun _ _ => rfl, fun _ _ h => h⟩
  have hu : Holds s u := h.invariant_of (C := fun _ a => ∀ p, Involved s p → a ≠ .exit p) hstart
    (fun _ _ _ ht ha hv => holds_step hroom hinv hstuck ht ha hv) hstays
  refine ⟨hu, fun p hp => ⟨?_, ?_⟩⟩
  · rw [step, if_neg]
    rintro ⟨-, hfree⟩
    exact hp ((hu.todo p hp).symm.trans (List.isEmpty_iff.mp hfree))
  · obtain ⟨⟨q, m⟩, todo, htodo⟩ := List.exists_cons_of_ne_nil hp
    have hnow : u.todo p = (q, m) :: todo := (hu.todo p hp).trans htodo
    rw [step, hnow]
    exact if_pos (hu.blocks hroom hstuck hp hnow)

end Deadlock

end Exchange
