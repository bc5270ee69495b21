/-
Publish and subscribe, in the abstract.

A broker keeps who has subscribed to a topic, and every address that is present
has a mailbox.  A published message goes into the mailbox of every subscriber of
its topic, a told one into a single mailbox; the owner of a mailbox takes the
messages from its front.  Addresses come and go, subscriptions stay.

* `PubSub.step` — one operation;
* `PubSub.removed_append_contents` — **what is delivered leaves the mailbox once,
  in its order**;
* `PubSub.delivered_sublist` — nothing else is delivered than what was published
  or told;
* `PubSub.delivered_eq_messages` — **and everything on a topic is**, to those who
  stay.
-/
import Mathlib.Data.Finset.Image
import IflyosSDK.Runs

/-- The subscribers of a topic, and the mailboxes of the addresses that are
present. -/
@[ext]
structure PubSub (κ ι μ : Type*) where
  subs : κ → Finset ι
  mailbox : ι → Option (List μ)

namespace PubSub

variable {κ ι μ : Type*}

/-- Nobody is there. -/
def start : PubSub κ ι μ := ⟨fun _ => ∅, fun _ => none⟩

inductive Op (κ ι μ : Type*)
  | subscribe (ps : List (κ × ι))
  | publish (m : μ)
  | tell (a : ι) (m : μ)
  | join (a : ι)
  | leave (a : ι)
  | take (a : ι)

/-- The message of an operation. -/
def message? : Op κ ι μ → Option μ
  | .publish m | .tell _ m => some m
  | .subscribe _ | .join _ | .leave _ | .take _ => none

/-- All that is published or told. -/
def messages (tr : List (PubSub κ ι μ × Op κ ι μ)) : List μ := tr.filterMap fun p => message? p.2

theorem messages_snoc {s : PubSub κ ι μ} {op : Op κ ι μ} {tr : List (PubSub κ ι μ × Op κ ι μ)} :
    messages (tr ++ [(s, op)]) = messages tr ++ (message? op).toList := by
  rw [messages, List.filterMap_append]
  cases hm : message? op <;> simp [hm, messages]

variable [DecidableEq ι] (topic : μ → κ)

/-- What an operation has for an address. -/
def addressed (s : PubSub κ ι μ) (a : ι) : Op κ ι μ → List μ
  | .publish m => if a ∈ s.subs (topic m) then [m] else []
  | .tell b m => if b = a then [m] else []
  | .subscribe _ | .join _ | .leave _ | .take _ => []

/-- Every mailbox gets what the operation has for it. -/
def deliver (s : PubSub κ ι μ) (op : Op κ ι μ) : PubSub κ ι μ :=
  { s with mailbox := fun a => (s.mailbox a).map (· ++ addressed topic s a op) }

def subscribe [DecidableEq κ] (s : PubSub κ ι μ) (ps : List (κ × ι)) : PubSub κ ι μ :=
  { s with subs := fun k => s.subs k ∪ ((ps.filter (·.1 = k)).map Prod.snd).toFinset }

def put (s : PubSub κ ι μ) (a : ι) (ms : Option (List μ)) : PubSub κ ι μ :=
  { s with mailbox := Function.update s.mailbox a ms }

def step [DecidableEq κ] (s : PubSub κ ι μ) : Op κ ι μ → Option (PubSub κ ι μ)
  | .subscribe ps => some (s.subscribe ps)
  | .publish m => some (s.deliver topic (.publish m))
  | .tell a m => some (s.deliver topic (.tell a m))
  | .join a => if (s.mailbox a).isSome then none else some (s.put a (some []))
  | .leave a => if (s.mailbox a).isSome then some (s.put a none) else none
  | .take a =>
    match s.mailbox a with
    | some (_ :: ms) => some (s.put a (some ms))
    | some [] | none => none

/-! ### Mailboxes are queues -/

/-- What is in the mailbox of an address. -/
def contents (s : PubSub κ ι μ) (a : ι) : List μ := (s.mailbox a).getD []

/-- What a step puts into the mailbox of an address. -/
def delivers (a : ι) (p : PubSub κ ι μ × Op κ ι μ) : List μ :=
  if (p.1.mailbox a).isSome then addressed topic p.1 a p.2 else []

/-- What a step takes out of it, or loses with it. -/
def removes (a : ι) (p : PubSub κ ι μ × Op κ ι μ) : List μ :=
  match p.2 with
  | .take b => if b = a then (contents p.1 a).take 1 else []
  | .leave b => if b = a then contents p.1 a else []
  | .subscribe _ | .publish _ | .tell _ _ | .join _ => []

def delivered (a : ι) (tr : List (PubSub κ ι μ × Op κ ι μ)) : List μ :=
  tr.flatMap (delivers topic a)

def removed (a : ι) (tr : List (PubSub κ ι μ × Op κ ι μ)) : List μ := tr.flatMap (removes a)

variable {topic} {s t u : PubSub κ ι μ} {op : Op κ ι μ} {tr : List (PubSub κ ι μ × Op κ ι μ)}
  {a : ι} {k : κ}

theorem contents_put_self (ms : Option (List μ)) : contents (s.put a ms) a = ms.getD [] := by
  simp [contents, put]

theorem contents_put_of_ne {b : ι} (ms : Option (List μ)) (h : a ≠ b) :
    contents (s.put b ms) a = contents s a := by
  simp [contents, put, h]

theorem contents_deliver (s : PubSub κ ι μ) (op : Op κ ι μ) (a : ι) :
    contents (s.deliver topic op) a = contents s a ++ delivers topic a (s, op) := by
  cases hbox : s.mailbox a <;> simp [contents, deliver, delivers, hbox]

theorem isSome_put (ms : Option (List μ)) (b : ι) (hms : a = b → ms.isSome)
    (h : (s.mailbox a).isSome) : ((s.put b ms).mailbox a).isSome := by
  by_cases hb : a = b
  · subst hb
    simpa [put] using hms rfl
  · simpa [put, hb] using h

theorem delivered_snoc : delivered topic a (tr ++ [(s, op)]) =
    delivered topic a tr ++ delivers topic a (s, op) := by
  simp [delivered]

theorem removed_snoc : removed a (tr ++ [(s, op)]) = removed a tr ++ removes a (s, op) := by
  simp [removed]

theorem addressed_sublist (s : PubSub κ ι μ) (a : ι) (op : Op κ ι μ) :
    (addressed topic s a op).Sublist (message? op).toList := by
  cases op with
  | publish m =>
    rw [addressed]
    split <;> simp [message?]
  | tell b m =>
    rw [addressed]
    split <;> simp [message?]
  | subscribe _ | join _ | leave _ | take _ => simp [addressed]

/-! ### What is delivered leaves once -/

variable [DecidableEq κ]

/-- A step drops at the front of a mailbox and appends behind. -/
theorem removes_append_contents (a : ι) (h : step topic s op = some u) :
    removes a (s, op) ++ contents u a = contents s a ++ delivers topic a (s, op) := by
  cases op with
  | subscribe ps =>
    rw [← Option.some.inj h]
    simp [removes, delivers, addressed, contents, subscribe]
  | publish m =>
    rw [← Option.some.inj h, contents_deliver]
    simp [removes]
  | tell b m =>
    rw [← Option.some.inj h, contents_deliver]
    simp [removes]
  | join b =>
    rw [step] at h
    split_ifs at h with hpresent
    rw [← Option.some.inj h]
    by_cases hb : a = b
    · subst hb
      rw [contents_put_self]
      have hnone : s.mailbox a = none := by simpa using hpresent
      simp [removes, delivers, contents, hnone]
    · rw [contents_put_of_ne _ hb]
      simp [removes, delivers, addressed]
  | leave b =>
    rw [step] at h
    split_ifs at h with hpresent
    rw [← Option.some.inj h]
    by_cases hb : a = b
    · subst hb
      rw [contents_put_self]
      simp [removes, delivers, addressed]
    · rw [contents_put_of_ne _ hb]
      simp [removes, delivers, addressed, Ne.symm hb]
  | take b =>
    rw [step] at h
    split at h
    · rename_i m ms hbox
      rw [← Option.some.inj h]
      by_cases hb : a = b
      · subst hb
        rw [contents_put_self]
        simp [removes, delivers, addressed, contents, hbox]
      · rw [contents_put_of_ne _ hb]
        simp [removes, delivers, addressed, Ne.symm hb]
    all_goals cases h

/-- **What is in a mailbox and what is delivered to it leaves it once**, from
its front, or is in it at the end. -/
theorem removed_append_contents (a : ι) (h : Run (step topic) s tr u) :
    removed a tr ++ contents u a = contents s a ++ delivered topic a tr := by
  refine h.history (I := fun tr u => removed a tr ++ contents u a =
    contents s a ++ delivered topic a tr) (by simp [removed, delivered]) ?_
  intro tr t op u hlaw hu
  rw [removed_snoc, delivered_snoc, List.append_assoc, removes_append_contents a hu,
    ← List.append_assoc, hlaw, List.append_assoc]

/-! ### Sound and complete -/

omit [DecidableEq κ] in
/-- **Nothing is delivered but what was published or told**, in the same order
and no more often. -/
theorem delivered_sublist (topic : μ → κ) (a : ι) (tr : List (PubSub κ ι μ × Op κ ι μ)) :
    (delivered topic a tr).Sublist (messages tr) := by
  induction tr using List.reverseRecOn with
  | nil => exact List.Sublist.refl _
  | append_singleton tr p ih =>
    obtain ⟨s, op⟩ := p
    rw [delivered_snoc, messages_snoc]
    refine ih.append ?_
    rw [delivers]
    split
    · exact addressed_sublist s a op
    · exact List.nil_sublist _

/-- The address does not leave. -/
def Stays (a : ι) (tr : List (PubSub κ ι μ × Op κ ι μ)) : Prop := ∀ p ∈ tr, p.2 ≠ .leave a

/-- What is said on a topic concerns the address. -/
def Concerns (topic : μ → κ) (k : κ) (a : ι) (s : PubSub κ ι μ) : Op κ ι μ → Prop
  | .publish m => topic m = k → a ∈ s.subs k
  | .tell b m => topic m = k → b = a
  | .subscribe _ | .join _ | .leave _ | .take _ => True

/-- Who is present and does not leave is present afterwards. -/
theorem isSome_step (h : step topic s op = some u) (hpresent : (s.mailbox a).isSome)
    (hstays : op ≠ .leave a) : (u.mailbox a).isSome := by
  cases op with
  | subscribe ps =>
    rw [← Option.some.inj h]
    exact hpresent
  | publish m =>
    rw [← Option.some.inj h]
    simpa [deliver] using hpresent
  | tell b m =>
    rw [← Option.some.inj h]
    simpa [deliver] using hpresent
  | join b =>
    rw [step] at h
    split_ifs at h
    rw [← Option.some.inj h]
    exact isSome_put _ b (fun _ => rfl) hpresent
  | leave b =>
    rw [step] at h
    split_ifs at h
    rw [← Option.some.inj h]
    refine isSome_put _ b (fun hb => ?_) hpresent
    exact absurd (congrArg Op.leave hb.symm) hstays
  | take b =>
    rw [step] at h
    split at h
    · rw [← Option.some.inj h]
      exact isSome_put _ b (fun _ => rfl) hpresent
    all_goals cases h

/-- Subscriptions stay. -/
theorem subs_step (h : step topic s op = some u) (hsub : a ∈ s.subs k) : a ∈ u.subs k := by
  cases op with
  | subscribe ps =>
    rw [← Option.some.inj h]
    exact Finset.mem_union_left _ hsub
  | publish m | tell b m =>
    rw [← Option.some.inj h]
    exact hsub
  | join b | leave b =>
    rw [step] at h
    split_ifs at h
    rw [← Option.some.inj h]
    exact hsub
  | take b =>
    rw [step] at h
    split at h
    · rw [← Option.some.inj h]
      exact hsub
    all_goals cases h

/-- **Who stays gets everything on a topic that concerns it**, each message
once and in the order of the broker. -/
theorem delivered_eq_messages (h : Run (step topic) s tr u) (hpresent : (s.mailbox a).isSome)
    (hstays : Stays a tr) (hconcerns : ∀ p ∈ tr, Concerns topic k a p.1 p.2) :
    (delivered topic a tr).filter (topic · = k) = (messages tr).filter (topic · = k) := by
  have hboth : (delivered topic a tr).filter (topic · = k) = (messages tr).filter (topic · = k) ∧
      (u.mailbox a).isSome := by
    refine h.history_of (C := fun s op => op ≠ .leave a ∧ Concerns topic k a s op)
      (I := fun tr u => (delivered topic a tr).filter (topic · = k) =
        (messages tr).filter (topic · = k) ∧ (u.mailbox a).isSome)
      ⟨by simp [delivered, messages], hpresent⟩ ?_ fun p hp => ⟨hstays p hp, hconcerns p hp⟩
    rintro tr t op u ⟨hsame, ht⟩ ⟨hleave, hconcern⟩ hu
    refine ⟨?_, isSome_step hu ht hleave⟩
    rw [delivered_snoc, messages_snoc, List.filter_append, List.filter_append, hsame, delivers,
      if_pos ht]
    congr 1
    cases op with
    | publish m =>
      by_cases hm : topic m = k
      · have hsub : a ∈ t.subs (topic m) := hm ▸ hconcern hm
        simp [addressed, message?, hsub]
      · rw [addressed]
        split <;> simp [message?, hm]
    | tell b m =>
      by_cases hm : topic m = k
      · simp [addressed, message?, hconcern hm]
      · rw [addressed]
        split <;> simp [message?, hm]
    | subscribe _ | join _ | leave _ | take _ => simp [addressed, message?]
  exact hboth.1

end PubSub
