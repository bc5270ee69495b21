/-
`jnh_get` when the caller's body is full.

The first recv brings the head and a byte of the body at least.  When it brings
enough to fill the caller's body the call returns at once.  When a later recv
does, the call waits for the socket once more: it returns JNHE_OK when the peer
sends more or closes the connection in time, and an error otherwise.

* `Jnh.step_full` — the iteration that starts with a full body;
* `Jnh.returns_full_iff` — **the calls that return the full body**.
-/
import IflyosSDK.JnhBody

/-- The peer says nothing more, and leaves the connection open. -/
def Tick.silent : Tick := { clock := some 0, ready := false, recv := none }

namespace Jnh

variable {C : ℕ} {d : Deadlines} {s u : Jnh C} {t t₀ : Tick} {c₀ : Bytes} {r : Reply}
  {tr : List (Jnh C × Tick)} {body : Buffer C}

/-- The call has returned JNHE_OK with the first bytes of the body, as many as
the caller has room for. -/
def ReturnsFull (r : Reply) (s : Jnh C) : Prop :=
  s.phase = .returned JNHE_OK ∧ s.bodyLen = C ∧ s.body.bytes = r.body.take C

/-- `recv` is called behind a successful wait only. -/
def RecvAfterWait (d : Deadlines) (tr : List (Jnh C × Tick)) : Prop :=
  ∀ p ∈ tr, p.2.recv ≠ none → d.wait p.2 = .ok ()

/-- The wait of an iteration ends in time, and its recv does not fail. -/
def Noticed (d : Deadlines) (t : Tick) : Prop := d.wait t = .ok () ∧ t.recv ≠ none

/-! ### The end of a call -/

theorem eq_of_returned {e : ℤ} (h : Run (step d) u tr s) (hphase : u.phase = .returned e) :
    s = u := by
  cases tr with
  | nil => exact Run.nil_iff.mp h
  | cons p tr =>
    obtain ⟨rfl, v, hv, -⟩ := Run.cons_iff.mp h
    rw [step, hphase] at hv
    cases hv

/-- The body loop goes on. -/
theorem not_ended_of_fill {idx : ℕ} (hphase : s.phase = .fill idx) :
    ¬ ∀ t, step d s t = none := by
  intro hend
  have hclock := hend { clock := none, ready := false, recv := none }
  rw [step, hphase] at hclock
  cases hclock

theorem returnsFull_of_returnsBody (hlen : C ≤ r.body.length)
    (hphase : s.phase = .returned JNHE_OK) (h : ReturnsBody r s) : ReturnsFull r s := by
  obtain ⟨hbodyLen, hbody⟩ := h
  rw [Nat.min_eq_left hlen] at hbodyLen
  refine ⟨hphase, hbodyLen, ?_⟩
  rw [hbodyLen, List.take_of_length_le s.body.size.le] at hbody
  exact hbody

/-- A first recv that fills the body ends the call. -/
theorem returnsFull_of_first (hwait : d.wait t = .ok ()) (hrecv : t.recv = some c₀)
    (hhead : r.head <+: c₀) (hbody : r.head.length < c₀.length) (hpeer : c₀ <+: r.bytes)
    (hfull : r.head.length + C ≤ c₀.length) (h : step d (start body) t = some u) :
    ReturnsFull r u := by
  have hne : c₀ ≠ [] := by
    rintro rfl
    cases hbody
  cases hw : (Buffer.zeros 128).store 0 c₀ with
  | none =>
    obtain ⟨b, c, rfl⟩ := List.exists_cons_of_ne_nil hne
    rw [step] at h
    simp [start, hwait, hrecv, headRecv, hw] at h
  | some w =>
    have hr : Receives d (start body) t 0 c₀ w := ⟨_, rfl, hwait, hrecv, hne, hw⟩
    have hinv := bodyInv_start hrecv hhead hpeer h
    rw [step_of_receives hr, Option.some.injEq] at h
    have hpre : c₀ <+: w.bytes := by
      rw [Buffer.bytes_of_store hw, List.take_zero, List.nil_append]
      exact List.prefix_append _ _
    have hphase : u.phase = .returned JNHE_OK := by
      have hsize := hpre.length_le
      rw [w.size] at hsize
      rw [← h, Reply.readHead_of_head (hhead.trans hpre) rfl, copyBody_phase rfl hsize]
      have hthree := r.three_le_length_head
      rw [if_neg (by omega), if_pos (by omega)]
    have hlen : C ≤ r.body.length := by
      have hle := hpeer.length_le
      rw [Reply.bytes, List.length_append] at hle
      omega
    rw [BodyInv, hphase] at hinv
    rcases hinv rfl with ⟨-, hreturns⟩ | ⟨hhead', -⟩
    · exact returnsFull_of_returnsBody hlen hphase hreturns
    · rw [hhead'] at hbody
      exact absurd hbody (lt_irrefl _)

/-! ### Iterations of the body loop -/

/-- One that succeeds in its wait and its recv returns no error. -/
theorem not_noticed_of_error {idx : ℕ} {e : ℤ} (hphase : s.phase = .fill idx)
    (hs : s.bodyLen = C) (hidx : idx ≤ C) (he : e ≠ JNHE_OK)
    (h : step d s t = some (s.ret e)) : ¬ Noticed d t := by
  rintro ⟨hwait, hrecv⟩
  rw [step_of_fill hphase hwait] at h
  rcases fillRecv_cases hs hidx h with ⟨c, body, -, -, -, hu⟩ | ⟨-, hu⟩ | ⟨hnone, -⟩
  · exact Phase.noConfusion (congrArg Jnh.phase hu)
  · exact he (Phase.returned.inj (congrArg Jnh.phase hu))
  · exact hrecv hnone

/-- The iteration that starts with a full body ends the call. -/
theorem step_full (hphase : s.phase = .fill C) (hs : s.bodyLen = C) (h : step d s t = some u) :
    (t.recv = some [] ∧ u.phase = .returned JNHE_OK) ∨
      ∃ e, e ≠ JNHE_OK ∧ u.phase = .returned e := by
  rcases step_fill_cases hphase hs le_rfl h with
    ⟨c, body, -, hne, hstore, -⟩ | ⟨hrecv, rfl⟩ | ⟨e, he, rfl⟩
  · -- no byte is offered
    have hle := Buffer.length_le_of_store hstore
    have hpos := List.length_pos_iff.mpr hne
    omega
  · exact Or.inl ⟨hrecv, rfl⟩
  · exact Or.inr ⟨e, he, rfl⟩

/-! ### The calls that return the full body -/

/-- Behind the first iteration. -/
theorem fill_of_next (hrecv : t₀.recv = some c₀) (hhead : r.head <+: c₀)
    (h : Run (step d) (start body) ((start body, t₀) :: tr) s)
    (hpeer : FromPeer r.bytes ((start body, t₀) :: tr)) (hnext : step d s t = some u) :
    ∃ idx ≤ C, s.phase = .fill idx ∧ s.bodyLen = C ∧
      (received ((start body, t₀) :: tr)).length = r.head.length + idx := by
  have hinv := bodyInv_run hrecv hhead h hpeer
  cases hphase : s.phase with
  | fill idx =>
    rw [BodyInv, hphase] at hinv
    obtain ⟨hs, hidx, -, hall⟩ := hinv
    refine ⟨idx, hidx, rfl, hs, ?_⟩
    rw [hall, List.length_append, List.length_take, s.body.size, Nat.min_eq_left hidx]
  | head w idx =>
    rw [BodyInv, hphase] at hinv
    exact hinv.elim
  | returned e =>
    rw [step, hphase] at hnext
    cases hnext
  | fault f =>
    rw [step, hphase] at hnext
    cases hnext

/-- The last iteration, which finds the body full, returns it when it is
noticed. -/
theorem returnsFull_of_last {p : Jnh C × Tick} (hrecv : t₀.recv = some c₀)
    (hhead : r.head <+: c₀) (hbody : r.head.length < c₀.length)
    (h : Run (step d) (start body) (((start body, t₀) :: tr) ++ [p]) s)
    (hend : ∀ t, step d s t = none)
    (hpeer : FromPeer r.bytes (((start body, t₀) :: tr) ++ [p]))
    (hcalled : p.2.recv ≠ none → d.wait p.2 = .ok ())
    (hfull : r.head.length + C ≤ (received (((start body, t₀) :: tr) ++ [p])).length)
    (hnoticed : p.1.phase = .fill C → Noticed d p.2) : ReturnsFull r s := by
  have hinv := bodyInv_run hrecv hhead h hpeer
  have hlen : C ≤ r.body.length := by
    have hle := hpeer.received_prefix.length_le
    rw [Reply.bytes, List.length_append] at hle
    omega
  obtain ⟨hbefore, hstep⟩ := Run.snoc_iff.mp h
  obtain ⟨idx, hidx, hphase, hs, hall⟩ :=
    fill_of_next hrecv hhead hbefore hpeer.of_append hstep
  rcases step_fill_cases hphase hs hidx hstep with
    ⟨c, stored, -, -, -, rfl⟩ | ⟨-, rfl⟩ | ⟨e, he, rfl⟩
  · exact absurd hend (not_ended_of_fill rfl)
  · rw [BodyInv] at hinv
    rcases hinv rfl with ⟨-, hreturns⟩ | ⟨hhead', -⟩
    · exact returnsFull_of_returnsBody hlen rfl hreturns
    · rw [hhead'] at hbody
      exact absurd hbody (lt_irrefl _)
  · -- an error that comes with no bytes, when the body was full before
    exfalso
    have herror := not_noticed_of_error hphase hs hidx he hstep
    have hnone : p.2.recv = none := by
      by_contra hne
      exact herror ⟨hcalled hne, hne⟩
    rw [received_snoc, Tick.chunk, hnone, Option.getD_none, List.append_nil, hall] at hfull
    obtain rfl : idx = C := by omega
    exact herror (hnoticed hphase)

/-- **The calls that return the full body.**  The first recv brings the head
and a byte of the body at least, and as many bytes of the body as the caller
has room for are received: the call returns JNHE_OK with them exactly when the
iteration that starts with the full body, if there is one, succeeds in its
wait and its recv. -/
theorem returns_full_iff (hrecv : t₀.recv = some c₀) (hhead : r.head <+: c₀)
    (hbody : r.head.length < c₀.length)
    (h : Run (step d) (start body) ((start body, t₀) :: tr) s) (hend : ∀ t, step d s t = none)
    (hpeer : FromPeer r.bytes ((start body, t₀) :: tr))
    (hcalled : RecvAfterWait d ((start body, t₀) :: tr))
    (hfull : r.head.length + C ≤ (received ((start body, t₀) :: tr)).length) :
    ReturnsFull r s ↔ ∀ p ∈ tr, p.1.phase = .fill C → Noticed d p.2 := by
  constructor
  · rintro ⟨hok, -, -⟩ p hp hphase
    obtain ⟨tr₁, tr₂, rfl⟩ := List.append_of_mem hp
    rw [← List.cons_append] at h hpeer hcalled
    obtain ⟨hbefore, u, hu, hrest⟩ := h.split
    obtain ⟨-, -, -, hs, -⟩ := fill_of_next hrecv hhead hbefore hpeer.of_append hu
    rcases step_full hphase hs hu with ⟨hempty, -⟩ | ⟨e, he, hret⟩
    · have hne : p.2.recv ≠ none := by
        rw [hempty]
        exact Option.some_ne_none _
      exact ⟨hcalled p (by simp) hne, hne⟩
    · rw [eq_of_returned hrest hret, hret] at hok
      exact absurd (Phase.returned.inj hok) he
  · intro hnoticed
    rcases List.eq_nil_or_concat tr with rfl | ⟨tr, p, rfl⟩
    · -- the first recv has filled the body
      obtain ⟨-, u, hu, hrest⟩ := Run.cons_iff.mp h
      obtain rfl := Run.nil_iff.mp hrest
      have hwait : d.wait t₀ = .ok () := by
        refine hcalled (start body, t₀) List.mem_cons_self ?_
        show t₀.recv ≠ none
        rw [hrecv]
        exact Option.some_ne_none _
      have hall : received [(start body, t₀)] = c₀ := by simp [received, Tick.chunk, hrecv]
      have hprefix := hpeer.received_prefix
      rw [hall] at hfull hprefix
      exact returnsFull_of_first hwait hrecv hhead hbody hprefix hfull hu
    · rw [List.concat_eq_append, ← List.cons_append] at h hpeer hcalled hfull
      exact returnsFull_of_last hrecv hhead hbody h hend hpeer (hcalled p (by simp)) hfull
        (hnoticed p (by simp))

/-! ### The reply "12" to a caller with room for two bytes -/

def oneByte : Jnh 2 :=
  { phase := .fill 1, rspCode := 200, body := ⟨[49, 0], rfl⟩, bodyLen := 2 }

def bothBytes : Jnh 2 :=
  { phase := .fill 2, rspCode := 200, body := ⟨[49, 50], rfl⟩, bodyLen := 2 }

/-- The first byte comes with the head, the second one in a recv of its own, and
`t` follows. -/
def twoRecvs (t : Tick) : List (Jnh 2 × Tick) :=
  [(start (.zeros 2), .received ((Reply.timeNow [49, 50]).head ++ [49])),
    (oneByte, .received [50]), (bothBytes, t)]

theorem run_twoRecvs {u : Jnh 2} (h : step .fetchTime bothBytes t = some u) :
    Run (step .fetchTime) (start (.zeros 2)) (twoRecvs t) u := by
  have hfirst : step .fetchTime (start (.zeros 2))
      (.received ((Reply.timeNow [49, 50]).head ++ [49])) = some oneByte := by decide +kernel
  have hsecond : step .fetchTime oneByte (.received [50]) = some bothBytes := by decide +kernel
  exact ((Run.nil.snoc hfirst).snoc hsecond).snoc h

theorem fromPeer_twoRecvs (ht : ∀ c, t.recv = some c → c = []) :
    FromPeer (Reply.timeNow [49, 50]).bytes (twoRecvs t) := by
  refine ((fromPeer_nil.snoc (p := (_, _)) ?_).snoc (p := (_, _)) ?_).snoc (p := (_, _)) ?_
  · intro c hc
    obtain rfl := Option.some.inj hc
    exact ⟨⟨[50], rfl⟩, fun h => absurd h (by decide)⟩
  · intro c hc
    obtain rfl := Option.some.inj hc
    exact ⟨⟨[], rfl⟩, fun h => absurd h (by decide)⟩
  · intro c hc
    obtain rfl := ht c hc
    exact ⟨⟨[], rfl⟩, fun _ => Or.inr rfl⟩

theorem recvAfterWait_twoRecvs (ht : t.recv ≠ none → Deadlines.fetchTime.wait t = .ok ()) :
    RecvAfterWait .fetchTime (twoRecvs t) := by
  rw [RecvAfterWait, twoRecvs, List.forall_mem_cons, List.forall_mem_cons,
    List.forall_mem_singleton]
  exact ⟨fun _ => rfl, fun _ => rfl, ht⟩

/-- A full body is received. -/
theorem twoRecvs_full (t : Tick) :
    (Reply.timeNow [49, 50]).head.length + 2 ≤ (received (twoRecvs t)).length := by
  have hrecv : received (twoRecvs t) = (Reply.timeNow [49, 50]).head ++ [49] ++ [50] ++ t.chunk :=
    by simp [received, twoRecvs, Tick.chunk, Tick.received]
  rw [hrecv, List.length_append, List.length_append, List.length_append]
  exact Nat.le_add_right _ _

/-- The peer closes the connection behind the second byte. -/
theorem returns_full_at_close :
    ∃ s, Run (step .fetchTime) (start (.zeros 2)) (twoRecvs (.received [])) s ∧
      ReturnsFull (.timeNow [49, 50]) s := by
  have hrun := run_twoRecvs (t := .received []) rfl
  refine ⟨_, hrun, (returns_full_iff rfl (List.prefix_append _ [49]) ?_ hrun (fun _ => rfl)
    (fromPeer_twoRecvs ?_) (recvAfterWait_twoRecvs fun _ => rfl) (twoRecvs_full _)).mpr ?_⟩
  · decide
  · exact fun c hc => (Option.some.inj hc).symm
  · rw [List.forall_mem_cons, List.forall_mem_singleton]
    refine ⟨?_, fun _ => ⟨rfl, Option.some_ne_none _⟩⟩
    intro hphase
    cases hphase

/-- **A full body is not returned to the caller when the peer stays silent**:
the call waits for one more byte, and returns JNHE_TIMEOUT. -/
theorem full_body_times_out :
    ∃ s, Run (step .fetchTime) (start (.zeros 2)) (twoRecvs .silent) s ∧
      (∀ t, step .fetchTime s t = none) ∧
      FromPeer (Reply.timeNow [49, 50]).bytes (twoRecvs .silent) ∧
      RecvAfterWait .fetchTime (twoRecvs .silent) ∧
      (Reply.timeNow [49, 50]).head.length + 2 ≤ (received (twoRecvs .silent)).length ∧
      s.phase = .returned JNHE_TIMEOUT ∧ ¬ ReturnsFull (.timeNow [49, 50]) s := by
  refine ⟨_, run_twoRecvs rfl, fun _ => rfl, fromPeer_twoRecvs ?_, recvAfterWait_twoRecvs ?_,
    twoRecvs_full _, rfl, ?_⟩
  · intro c hc
    cases hc
  · exact fun hne => absurd rfl hne
  · rintro ⟨hok, -⟩
    exact absurd (Phase.returned.inj hok) (by decide)

end Jnh
