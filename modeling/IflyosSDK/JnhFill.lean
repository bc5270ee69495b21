/-
The body loop of `jnh_get`.

The loop counts nothing.  It goes on as long as `recv` returns bytes, and these
are stored behind each other; once the body is full no space is offered, so that
`recv` returns 0 and the loop ends.

* `FillInv` — behind an iteration, what has been received stands behind what
  was stored before;
* `fill_exact` — **the loop is bounded, stays inside the body and returns what
  it has received**.
-/
import IflyosSDK.JnhBody

namespace Jnh

variable {C : ℕ} {d : Deadlines} {s₀ s u : Jnh C} {t : Tick} {idx : ℕ}
  {tr : List (Jnh C × Tick)}

/-! ### The calls of recv -/

/-- The iterations that come to `recv`. -/
def recvCalls (d : Deadlines) (tr : List (Jnh C × Tick)) : List (Jnh C × Tick) :=
  tr.filter fun p => (d.wait p.2).isOk

theorem recvCalls_snoc_of_ok (h : d.wait t = .ok ()) :
    recvCalls d (tr ++ [(s, t)]) = recvCalls d tr ++ [(s, t)] := by
  rw [recvCalls, List.filter_append, List.filter_singleton, h]
  rfl

theorem recvCalls_snoc_of_error {e : ℤ} (h : d.wait t = .error e) :
    recvCalls d (tr ++ [(s, t)]) = recvCalls d tr := by
  rw [recvCalls, List.filter_append, List.filter_singleton, h]
  exact List.append_nil _

theorem length_recvCalls_le (d : Deadlines) (tr : List (Jnh C × Tick)) :
    (recvCalls d tr).length ≤ tr.length := List.length_filter_le _ _

/-! ### An iteration -/

/-- Whatever `select` and `recv` return, within the space offered, there is an
iteration. -/
theorem exists_step_fill (hphase : s.phase = .fill idx) (hs : s.bodyLen = C) (hidx : idx ≤ C)
    (hfits : ∀ c, t.recv = some c → c.length ≤ s.bodyLen - idx) : (step d s t).isSome := by
  cases hwait : d.wait t with
  | error e =>
    rw [step_of_fill_error hphase hwait]
    rfl
  | ok _ =>
    have hoffer : ¬ (s.bodyLen < idx ∨ C < s.bodyLen) := by omega
    rw [step_of_fill hphase hwait, fillRecv.eq_def, if_neg hoffer]
    cases hrecv : t.recv with
    | none => rfl
    | some c =>
      cases c with
      | nil => rfl
      | cons b c =>
        have hlen := hfits (b :: c) hrecv
        have hroom : idx + (b :: c).length ≤ s.bodyLen := by omega
        obtain ⟨body, hbody⟩ := s.body.exists_store (hroom.trans hs.le)
        simp only [if_pos hroom, hbody, Option.map_some, Option.isSome_some]

/-! ### What has been received -/

/-- In the loop entered in `s₀` with `idx` bytes stored, behind `n` iterations
that have received `got`. -/
structure FillInv (s₀ : Jnh C) (idx n : ℕ) (got : Bytes) (s : Jnh C) : Prop where
  room : idx + got.length ≤ C
  stored : s.body.bytes.take (idx + got.length) = s₀.body.bytes.take idx ++ got
  phase : s.bodyLen = C ∧ s.phase = .fill (idx + got.length) ∧ n ≤ got.length ∨
    n ≤ got.length + 1 ∧ ∃ e, s.phase = .returned e ∧
      (e = JNHE_OK → s.bodyLen = idx + got.length)

theorem fillInv_start (hphase : s₀.phase = .fill idx) (hs : s₀.bodyLen = C) (hidx : idx ≤ C) :
    FillInv s₀ idx 0 [] s₀ where
  room := hidx
  stored := (List.append_nil _).symm
  phase := Or.inl ⟨hs, hphase, le_rfl⟩

theorem FillInv.ret {n : ℕ} {got : Bytes} {e : ℤ} (hinv : FillInv s₀ idx n got s)
    (hn : n ≤ got.length) (he : e ≠ JNHE_OK) : FillInv s₀ idx (n + 1) got (s.ret e) where
  room := hinv.room
  stored := hinv.stored
  phase := Or.inr ⟨by omega, e, rfl, fun h => absurd h he⟩

/-- An iteration that comes to `recv`. -/
theorem FillInv.recv {n : ℕ} {got : Bytes} (hinv : FillInv s₀ idx n got s)
    (hs : s.bodyLen = C) (hn : n ≤ got.length)
    (h : s.fillRecv (idx + got.length) t.recv = some u) :
    FillInv s₀ idx (n + 1) (got ++ t.chunk) u := by
  have hroom := hinv.room
  rw [Tick.chunk]
  rcases fillRecv_cases hs hroom h with ⟨c, body, hrecv, hne, hstore, rfl⟩ | ⟨hrecv, rfl⟩ |
    ⟨hrecv, rfl⟩
  · -- the bytes are stored behind what has been received
    have hlen : idx + (got ++ c).length = idx + got.length + c.length := by
      rw [List.length_append, Nat.add_assoc]
    have hle := Buffer.length_le_of_store hstore
    have hpos := List.length_pos_iff.mpr hne
    rw [hrecv, Option.getD_some]
    refine ⟨hlen ▸ hle, ?_, Or.inl ⟨hs, by rw [hlen], ?_⟩⟩
    · rw [hlen, Buffer.take_of_store hstore hroom, hinv.stored, List.append_assoc]
    · rw [List.length_append]
      omega
  · rw [hrecv, Option.getD_some, List.append_nil]
    exact ⟨hroom, hinv.stored, Or.inr ⟨by omega, JNHE_OK, rfl, fun _ => rfl⟩⟩
  · rw [hrecv, Option.getD_none, List.append_nil]
    exact hinv.ret hn (by decide)

/-- **An iteration keeps the invariant.** -/
theorem fillInv_step (hinv : FillInv s₀ idx tr.length (received (recvCalls d tr)) s)
    (h : step d s t = some u) :
    FillInv s₀ idx (tr ++ [(s, t)]).length (received (recvCalls d (tr ++ [(s, t)]))) u := by
  rw [List.length_append, List.length_singleton]
  rcases hinv.phase with ⟨hs, hphase, hn⟩ | ⟨-, e, hphase, -⟩
  · cases hwait : d.wait t with
    | error e =>
      rw [step_of_fill_error hphase hwait, Option.some.injEq] at h
      rw [recvCalls_snoc_of_error hwait, ← h]
      exact hinv.ret hn (wait_ne_ok hwait)
    | ok _ =>
      rw [step_of_fill hphase hwait] at h
      rw [recvCalls_snoc_of_ok hwait, received_snoc]
      exact hinv.recv hs hn h
  · rw [step, hphase] at h
    cases h

theorem fillInv_run (hphase : s₀.phase = .fill idx) (hs : s₀.bodyLen = C) (hidx : idx ≤ C)
    (h : Run (step d) s₀ tr s) : FillInv s₀ idx tr.length (received (recvCalls d tr)) s :=
  h.history (I := fun tr s => FillInv s₀ idx tr.length (received (recvCalls d tr)) s)
    (fillInv_start hphase hs hidx) fun _ _ _ _ => fillInv_step

theorem FillInv.length_le {n : ℕ} {got : Bytes} (hinv : FillInv s₀ idx n got s) :
    n ≤ C - idx + 1 := by
  have hroom := hinv.room
  rcases hinv.phase with ⟨-, -, hn⟩ | ⟨hn, -⟩ <;> omega

/-- Where a step is taken, the loop has not ended. -/
theorem FillInv.of_step {n : ℕ} {got : Bytes} (hinv : FillInv s₀ idx n got s)
    (h : step d s t = some u) : s.bodyLen = C ∧ s.phase = .fill (idx + got.length) := by
  rcases hinv.phase with ⟨hs, hphase, -⟩ | ⟨-, e, hphase, -⟩
  · exact ⟨hs, hphase⟩
  · rw [step, hphase] at h
    cases h

/-- The space that `recv` is offered. -/
theorem offered_inside (hphase : s₀.phase = .fill idx) (hs : s₀.bodyLen = C) (hidx : idx ≤ C)
    (h : Run (step d) s₀ tr s) :
    ∀ p ∈ tr, ∃ i, p.1.phase = .fill i ∧ idx ≤ i ∧ i ≤ p.1.bodyLen ∧ p.1.bodyLen = C := by
  intro p hp
  obtain ⟨tr₁, tr₂, rfl⟩ := List.append_of_mem hp
  obtain ⟨hbefore, v, hv, -⟩ := h.split
  have hinv := fillInv_run hphase hs hidx hbefore
  obtain ⟨hlen, hfill⟩ := hinv.of_step hv
  have hroom := hinv.room
  exact ⟨_, hfill, Nat.le_add_right _ _, by omega, hlen⟩

/-- **The body loop is bounded and exact.**  In every run from the entry with
`idx` bytes stored: `recv` is called at most `C - idx + 1` times, and there are
no more iterations than that; the space offered lies inside the body; what was
stored stays, with what has been received behind it; behind JNHE_OK that is the
rest of the body; and as long as the loop goes on, it takes every result. -/
theorem fill_exact (hidx : idx < C) (hphase : s₀.phase = .fill idx)
    (hs : s₀.bodyLen = C) (h : Run (step d) s₀ tr s) :
    ((recvCalls d tr).length ≤ C - idx + 1 ∧ tr.length ≤ C - idx + 1) ∧
      (∀ p ∈ tr, ∃ i, p.1.phase = .fill i ∧ idx ≤ i ∧ i ≤ p.1.bodyLen ∧ p.1.bodyLen = C) ∧
      s.body.bytes.take (idx + (received (recvCalls d tr)).length) =
        s₀.body.bytes.take idx ++ received (recvCalls d tr) ∧
      (s.phase = .returned JNHE_OK → s.bodyLen ≤ C ∧
        (s.body.bytes.take s.bodyLen).drop idx = received (recvCalls d tr)) ∧
      ((∃ i, s.phase = .fill i ∧ ∀ t : Tick,
          (∀ c, t.recv = some c → c.length ≤ s.bodyLen - i) → (step d s t).isSome) ∨
        ∃ e, s.phase = .returned e) := by
  have hinv := fillInv_run hphase hs hidx.le h
  have hbound := hinv.length_le
  refine ⟨⟨(length_recvCalls_le d tr).trans hbound, hbound⟩,
    offered_inside hphase hs hidx.le h, hinv.stored, ?_, ?_⟩
  · intro hok
    rcases hinv.phase with ⟨-, hfill, -⟩ | ⟨-, e, hret, hlen⟩
    · rw [hok] at hfill
      cases hfill
    · rw [hok, Phase.returned.injEq] at hret
      have hbefore : (s₀.body.bytes.take idx).length = idx := by
        rw [List.length_take, s₀.body.size]
        omega
      rw [hlen hret.symm, hinv.stored]
      exact ⟨hinv.room, List.drop_left' hbefore⟩
  · rcases hinv.phase with ⟨hlen, hfill, -⟩ | ⟨-, e, hret, -⟩
    · exact Or.inl ⟨_, hfill, fun t hfits => exists_step_fill hfill hlen hinv.room hfits⟩
    · exact Or.inr ⟨e, hret⟩

/-- A body of three bytes, the first of which came with the head. -/
def filling : Jnh 3 :=
  { phase := .fill 1, rspCode := 200, body := ⟨[49, 0, 0], rfl⟩, bodyLen := 3 }

/-- The other two come one by one; the third call is offered no space. -/
theorem fill_exact_three_calls :
    ∃ (tr : List (Jnh 3 × Tick)) (s : Jnh 3), Run (step .fetchTime) filling tr s ∧
      s.phase = .returned JNHE_OK ∧ (recvCalls .fetchTime tr).length ≤ 3 - 1 + 1 ∧
      (s.body.bytes.take s.bodyLen).drop 1 = received (recvCalls .fetchTime tr) := by
  have hphase : (Run.exec (step .fetchTime) filling
      [.received [50], .received [51], .received []]).map (fun r => r.2.phase) =
        some (.returned JNHE_OK) := by decide +kernel
  obtain ⟨⟨tr, s⟩, hexec, hok⟩ := Option.map_eq_some_iff.mp hphase
  have hrun := Run.of_exec _ hexec
  obtain ⟨hcalls, -, -, hbody, -⟩ := fill_exact (by decide) rfl rfl hrun
  exact ⟨tr, s, hrun, hok, hcalls.1, (hbody hok).2⟩

end Jnh
