/-
What an iteration of `jnh_get` does, and what holds between two iterations.

* `copyBody_fault`, `copyBody_full`, `copyBody_empty`, `copyBody_part` — the
  four ways the bytes behind the blank line are taken, and `copyBody_cases`;
* `collectTail_eq_ok_iff` — when the walk over the trailing CR and LF bytes
  stays inside its two arrays;
* `Jnh.step_head_cases`, `Jnh.step_fill_cases` — what one iteration of either
  loop can do, and `Jnh.step_cases` — of the call;
* `Jnh.inv_run` — what holds of the arrays in every state of a run.
-/
import IflyosSDK.Jnh
import IflyosSDK.Runs

/-! ### The bytes behind the blank line -/

section CopyBody

variable {C : ℕ} {s : Jnh C} {w : Buffer 128} {rd bodyPtr : ℕ}

/-- A blank line found behind the fresh bytes makes the length negative. -/
theorem copyBody_fault (h : rd < bodyPtr + 3) : copyBody s w rd bodyPtr = s.crash .copy := by
  have hlen : (rd : ℤ) - (bodyPtr + 3) < 0 := by omega
  have hC : ¬ (s.bodyLen : ℤ) ≤ (rd : ℤ) - (bodyPtr + 3) := by omega
  rw [copyBody, if_neg hC, if_pos hlen]

/-- The bytes received fill the caller's body. -/
theorem copyBody_full (hs : s.bodyLen = C) (hrd : rd ≤ 128) (h : bodyPtr + 3 + C ≤ rd) :
    ∃ body, copyBody s w rd bodyPtr = { s with body := body, phase := .returned JNHE_OK } ∧
      body.bytes = (w.bytes.drop (bodyPtr + 3)).take C := by
  have hC : (s.bodyLen : ℤ) ≤ (rd : ℤ) - (bodyPtr + 3) := by omega
  obtain ⟨body, hbody, htake⟩ :=
    w.exists_copy s.body (bodyPtr + 3) s.bodyLen (by omega) (by omega)
  refine ⟨body, ?_, ?_⟩
  · rw [copyBody, if_pos hC, hbody]
  · rw [hs, List.take_of_length_le (by rw [body.size])] at htake
    exact htake

/-- Nothing but the head is in. -/
theorem copyBody_empty (hs : s.bodyLen = C) (hrd : rd ≤ 128) (hC : 0 < C)
    (h : bodyPtr + 3 = rd) :
    ∃ body, copyBody s w rd bodyPtr =
      { s with body := body, bodyLen := 0, phase := .returned JNHE_OK } := by
  have hlen : (rd : ℤ) - (bodyPtr + 3) = 0 := by omega
  obtain ⟨body, hbody, -⟩ := w.exists_copy s.body (bodyPtr + 3) 0 (by omega) (by omega)
  refine ⟨body, ?_⟩
  rw [copyBody, hlen, if_neg (by omega), if_neg (by omega), Int.toNat_zero, hbody]
  rfl

/-- A part of the body is in. -/
theorem copyBody_part (hs : s.bodyLen = C) (hrd : rd ≤ 128) (h : bodyPtr + 3 < rd)
    (hC : rd < bodyPtr + 3 + C) :
    ∃ body, copyBody s w rd bodyPtr =
        { s with body := body, phase := .fill (rd - (bodyPtr + 3)) } ∧
      body.bytes.take (rd - (bodyPtr + 3)) =
        (w.bytes.drop (bodyPtr + 3)).take (rd - (bodyPtr + 3)) := by
  have hlen : ((rd : ℤ) - (bodyPtr + 3)).toNat = rd - (bodyPtr + 3) := by omega
  obtain ⟨body, hbody, htake⟩ :=
    w.exists_copy s.body (bodyPtr + 3) (rd - (bodyPtr + 3)) (by omega) (by omega)
  refine ⟨body, ?_, htake⟩
  rw [copyBody, if_neg (by omega), if_neg (by omega), hlen, hbody]
  show (if _ then _ else _) = _
  rw [if_neg (by omega)]

/-- One of the four it is. -/
theorem copyBody_cases (bodyPtr : ℕ) (hs : s.bodyLen = C) (hrd : rd ≤ 128) :
    (rd < bodyPtr + 3 ∧ copyBody s w rd bodyPtr = s.crash .copy) ∨
      (bodyPtr + 3 + C ≤ rd ∧ ∃ body, copyBody s w rd bodyPtr =
        { s with body := body, phase := .returned JNHE_OK }) ∨
      (bodyPtr + 3 = rd ∧ 0 < C ∧ ∃ body, copyBody s w rd bodyPtr =
        { s with body := body, bodyLen := 0, phase := .returned JNHE_OK }) ∨
      (bodyPtr + 3 < rd ∧ rd < bodyPtr + 3 + C ∧ ∃ body, copyBody s w rd bodyPtr =
        { s with body := body, phase := .fill (rd - (bodyPtr + 3)) }) := by
  by_cases hneg : rd < bodyPtr + 3
  · exact Or.inl ⟨hneg, copyBody_fault hneg⟩
  by_cases hfull : bodyPtr + 3 + C ≤ rd
  · obtain ⟨body, hcopy, -⟩ := copyBody_full hs hrd hfull (w := w)
    exact Or.inr (Or.inl ⟨hfull, body, hcopy⟩)
  have hC : 0 < C := by omega
  by_cases hempty : bodyPtr + 3 = rd
  · obtain ⟨body, hcopy⟩ := copyBody_empty hs hrd hC hempty (w := w)
    exact Or.inr (Or.inr (Or.inl ⟨hempty, hC, body, hcopy⟩))
  · have hpart : bodyPtr + 3 < rd := by omega
    have hroom : rd < bodyPtr + 3 + C := by omega
    obtain ⟨body, hcopy, -⟩ := copyBody_part hs hrd hpart hroom (w := w)
    exact Or.inr (Or.inr (Or.inr ⟨hpart, hroom, body, hcopy⟩))

/-- The phase that the bytes behind the blank line lead to. -/
theorem copyBody_phase (hs : s.bodyLen = C) (hrd : rd ≤ 128) :
    (copyBody s w rd bodyPtr).phase =
      if rd < bodyPtr + 3 then .fault .copy
      else if bodyPtr + 3 + C ≤ rd ∨ bodyPtr + 3 = rd then .returned JNHE_OK
      else .fill (rd - (bodyPtr + 3)) := by
  rcases copyBody_cases bodyPtr hs hrd (w := w) with ⟨hneg, hcopy⟩ |
    ⟨hfull, body, hcopy⟩ | ⟨hempty, -, body, hcopy⟩ | ⟨hpart, hroom, body, hcopy⟩
  · rw [hcopy, if_pos hneg]
    rfl
  · rw [hcopy, if_neg (by omega), if_pos (Or.inl hfull)]
  · rw [hcopy, if_neg (by omega), if_pos (Or.inr hempty)]
  · rw [hcopy, if_neg (by omega), if_neg (by omega)]

/-- The head loop is left. -/
theorem copyBody_ne_head (w' : Buffer 128) (n : ℕ) :
    (copyBody s w rd bodyPtr).phase ≠ .head w' n := by
  rw [copyBody]
  split_ifs
  · split <;> exact Phase.noConfusion
  · exact Phase.noConfusion
  · split <;> exact Phase.noConfusion
  · split <;> exact Phase.noConfusion

theorem copyBody_rspCode : (copyBody s w rd bodyPtr).rspCode = s.rspCode := by
  rw [copyBody]
  split_ifs
  · split <;> rfl
  · rfl
  · split <;> rfl
  · split <;> rfl

end CopyBody

/-! ### The walk over the trailing bytes -/

/-- The CR and LF bytes that end at index `t`, the last one first. -/
def tailRun (w : Bytes) (t : ℕ) : Bytes := (w.take (t + 1)).reverse.takeWhile isCrLf

theorem collectTail_eq_ok_iff_aux {w : Bytes} {n : ℕ} (hn : n ≤ w.length) {buf r : Bytes} :
    collectTail w n buf = .ok r ↔
      ∃ run, run = (w.take n).reverse.takeWhile isCrLf ∧ run.length < n ∧
        (run = [] ∨ buf.length + run.length ≤ 4) ∧ r = buf ++ run := by
  induction n generalizing buf with
  | zero => simp [collectTail]
  | succ n ih =>
    have hlt : n < w.length := by omega
    have htake : (w.take (n + 1)).reverse = w[n] :: (w.take n).reverse := by
      rw [List.take_succ_eq_append_getElem hlt, List.reverse_append]
      rfl
    rw [collectTail, List.getElem?_eq_getElem hlt, htake]
    by_cases hb : isCrLf w[n]
    · -- one byte more is put into `buf`
      rw [List.takeWhile_cons_of_pos hb]
      simp only [if_pos hb]
      by_cases h4 : buf.length < 4
      · rw [if_pos h4, ih (by omega)]
        constructor
        · rintro ⟨run, rfl, hlen, hfits, rfl⟩
          refine ⟨_, rfl, by simpa using hlen, Or.inr ?_, by simp⟩
          rcases hfits with hnil | hfits
          · simp only [hnil, List.length_cons, List.length_nil]
            omega
          · simp only [List.length_append, List.length_cons, List.length_nil] at hfits ⊢
            omega
        · rintro ⟨run, rfl, hlen, hfits, rfl⟩
          refine ⟨_, rfl, by simpa using hlen, Or.inr ?_, by simp⟩
          rcases hfits with hnil | hfits
          · cases hnil
          · simp only [List.length_append, List.length_cons, List.length_nil] at hfits ⊢
            omega
      · rw [if_neg h4]
        constructor
        · intro h
          cases h
        · rintro ⟨run, rfl, -, hfits, -⟩
          rcases hfits with hnil | hfits
          · cases hnil
          · simp only [List.length_cons] at hfits
            omega
    · -- the walk ends
      rw [List.takeWhile_cons_of_neg hb]
      simp only [if_neg hb, Except.ok.injEq]
      constructor
      · rintro rfl
        exact ⟨[], rfl, by simp, Or.inl rfl, by simp⟩
      · rintro ⟨run, rfl, -, -, rfl⟩
        simp

/-- **The walk stays inside `beforeBodyLine` and `buf`** when it starts inside
the one, meets at most four bytes, and stops before the start. -/
theorem collectTail_eq_ok_iff {w : Buffer 128} {t : ℕ} {buf : Bytes} :
    collectTail w.bytes (t + 1) [] = .ok buf ↔
      t < 128 ∧ (tailRun w.bytes t).length ≤ min 4 t ∧ buf = tailRun w.bytes t := by
  by_cases ht : t < 128
  · rw [collectTail_eq_ok_iff_aux (by rw [w.size]; omega), ← tailRun]
    constructor
    · rintro ⟨run, rfl, hlen, hfits, rfl⟩
      refine ⟨ht, ?_, rfl⟩
      rcases hfits with hnil | hfits
      · simp [hnil]
      · simp only [List.length_nil] at hfits
        omega
    · rintro ⟨-, hlen, rfl⟩
      exact ⟨_, rfl, by omega, Or.inr (by simp only [List.length_nil]; omega), rfl⟩
  · have hnone : w.bytes[t]? = none := List.getElem?_eq_none (by rw [w.size]; omega)
    rw [collectTail, hnone]
    simp [ht]

/-- The walk from index `t` stays inside its arrays. -/
def TailFits (w : Buffer 128) (t : ℕ) : Prop :=
  t < 128 ∧ (tailRun w.bytes t).length ≤ min 4 t

section CarryTail

variable {C : ℕ} {s : Jnh C} {w : Buffer 128} {idx rd : ℕ}

theorem nul_not_mem_tailRun (w : Bytes) (t : ℕ) : 0 ∉ tailRun w t := by
  intro h
  have := List.mem_takeWhile_imp h
  simp [isCrLf] at this

/-- The next window starts with the bytes of the walk in their order. -/
theorem carryTail_of_tailFits (h : TailFits w (idx + rd)) :
    ∃ w', carryTail s w idx rd =
        { s with phase := .head w' (tailRun w.bytes (idx + rd)).length } ∧
      w.store 0 (tailRun w.bytes (idx + rd)).reverse = some w' := by
  have hok := collectTail_eq_ok_iff.mpr ⟨h.1, h.2, rfl⟩
  have h4 := h.2.trans (min_le_left _ _)
  obtain ⟨w', hw'⟩ := w.exists_store
    (show 0 + (tailRun w.bytes (idx + rd)).reverse.length ≤ 128 by
      rw [List.length_reverse]
      omega)
  refine ⟨w', ?_, hw'⟩
  rw [carryTail, hok]
  simp only [hw']

theorem carryTail_of_not_tailFits (h : ¬ TailFits w (idx + rd)) :
    ∃ f, carryTail s w idx rd = s.crash f := by
  rw [carryTail]
  cases hwalk : collectTail w.bytes (idx + rd + 1) [] with
  | error f => exact ⟨f, rfl⟩
  | ok buf =>
    obtain ⟨ht, hlen, -⟩ := collectTail_eq_ok_iff.mp hwalk
    exact absurd ⟨ht, hlen⟩ h

theorem carryTail_head_iff :
    (∃ w' n, (carryTail s w idx rd).phase = .head w' n) ↔ TailFits w (idx + rd) := by
  by_cases hfits : TailFits w (idx + rd)
  · obtain ⟨w', hcarry, -⟩ := carryTail_of_tailFits hfits (s := s)
    exact ⟨fun _ => hfits, fun _ => ⟨w', _, by rw [hcarry]⟩⟩
  · obtain ⟨f, hcarry⟩ := carryTail_of_not_tailFits hfits (s := s)
    refine ⟨?_, fun h => absurd h hfits⟩
    rintro ⟨w', n, h⟩
    rw [hcarry] at h
    cases h

theorem carryTail_rspCode : (carryTail s w idx rd).rspCode = s.rspCode := by
  by_cases hfits : TailFits w (idx + rd)
  · obtain ⟨w', hcarry, -⟩ := carryTail_of_tailFits hfits (s := s)
    rw [hcarry]
  · obtain ⟨f, hcarry⟩ := carryTail_of_not_tailFits hfits (s := s)
    rw [hcarry]
    rfl

/-- The head loop goes on when there is no blank line and the walk over the
trailing bytes stays inside its arrays. -/
theorem findBody_head_iff :
    (∃ w' n, (findBody s w idx rd).phase = .head w' n) ↔
      strstr lfCrLf w.bytes = .absent ∧ TailFits w (idx + rd) := by
  rw [findBody]
  cases strstr lfCrLf w.bytes with
  | found i =>
    constructor
    · rintro ⟨w', n, h⟩
      exact absurd h (copyBody_ne_head w' n)
    · rintro ⟨h, -⟩
      cases h
  | absent => exact carryTail_head_iff.trans ⟨fun h => ⟨rfl, h⟩, fun h => h.2⟩
  | overrun =>
    constructor
    · rintro ⟨w', n, h⟩
      cases h
    · rintro ⟨h, -⟩
      cases h

theorem findBody_rspCode : (findBody s w idx rd).rspCode = s.rspCode := by
  rw [findBody]
  split
  · rfl
  · exact copyBody_rspCode
  · exact carryTail_rspCode

/-- A search for the body runs over an array, carries what it has not used, or
finds the blank line. -/
theorem findBody_cases (s : Jnh C) (w : Buffer 128) (idx rd : ℕ) :
    (∃ f, findBody s w idx rd = s.crash f) ∨
      (strstr lfCrLf w.bytes = .absent ∧
        ∃ w' n, findBody s w idx rd = { s with phase := .head w' n }) ∨
      ∃ i, strstr lfCrLf w.bytes = .found i ∧ findBody s w idx rd = copyBody s w rd i := by
  rw [findBody]
  cases strstr lfCrLf w.bytes with
  | overrun => exact Or.inl ⟨.scan, rfl⟩
  | found i => exact Or.inr (Or.inr ⟨i, rfl, rfl⟩)
  | absent =>
    by_cases hfits : TailFits w (idx + rd)
    · obtain ⟨w', hcarry, -⟩ := carryTail_of_tailFits hfits (s := s)
      exact Or.inr (Or.inl ⟨rfl, w', _, hcarry⟩)
    · exact Or.inl (carryTail_of_not_tailFits hfits)

/-- An iteration that receives ends without a status code, or looks for the
body. -/
theorem readHead_cases (s : Jnh C) (w : Buffer 128) (idx rd : ℕ) :
    readHead s w idx rd = s.ret JNHE_HTTP ∨ readHead s w idx rd = s.crash .scan ∨
      ∃ code, readHead s w idx rd = findBody { s with rspCode := code } w idx rd := by
  rw [readHead]
  split
  · rw [readStatus]
    cases strstr crLf w.bytes with
    | absent => exact Or.inl rfl
    | overrun => exact Or.inr (Or.inl rfl)
    | found i =>
      cases atoi (w.bytes.drop 9) with
      | none => exact Or.inr (Or.inl rfl)
      | some code => exact Or.inr (Or.inr ⟨code, rfl⟩)
  · exact Or.inr (Or.inr ⟨s.rspCode, rfl⟩)

end CarryTail

/-! ### Steps -/

namespace Jnh

variable {C : ℕ} {d : Deadlines} {s u : Jnh C} {t : Tick} {idx : ℕ} {c : Bytes}
  {w : Buffer 128}

/-- In this iteration of the head loop `recv` puts the bytes `c` into the
window at `idx`, and `w` is the window afterwards. -/
def Receives (d : Deadlines) (s : Jnh C) (t : Tick) (idx : ℕ) (c : Bytes) (w : Buffer 128) :
    Prop :=
  ∃ w₀, s.phase = .head w₀ idx ∧ d.wait t = .ok () ∧ t.recv = some c ∧ c ≠ [] ∧
    w₀.store idx c = some w

theorem step_of_receives (h : Receives d s t idx c w) :
    step d s t = some (readHead s w idx c.length) := by
  obtain ⟨w₀, hphase, hwait, hrecv, hne, hw⟩ := h
  obtain ⟨b, c, rfl⟩ := List.exists_cons_of_ne_nil hne
  rw [step, hphase]
  simp only [hwait, hrecv, headRecv, hw, Option.map_some]

/-- The window with what an iteration has received. -/
theorem window_of_receives {w₀ : Buffer 128} {i : ℕ} {c₀ : Bytes} (hs : s.phase = .head w₀ i)
    (h : Receives d s (.received c₀) idx c w) :
    idx = i ∧ c = c₀ ∧
      w.bytes = w₀.bytes.take i ++ c₀ ++ w₀.bytes.drop (i + c₀.length) := by
  obtain ⟨w', hw', -, hrecv, -, hw⟩ := h
  obtain ⟨rfl, rfl⟩ := Phase.head.inj (hs.symm.trans hw')
  obtain rfl := Option.some.inj hrecv
  exact ⟨rfl, rfl, Buffer.bytes_of_store hw⟩

theorem wait_ne_ok {e : ℤ} (h : d.wait t = .error e) : e ≠ JNHE_OK := by
  rw [Deadlines.wait] at h
  split at h
  · cases h
    decide
  · split_ifs at h
    all_goals
      cases h
      decide

/-- What an iteration of the head loop can do: receive, or return an error. -/
theorem step_head_cases {w₀ : Buffer 128} (hphase : s.phase = .head w₀ idx)
    (h : step d s t = some u) :
    (∃ c w, Receives d s t idx c w ∧ u = readHead s w idx c.length) ∨
      ∃ e, e ≠ JNHE_OK ∧ u = s.ret e := by
  cases hwait : d.wait t with
  | error e =>
    rw [step, hphase] at h
    simp only [hwait, Option.some.injEq] at h
    exact Or.inr ⟨e, wait_ne_ok hwait, h.symm⟩
  | ok _ =>
    cases hrecv : t.recv with
    | none =>
      rw [step, hphase] at h
      simp only [hwait, hrecv, headRecv, Option.some.injEq] at h
      exact Or.inr ⟨JNHE_READ, by decide, h.symm⟩
    | some c =>
      rcases c with _ | ⟨b, c⟩
      · rw [step, hphase] at h
        simp only [hwait, hrecv, headRecv, Option.some.injEq] at h
        exact Or.inr ⟨JNHE_READ, by decide, h.symm⟩
      · cases hw : w₀.store idx (b :: c) with
        | none =>
          rw [step, hphase] at h
          simp [hwait, hrecv, headRecv, hw] at h
        | some w =>
          have hr : Receives d s t idx (b :: c) w :=
            ⟨w₀, hphase, hwait, hrecv, by simp, hw⟩
          rw [step_of_receives hr, Option.some.injEq] at h
          exact Or.inl ⟨b :: c, w, hr, h.symm⟩

theorem step_of_fill (hphase : s.phase = .fill idx) (hwait : d.wait t = .ok ()) :
    step d s t = s.fillRecv idx t.recv := by
  rw [step, hphase]
  simp only [hwait]

theorem step_of_fill_error {e : ℤ} (hphase : s.phase = .fill idx)
    (hwait : d.wait t = .error e) : step d s t = some (s.ret e) := by
  rw [step, hphase]
  simp only [hwait]

/-- What `recv` in the body loop leads to: store the bytes received, end with
the peer's close, or return an error. -/
theorem fillRecv_cases {r : Option Bytes} (hs : s.bodyLen = C) (hidx : idx ≤ C)
    (h : s.fillRecv idx r = some u) :
    (∃ c body, r = some c ∧ c ≠ [] ∧ s.body.store idx c = some body ∧
        u = { s with body := body, phase := .fill (idx + c.length) }) ∨
      (r = some [] ∧ u = { s with bodyLen := idx, phase := .returned JNHE_OK }) ∨
      (r = none ∧ u = s.ret JNHE_READ) := by
  have hoffer : ¬ (s.bodyLen < idx ∨ C < s.bodyLen) := by omega
  rw [fillRecv.eq_def, if_neg hoffer] at h
  cases r with
  | none => exact Or.inr (Or.inr ⟨rfl, (Option.some.inj h).symm⟩)
  | some c =>
    cases c with
    | nil => exact Or.inr (Or.inl ⟨rfl, (Option.some.inj h).symm⟩)
    | cons b c =>
      simp only at h
      split at h
      · obtain ⟨body, hbody, rfl⟩ := Option.map_eq_some_iff.mp h
        exact Or.inl ⟨b :: c, body, rfl, by simp, hbody, rfl⟩
      · cases h

/-- What an iteration of the body loop can do: store the bytes received, end
with the peer's close, or return an error. -/
theorem step_fill_cases (hphase : s.phase = .fill idx) (hs : s.bodyLen = C) (hidx : idx ≤ C)
    (h : step d s t = some u) :
    (∃ c body, t.recv = some c ∧ c ≠ [] ∧ s.body.store idx c = some body ∧
        u = { s with body := body, phase := .fill (idx + c.length) }) ∨
      (t.recv = some [] ∧ u = { s with bodyLen := idx, phase := .returned JNHE_OK }) ∨
      ∃ e, e ≠ JNHE_OK ∧ u = s.ret e := by
  cases hwait : d.wait t with
  | error e =>
    rw [step_of_fill_error hphase hwait, Option.some.injEq] at h
    exact Or.inr (Or.inr ⟨e, wait_ne_ok hwait, h.symm⟩)
  | ok _ =>
    rw [step_of_fill hphase hwait] at h
    rcases fillRecv_cases hs hidx h with hstored | hclosed | ⟨-, hu⟩
    · exact Or.inl hstored
    · exact Or.inr (Or.inl hclosed)
    · exact Or.inr (Or.inr ⟨JNHE_READ, by decide, hu⟩)

/-! ### Between two iterations -/

/-- The window in front of an iteration: at most four carried bytes, none of
them NUL, and a NUL at the end. -/
structure HeadInv (w : Buffer 128) (idx : ℕ) : Prop where
  idx_le : idx ≤ 4
  carried : 0 ∉ w.bytes.take idx
  last : w.bytes[127]? = some 0

/-- The window that an iteration searches holds a NUL unless `recv` fills it
with other bytes. -/
theorem mem_nul_iff {w₀ : Buffer 128} (hw₀ : HeadInv w₀ idx) (hw : w₀.store idx c = some w) :
    0 ∈ w.bytes ↔ idx + c.length < 128 ∨ 0 ∈ c := by
  rw [Buffer.bytes_of_store hw, List.mem_append, List.mem_append]
  constructor
  · rintro ((hcarried | hc) | hstale)
    · exact absurd hcarried hw₀.carried
    · exact Or.inr hc
    · -- an old byte is left behind the fresh ones
      left
      have hpos := List.length_pos_of_mem hstale
      rw [List.length_drop, w₀.size] at hpos
      omega
  · rintro (hlt | hc)
    · right
      have hget : (w₀.bytes.drop (idx + c.length))[127 - (idx + c.length)]? = some 0 := by
        rw [List.getElem?_drop, Nat.add_sub_of_le (by omega)]
        exact hw₀.last
      exact List.mem_of_getElem? hget
    · exact Or.inl (Or.inr hc)

/-- What holds of the arrays between two iterations.  In both loops `*bodyLen`
is still what the caller has put there. -/
def Inv (s : Jnh C) : Prop :=
  match s.phase with
  | .head w idx => s.bodyLen = C ∧ HeadInv w idx
  | .fill idx => s.bodyLen = C ∧ 0 < idx ∧ idx ≤ C
  | .returned _ => s.bodyLen ≤ C
  | .fault _ => True

theorem inv_start (body : Buffer C) : Inv (start body) := by
  refine ⟨rfl, ⟨by omega, ?_, ?_⟩⟩
  · simp
  · rfl

theorem inv_copyBody {rd bodyPtr : ℕ} (hs : s.bodyLen = C) (hrd : rd ≤ 128) :
    Inv (copyBody s w rd bodyPtr) := by
  rcases copyBody_cases bodyPtr hs hrd (w := w) with ⟨-, hcopy⟩ |
    ⟨-, body, hcopy⟩ | ⟨-, -, body, hcopy⟩ | ⟨hpart, hroom, body, hcopy⟩
  · rw [hcopy]
    trivial
  · rw [hcopy]
    exact hs.le
  · rw [hcopy]
    exact Nat.zero_le C
  · rw [hcopy]
    show s.bodyLen = C ∧ _
    omega

theorem inv_carryTail {rd : ℕ} (hs : s.bodyLen = C)
    (hlast : idx + rd < 128 → w.bytes[127]? = some 0) : Inv (carryTail s w idx rd) := by
  by_cases hfits : TailFits w (idx + rd)
  · obtain ⟨w', hcarry, hstore⟩ := carryTail_of_tailFits hfits (s := s)
    have h4 := hfits.2.trans (min_le_left _ _)
    rw [hcarry]
    refine ⟨hs, h4, ?_, ?_⟩
    · -- what is carried are CR and LF bytes
      rw [Buffer.bytes_of_store hstore, List.take_zero, List.nil_append,
        List.take_left' (List.length_reverse), List.mem_reverse]
      exact nul_not_mem_tailRun _ _
    · rw [Buffer.getElem?_store hstore (by rw [List.length_reverse]; omega)]
      exact hlast hfits.1
  · obtain ⟨f, hcarry⟩ := carryTail_of_not_tailFits hfits (s := s)
    rw [hcarry]
    trivial

theorem inv_findBody {rd : ℕ} (hs : s.bodyLen = C) (hrd : rd ≤ 128)
    (hlast : idx + rd < 128 → w.bytes[127]? = some 0) : Inv (findBody s w idx rd) := by
  rw [findBody]
  split
  · trivial
  · exact inv_copyBody hs hrd
  · exact inv_carryTail hs hlast

theorem inv_readHead {rd : ℕ} (hs : s.bodyLen = C) (hrd : rd ≤ 128)
    (hlast : idx + rd < 128 → w.bytes[127]? = some 0) : Inv (readHead s w idx rd) := by
  rcases readHead_cases s w idx rd with hret | hcrash | ⟨code, hbody⟩
  · rw [hret]
    exact hs.le
  · rw [hcrash]
    trivial
  · rw [hbody]
    exact inv_findBody hs hrd hlast

/-- The window of an iteration that receives, and the caller's capacity. -/
theorem Receives.inv (h : Receives d s t idx c w) (hinv : Inv s) :
    s.bodyLen = C ∧ ∃ w₀, HeadInv w₀ idx ∧ w₀.store idx c = some w := by
  obtain ⟨w₀, hphase, -, -, -, hw⟩ := h
  rw [Inv, hphase] at hinv
  exact ⟨hinv.1, w₀, hinv.2, hw⟩

/-- **What an iteration can do**: receive in the head loop, receive in the body
loop, end with the peer's close, or return an error. -/
theorem step_cases (hinv : Inv s) (h : step d s t = some u) :
    s.bodyLen = C ∧
      ((∃ idx c w, Receives d s t idx c w ∧ u = readHead s w idx c.length) ∨
        (∃ idx c body, 0 < idx ∧ s.body.store idx c = some body ∧
          u = { s with body := body, phase := .fill (idx + c.length) }) ∨
        (∃ idx ≤ C, u = { s with bodyLen := idx, phase := .returned JNHE_OK }) ∨
        ∃ e, u = s.ret e) := by
  cases hphase : s.phase with
  | head w₀ idx =>
    rw [Inv, hphase] at hinv
    refine ⟨hinv.1, ?_⟩
    rcases step_head_cases hphase h with ⟨c, w, hr, rfl⟩ | ⟨e, -, rfl⟩
    · exact Or.inl ⟨idx, c, w, hr, rfl⟩
    · exact Or.inr (Or.inr (Or.inr ⟨e, rfl⟩))
  | fill idx =>
    rw [Inv, hphase] at hinv
    obtain ⟨hs, hpos, hidx⟩ := hinv
    refine ⟨hs, ?_⟩
    rcases step_fill_cases hphase hs hidx h with
      ⟨c, body, -, -, hstore, rfl⟩ | ⟨-, rfl⟩ | ⟨e, -, rfl⟩
    · exact Or.inr (Or.inl ⟨idx, c, body, hpos, hstore, rfl⟩)
    · exact Or.inr (Or.inr (Or.inl ⟨idx, hidx, rfl⟩))
    · exact Or.inr (Or.inr (Or.inr ⟨e, rfl⟩))
  | returned e =>
    rw [step, hphase] at h
    cases h
  | fault f =>
    rw [step, hphase] at h
    cases h

theorem inv_step (hinv : Inv s) (h : step d s t = some u) : Inv u := by
  obtain ⟨hs, hstep⟩ := step_cases hinv h
  rcases hstep with ⟨idx, c, w, hr, rfl⟩ | ⟨idx, c, body, hpos, hstore, rfl⟩ |
    ⟨idx, hidx, rfl⟩ | ⟨e, rfl⟩
  · obtain ⟨-, w₀, hw₀, hw⟩ := hr.inv hinv
    have hle := Buffer.length_le_of_store hw
    refine inv_readHead hs (by omega) fun hlt => ?_
    rw [Buffer.getElem?_store hw (by omega)]
    exact hw₀.last
  · exact ⟨hs, by omega, Buffer.length_le_of_store hstore⟩
  · exact hidx
  · exact hs.le

/-- **The arrays in every state of a run.** -/
theorem inv_run {body : Buffer C} {tr : List (Jnh C × Tick)}
    (h : Run (step d) (start body) tr s) : Inv s :=
  Run.invariant (I := Inv) (inv_start body) (fun _ _ _ => inv_step) h

end Jnh
