/-
The command that sets the clock.

`fetchAndSetTime` reads the reply of the time server into an array of 127 bytes
and a NUL, and hands what it holds to the shell, behind `date +%s -s @`.

* `Jnh.stored` — the bytes that an iteration puts into the caller's body;
* `Jnh.storedInv_run` — the caller's body holds them, in their order, and zeros
  behind them;
* `Jnh.stored_of_endsOnce` — when they come from the body;
* `Jnh.command_digits_iff` — **the replies that hand nothing but digits to the
  shell**;
* `Jnh.exists_command` — any other text that comes with the head gets there too.
-/
import IflyosSDK.JnhBody
import IflyosSDK.JnhHead
import IflyosSDK.NetworkMonitor

/-! ### Arrays filled from their start -/

/-- The array holds these bytes, and zeros behind them. -/
def Buffer.Holds {n : ℕ} (m : Buffer n) (all : Bytes) : Prop :=
  all.length ≤ n ∧ m.bytes = all ++ List.replicate (n - all.length) 0

section Holds

variable {n : ℕ} {m m' : Buffer n} {all c : Bytes}

theorem holds_zeros : (Buffer.zeros n).Holds [] := ⟨Nat.zero_le n, rfl⟩

theorem holds_store (h : m.Holds all) (hstore : m.store all.length c = some m') :
    m'.Holds (all ++ c) := by
  have hle := Buffer.length_le_of_store hstore
  rw [Buffer.Holds, List.length_append]
  refine ⟨hle, ?_⟩
  rw [Buffer.bytes_of_store hstore, h.2, List.take_left, ← List.drop_drop, List.drop_left,
    List.drop_replicate]
  congr 2
  omega

theorem text_append_nul (a b : Bytes) : text (a ++ 0 :: b) = text a := by
  induction a with
  | nil => exact text_nul b
  | cons x a ih =>
    rw [List.cons_append]
    by_cases hx : x = 0
    · rw [hx, text_nul, text_nul]
    · rw [text_cons hx, text_cons hx, ih]

/-- The string in an array that a NUL follows. -/
theorem text_of_holds (h : m.Holds all) : text (m.bytes ++ [0]) = text all := by
  rw [h.2, List.append_assoc]
  have hzeros : List.replicate (n - all.length) (0 : UInt8) ++ [0] =
      0 :: List.replicate (n - all.length) 0 := by
    rw [← List.replicate_succ', List.replicate_succ]
  rw [hzeros, text_append_nul]

end Holds

/-! ### The bytes that an iteration stores -/

namespace Jnh

variable {C : ℕ} {d : Deadlines} {s u : Jnh C} {t : Tick} {w : Buffer 128} {rd bodyPtr : ℕ}
  {all : Bytes} {tr : List (Jnh C × Tick)}

/-- The bytes behind the blank line that are copied to a body of `C` bytes when
`rd` bytes have been received. -/
def behindHead (C : ℕ) (w : Buffer 128) (rd : ℕ) : Bytes :=
  match strstr lfCrLf w.bytes with
  | .found bodyPtr => (w.bytes.drop (bodyPtr + 3)).take (min C (rd - (bodyPtr + 3)))
  | .absent | .overrun => []

/-- The bytes that an iteration puts into the caller's body. -/
def stored (d : Deadlines) (p : Jnh C × Tick) : Bytes :=
  match d.wait p.2, p.1.phase with
  | .ok (), .head w idx =>
    match w.store idx p.2.chunk with
    | some w => behindHead C w p.2.chunk.length
    | none => []
  | .ok (), .fill _ => p.2.chunk
  | _, _ => []

theorem copyBody_stores (hs : s.bodyLen = C) (hrd : rd ≤ 128) (h : bodyPtr + 3 ≤ rd) :
    s.body.store 0 ((w.bytes.drop (bodyPtr + 3)).take (min C (rd - (bodyPtr + 3)))) =
      some (copyBody s w rd bodyPtr).body := by
  obtain ⟨bs, hload, hbs, hlen⟩ :=
    w.exists_load (show bodyPtr + 3 + min C (rd - (bodyPtr + 3)) ≤ 128 by omega)
  obtain ⟨body, hstore⟩ := s.body.exists_store (show 0 + bs.length ≤ C by omega)
  rw [← hbs, hstore, copyBody]
  by_cases hfull : (s.bodyLen : ℤ) ≤ (rd : ℤ) - (bodyPtr + 3)
  · have hmin : min C (rd - (bodyPtr + 3)) = s.bodyLen := by omega
    rw [if_pos hfull, ← hmin, hload, Option.bind_some, hstore]
  · have hmin : min C (rd - (bodyPtr + 3)) = ((rd : ℤ) - (bodyPtr + 3)).toNat := by omega
    rw [if_neg hfull, if_neg (by omega), ← hmin, hload, Option.bind_some, hstore]
    show _ = some (if _ then _ else _ : Jnh C).body
    split <;> rfl

/-! ### What the caller's body holds -/

/-- With `all` the bytes stored so far. -/
def StoredInv (all : Bytes) (s : Jnh C) : Prop :=
  match s.phase with
  | .head _ _ => s.bodyLen = C ∧ all = [] ∧ s.body.Holds []
  | .fill idx => s.bodyLen = C ∧ idx = all.length ∧ s.body.Holds all
  | .returned e => e = JNHE_OK → s.bodyLen = all.length ∧ s.body.Holds all
  | .fault _ => True

theorem storedInv_ret {e : ℤ} (he : e ≠ JNHE_OK) : StoredInv all (s.ret e) :=
  fun h => absurd h he

theorem storedInv_copyBody (hs : s.bodyLen = C) (hbody : s.body.Holds []) (hrd : rd ≤ 128) :
    StoredInv ((w.bytes.drop (bodyPtr + 3)).take (min C (rd - (bodyPtr + 3))))
      (copyBody s w rd bodyPtr) := by
  by_cases hneg : rd < bodyPtr + 3
  · rw [copyBody_fault hneg]
    trivial
  have hlen : ((w.bytes.drop (bodyPtr + 3)).take (min C (rd - (bodyPtr + 3)))).length =
      min C (rd - (bodyPtr + 3)) := by
    rw [List.length_take, List.length_drop, w.size]
    omega
  have hholds := holds_store hbody (copyBody_stores hs hrd (Nat.le_of_not_lt hneg) (w := w))
  rw [List.nil_append] at hholds
  rcases copyBody_cases bodyPtr hs hrd (w := w) with ⟨hneg', -⟩ |
    ⟨hfull, body, hcopy⟩ | ⟨hempty, -, body, hcopy⟩ | ⟨hpart, hroom, body, hcopy⟩
  · exact absurd hneg' hneg
  · rw [hcopy] at hholds ⊢
    refine fun _ => ⟨?_, hholds⟩
    show s.bodyLen = _
    omega
  · rw [hcopy] at hholds ⊢
    refine fun _ => ⟨?_, hholds⟩
    show 0 = _
    omega
  · rw [hcopy] at hholds ⊢
    refine ⟨hs, ?_, hholds⟩
    omega

theorem storedInv_findBody {idx : ℕ} (hs : s.bodyLen = C) (hbody : s.body.Holds [])
    (hrd : rd ≤ 128) : StoredInv (behindHead C w rd) (findBody s w idx rd) := by
  rcases findBody_cases s w idx rd with
    ⟨f, hcrash⟩ | ⟨habsent, w', n, hcarry⟩ | ⟨bodyPtr, hfind, hcopy⟩
  · rw [hcrash]
    trivial
  · rw [hcarry, behindHead, habsent]
    exact ⟨hs, rfl, hbody⟩
  · rw [hcopy, behindHead, hfind]
    exact storedInv_copyBody hs hbody hrd

theorem storedInv_readHead {idx : ℕ} (hs : s.bodyLen = C) (hbody : s.body.Holds [])
    (hrd : rd ≤ 128) : StoredInv (behindHead C w rd) (readHead s w idx rd) := by
  rcases readHead_cases s w idx rd with hret | hcrash | ⟨code, hfind⟩
  · rw [hret]
    exact storedInv_ret (by decide)
  · rw [hcrash]
    trivial
  · rw [hfind]
    exact storedInv_findBody (s := { s with rspCode := code }) hs hbody hrd

theorem stored_of_receives {idx : ℕ} {c : Bytes} (h : Receives d s t idx c w) :
    stored d (s, t) = behindHead C w c.length := by
  have hchunk := h.chunk_eq
  obtain ⟨w₀, hphase, hwait, -, -, hstore⟩ := h
  simp only [stored, hwait, hphase, hchunk, hstore]

/-- An iteration of the head loop without a recv stores nothing. -/
theorem exists_receives_of_stored {w₀ : Buffer 128} {idx : ℕ} (hphase : s.phase = .head w₀ idx)
    (hne : stored d (s, t) ≠ []) : ∃ c w, Receives d s t idx c w := by
  cases hwait : d.wait t with
  | error e => exact absurd (by simp only [stored, hwait]) hne
  | ok =>
    cases hstore : w₀.store idx t.chunk with
    | none => exact absurd (by simp only [stored, hwait, hphase, hstore]) hne
    | some w =>
      have heq : stored d (s, t) = behindHead C w t.chunk.length := by
        simp only [stored, hwait, hphase, hstore]
      have hchunk : t.chunk ≠ [] := by
        intro hnil
        refine hne (heq.trans ?_)
        rw [hnil, List.length_nil, behindHead]
        split
        · rw [Nat.zero_sub, Nat.min_zero, List.take_zero]
        · rfl
        · rfl
      rw [Tick.chunk] at hchunk hstore
      cases hrecv : t.recv with
      | none =>
        rw [hrecv] at hchunk
        exact absurd rfl hchunk
      | some c =>
        rw [hrecv] at hchunk hstore
        exact ⟨c, w, w₀, hphase, hwait, hrecv, hchunk, hstore⟩

theorem storedInv_step (hinv : StoredInv all s) (h : step d s t = some u) :
    StoredInv (all ++ stored d (s, t)) u := by
  cases hphase : s.phase with
  | head w idx =>
    rw [StoredInv, hphase] at hinv
    obtain ⟨hs, rfl, hbody⟩ := hinv
    rcases step_head_cases hphase h with ⟨c, w', hr, rfl⟩ | ⟨e, he, rfl⟩
    · rw [stored_of_receives hr, List.nil_append]
      obtain ⟨w₀, -, -, -, -, hstore⟩ := hr
      have hle := Buffer.length_le_of_store hstore
      exact storedInv_readHead hs hbody (by omega)
    · exact storedInv_ret he
  | fill idx =>
    rw [StoredInv, hphase] at hinv
    obtain ⟨hs, rfl, hholds⟩ := hinv
    cases hwait : d.wait t with
    | error e =>
      rw [step, hphase] at h
      simp only [hwait, Option.some.injEq] at h
      rw [← h]
      exact storedInv_ret (wait_ne_ok hwait)
    | ok =>
      have hstored : stored d (s, t) = t.chunk := by simp only [stored, hwait, hphase]
      rw [hstored, Tick.chunk]
      rcases step_fill_cases hphase hs hholds.1 h with
        ⟨c, body, hrecv, -, hstore, rfl⟩ | ⟨hrecv, rfl⟩ | ⟨e, he, rfl⟩
      · rw [hrecv, Option.getD_some]
        exact ⟨hs, List.length_append.symm, holds_store hholds hstore⟩
      · rw [hrecv, Option.getD_some, List.append_nil]
        exact fun _ => ⟨rfl, hholds⟩
      · exact storedInv_ret he
  | returned e =>
    rw [step, hphase] at h
    cases h
  | fault f =>
    rw [step, hphase] at h
    cases h

/-- The bytes stored in a run. -/
def storedBytes (d : Deadlines) (tr : List (Jnh C × Tick)) : Bytes := tr.flatMap (stored d)

/-- **What the caller's body holds in every state of a run.** -/
theorem storedInv_run (h : Run (step d) (start (.zeros C)) tr s) :
    StoredInv (storedBytes d tr) s := by
  have hstart : StoredInv [] (start (.zeros C)) := ⟨rfl, rfl, holds_zeros⟩
  refine h.history (I := fun tr s => StoredInv (storedBytes d tr) s) hstart ?_
  intro tr s t u hinv hu
  show StoredInv (storedBytes d (tr ++ [(s, t)])) u
  rw [storedBytes, List.flatMap_append, List.flatMap_singleton]
  exact storedInv_step hinv hu

/-! ### The bytes behind the head -/

variable {r : Reply} {c : Bytes} {i idx : ℕ}

/-- No carried byte starts a blank line, except one that ends where the head
does. -/
def EndsOnce (d : Deadlines) (r : Reply) (tr : List (Jnh C × Tick)) : Prop :=
  ∀ tr₁ p tr₂, tr = tr₁ ++ p :: tr₂ → ∀ idx c w, Receives d p.1 p.2 idx c w →
    ∀ i < idx, OccursAt lfCrLf w.bytes i →
      idx ≤ i + 3 ∧ (received tr₁).length + (i + 3 - idx) = r.head.length

theorem endsOnce_nil : EndsOnce d r ([] : List (Jnh C × Tick)) := by
  intro tr₁ p tr₂ htr
  simp at htr

theorem EndsOnce.snoc {p : Jnh C × Tick} (h : EndsOnce d r tr)
    (hp : ∀ idx c w, Receives d p.1 p.2 idx c w → ∀ i < idx, OccursAt lfCrLf w.bytes i →
      idx ≤ i + 3 ∧ (received tr).length + (i + 3 - idx) = r.head.length) :
    EndsOnce d r (tr ++ [p]) := by
  intro tr₁ q tr₂ htr
  rcases List.eq_nil_or_concat tr₂ with rfl | ⟨tr₂, q', rfl⟩
  · obtain ⟨rfl, hq⟩ := List.append_inj' htr rfl
    rw [← List.singleton_inj.mp hq]
    exact hp
  · rw [List.concat_eq_append, ← List.cons_append, ← List.append_assoc] at htr
    exact h tr₁ q tr₂ (List.append_inj_left' htr rfl)

theorem EndsOnce.of_snoc {p : Jnh C × Tick} (h : EndsOnce d r (tr ++ [p])) :
    EndsOnce d r tr ∧ ∀ idx c w, Receives d p.1 p.2 idx c w →
      ∀ i < idx, OccursAt lfCrLf w.bytes i →
        idx ≤ i + 3 ∧ (received tr).length + (i + 3 - idx) = r.head.length :=
  ⟨fun tr₁ q tr₂ htr => h tr₁ q (tr₂ ++ [p]) (by simp [htr]), h tr p [] rfl⟩

theorem mem_body_of_getElem? {b : UInt8} {k : ℕ} (hk : r.head.length ≤ k)
    (h : r.bytes[k]? = some b) : b ∈ r.body := by
  rw [Reply.bytes, List.getElem?_append_right hk] at h
  exact List.mem_of_getElem? h

/-- A body without LF has no blank line. -/
theorem occursAt_bytes (hlf : 10 ∉ r.body) (h : OccursAt lfCrLf r.bytes i) :
    i + 3 = r.head.length := by
  have hle := r.three_le_length_head
  rcases lt_trichotomy i (r.head.length - 3) with hlt | heq | hgt
  · exact absurd h ((r.firstAt_head r.body).2 i hlt)
  · omega
  · have hlast := getElem?_of_occursAt h (j := 2) (by decide)
    exact absurd (mem_body_of_getElem? (by omega) hlast) hlf

/-- The bytes of a recv in the stream. -/
theorem getElem?_bytes {d : Bytes} {k : ℕ} (hpre : all ++ d <+: r.bytes) (hk : k < d.length) :
    r.bytes[all.length + k]? = d[k]? := by
  obtain ⟨z, hz⟩ := hpre
  rw [← hz, List.append_assoc, List.getElem?_append_right (Nat.le_add_right _ _),
    Nat.add_sub_cancel_left, List.getElem?_append_left hk]

/-- A blank line that is found ends the head. -/
theorem ends_head (hinv : Inv s) (hr : Receives d s t idx c w) (hpre : all ++ c <+: r.bytes)
    (hlf : 10 ∉ r.body)
    (hcarried : ∀ i < idx, OccursAt lfCrLf w.bytes i →
      idx ≤ i + 3 ∧ all.length + (i + 3 - idx) = r.head.length)
    (hi : i + 3 ≤ c.length) (h : OccursAt lfCrLf w.bytes i) :
    idx ≤ i + 3 ∧ all.length + (i + 3 - idx) = r.head.length := by
  rcases lt_or_ge i idx with hlt | hge
  · exact hcarried i hlt h
  · obtain ⟨carried, stale, hw, hlen, -⟩ := bytes_of_receives hinv hr
    obtain ⟨k, rfl⟩ := Nat.exists_eq_add_of_le hge
    obtain ⟨z, hz⟩ := hpre
    have hk : k + lfCrLf.length ≤ c.length := by
      rw [length_lfCrLf]
      omega
    rw [hw, List.append_assoc, ← hlen, occursAt_append_right, occursAt_append hk] at h
    have hin : OccursAt lfCrLf r.bytes (all.length + k) := by
      rw [← hz, List.append_assoc, occursAt_append_right, occursAt_append hk]
      exact h
    have hend := occursAt_bytes hlf hin
    omega

/-- What an iteration of the head loop stores stands behind a blank line. -/
theorem exists_of_mem_stored {w₀ : Buffer 128} {b : UInt8} (hs : s.phase = .head w₀ idx)
    (hb : b ∈ stored d (s, t)) :
    ∃ c w i j, Receives d s t idx c w ∧ OccursAt lfCrLf w.bytes i ∧ i + 3 ≤ j ∧ j < c.length ∧
      w.bytes[j]? = some b := by
  obtain ⟨c, w, hr⟩ := exists_receives_of_stored hs (List.ne_nil_of_mem hb)
  rw [stored_of_receives hr, behindHead] at hb
  cases hfind : strstr lfCrLf w.bytes with
  | absent | overrun => simp [hfind] at hb
  | found i =>
    simp only [hfind] at hb
    obtain ⟨k, hget⟩ := List.mem_iff_getElem?.mp hb
    have hk := (List.getElem?_eq_some_iff.mp hget).1
    rw [List.length_take] at hk
    rw [List.getElem?_take_of_lt (by omega), List.getElem?_drop] at hget
    have hocc := ((strstr_eq_found_iff lfCrLf_ne_nil nul_not_mem_lfCrLf).mp hfind).1
    exact ⟨c, w, i, i + 3 + k, hr, hocc.trans ((text_prefix_self _).drop i), by omega, by omega,
      hget⟩

/-- The head loop is left for the body loop behind a blank line. -/
theorem exists_of_fill {rd n : ℕ} (h : (readHead s w idx rd).phase = .fill n) :
    ∃ i, OccursAt lfCrLf w.bytes i ∧ i + 3 ≤ rd := by
  rcases readHead_cases s w idx rd with hret | hcrash | ⟨code, hfind⟩
  · rw [hret] at h
    cases h
  · rw [hcrash] at h
    cases h
  · rw [hfind] at h
    rcases findBody_cases { s with rspCode := code } w idx rd with
      ⟨f, hcrash⟩ | ⟨-, w', n', hcarry⟩ | ⟨i, hstr, hcopy⟩
    · rw [hcrash] at h
      cases h
    · rw [hcarry] at h
      cases h
    · have hocc := ((strstr_eq_found_iff lfCrLf_ne_nil nul_not_mem_lfCrLf).mp hstr).1
      refine ⟨i, hocc.trans ((text_prefix_self _).drop i), ?_⟩
      by_contra hlt
      rw [hcopy, copyBody_fault (Nat.lt_of_not_le hlt)] at h
      cases h

section Behind

variable {b : UInt8} {u : Jnh C} (hrecv : ∀ c, t.recv = some c → all ++ c <+: r.bytes)

include hrecv

/-- What the body loop stores comes from the body. -/
theorem mem_body_of_stored_fill {m : ℕ} (hphase : s.phase = .fill m)
    (hle : r.head.length ≤ all.length) (hb : b ∈ stored d (s, t)) : b ∈ r.body := by
  rw [stored, hphase] at hb
  cases hwait : d.wait t with
  | error e => simp [hwait] at hb
  | ok =>
    simp only [hwait] at hb
    cases hc : t.recv with
    | none =>
      rw [Tick.chunk, hc] at hb
      cases hb
    | some c =>
      rw [Tick.chunk, hc, Option.getD_some] at hb
      obtain ⟨k, hget⟩ := List.mem_iff_getElem?.mp hb
      have hk := (List.getElem?_eq_some_iff.mp hget).1
      rw [← getElem?_bytes (hrecv c hc) hk] at hget
      exact mem_body_of_getElem? (by omega) hget

variable {w₀ : Buffer 128} (hinv : Inv s) (hphase : s.phase = .head w₀ idx) (hlf : 10 ∉ r.body)
  (hcarried : ∀ idx c w, Receives d s t idx c w → ∀ i < idx, OccursAt lfCrLf w.bytes i →
    idx ≤ i + 3 ∧ all.length + (i + 3 - idx) = r.head.length)

include hinv hphase hlf hcarried

/-- What the head loop stores comes from the body. -/
theorem mem_body_of_stored_head (hb : b ∈ stored d (s, t)) : b ∈ r.body := by
  obtain ⟨c, w, i, j, hr, hocc, hij, hj, hget⟩ := exists_of_mem_stored hphase hb
  obtain ⟨-, -, -, hc, -⟩ := id hr
  have hpre := hrecv c hc
  obtain ⟨hidx, hend⟩ := ends_head hinv hr hpre hlf (hcarried idx c w hr) (by omega) hocc
  obtain ⟨carried, stale, hw, hlen, -⟩ := bytes_of_receives hinv hr
  have hk : j - idx < c.length := by omega
  rw [hw, List.append_assoc, List.getElem?_append_right (by omega), hlen,
    List.getElem?_append_left hk, ← getElem?_bytes hpre hk] at hget
  exact mem_body_of_getElem? (by omega) hget

/-- The head loop is left for the body loop when the head has come. -/
theorem length_head_le_of_fill {n : ℕ} (hu : step d s t = some u) (hn : u.phase = .fill n) :
    r.head.length ≤ all.length + t.chunk.length := by
  rcases step_head_cases hphase hu with ⟨c, w, hr, rfl⟩ | ⟨e, -, rfl⟩
  · obtain ⟨i, hocc, hi⟩ := exists_of_fill hn
    obtain ⟨-, -, -, hc, -⟩ := id hr
    obtain ⟨hidx, hend⟩ := ends_head hinv hr (hrecv c hc) hlf (hcarried idx c w hr) hi hocc
    rw [hr.chunk_eq]
    omega
  · cases hn

end Behind

/-- **What is stored comes from the body**, when its bytes are digits and NULs
and no carried byte starts a blank line of its own. -/
theorem stored_of_endsOnce (hbody : ∀ b ∈ r.body, isDigit b ∨ b = 0)
    (h : Run (step d) (start (.zeros C)) tr s) (hpeer : FromPeer r.bytes tr)
    (hends : EndsOnce d r tr) :
    (∀ b ∈ storedBytes d tr, b ∈ r.body) ∧
      ∀ n, s.phase = .fill n → r.head.length ≤ (received tr).length := by
  have hlf : 10 ∉ r.body := fun hmem => absurd (hbody 10 hmem) (by decide)
  induction h with
  | nil =>
    refine ⟨fun b hb => absurd hb List.not_mem_nil, fun n hn => ?_⟩
    cases hn
  | @snoc tr s t u hrun hu ih =>
    obtain ⟨hpeer, hrecv⟩ := hpeer.of_snoc
    obtain ⟨hends, hcarried⟩ := hends.of_snoc
    obtain ⟨hstored, hfill⟩ := ih hpeer hends
    have hinv := inv_run hrun
    have hsnoc : storedBytes d (tr ++ [(s, t)]) = storedBytes d tr ++ stored d (s, t) := by
      rw [storedBytes, List.flatMap_append, List.flatMap_singleton]
      rfl
    rw [hsnoc, received_snoc, List.length_append]
    have hpre := fun c hc => (hrecv c hc).1
    cases hphase : s.phase with
    | head w₀ idx =>
      refine ⟨fun b hb => ?_, fun n => length_head_le_of_fill hpre hinv hphase hlf hcarried hu⟩
      exact (List.mem_append.mp hb).elim (hstored b)
        (mem_body_of_stored_head hpre hinv hphase hlf hcarried)
    | fill m =>
      have hle := hfill m hphase
      refine ⟨fun b hb => ?_, fun n _ => by omega⟩
      exact (List.mem_append.mp hb).elim (hstored b) (mem_body_of_stored_fill hpre hphase hle)
    | returned e =>
      rw [step, hphase] at hu
      cases hu
    | fault f =>
      rw [step, hphase] at hu
      cases hu

/-! ### The command -/

/-- `"date +%s -s @"` -/
def setDate : CString := CString.ofString "date +%s -s @"

/-- The command that `fetchAndSetTime` hands to `std::system`, if it gets that
far; the array has a NUL behind the bytes that `jnh_get` may use. -/
def command (s : Jnh 127) : Option Bytes :=
  match s.phase with
  | .returned ret =>
    if ret ≠ JNHE_OK then none
    else if s.rspCode ≠ 200 then none
    else some (setDate.bytes ++ text (s.body.bytes ++ [0]))
  | .head _ _ | .fill _ | .fault _ => none

/-- The prefix with nothing but digits behind it. -/
def DigitsOnly (cmd : Bytes) : Prop := ∃ ds, (∀ b ∈ ds, isDigit b) ∧ cmd = setDate.bytes ++ ds

theorem digitsOnly_append_iff {b : Bytes} :
    DigitsOnly (setDate.bytes ++ b) ↔ ∀ x ∈ b, isDigit x := by
  constructor
  · rintro ⟨ds, hds, heq⟩
    rw [List.append_cancel_left heq]
    exact hds
  · exact fun h => ⟨b, h, rfl⟩

theorem phase_of_command {s : Jnh 127} {cmd : Bytes} (h : command s = some cmd) :
    s.phase = .returned JNHE_OK ∧ cmd = setDate.bytes ++ text (s.body.bytes ++ [0]) := by
  rw [command] at h
  split at h
  · rename_i ret hphase
    split_ifs at h with hret hcode
    rw [hphase, not_not.mp hret]
    exact ⟨rfl, (Option.some.inj h).symm⟩
  all_goals cases h

/-- The attempt of the network monitor succeeds when the command does. -/
theorem fetchAndSetTime_iff {s : Jnh 127} {ret date : ℤ} (hphase : s.phase = .returned ret) :
    NetworkMonitor.fetchAndSetTime ⟨ret, s.rspCode⟩ date = true ↔
      (command s).isSome ∧ date = 0 := by
  rw [NetworkMonitor.fetchAndSetTime, command, hphase]
  by_cases hret : ret = JNHE_OK
  · by_cases hcode : s.rspCode = 200
    · simp [hret, hcode]
    · simp [hret, hcode]
  · simp [hret]

/-- When the first recv brings the head, the command is made of the body that was
sent, or of nothing when the recv brings no more. -/
theorem command_of_reply {r : Reply} {c₀ : Bytes} {t₀ : Tick} {tr : List (Jnh 127 × Tick)}
    {s : Jnh 127} {cmd : Bytes} (hrecv : t₀.recv = some c₀) (hhead : r.head <+: c₀)
    (h : Run (step d) (start (.zeros 127)) ((start (.zeros 127), t₀) :: tr) s)
    (hpeer : FromPeer r.bytes ((start (.zeros 127), t₀) :: tr)) (hcmd : command s = some cmd) :
    cmd = setDate.bytes ++ if c₀ = r.head then [] else text (r.body.take 127) := by
  obtain ⟨hphase, rfl⟩ := phase_of_command hcmd
  have hinv := bodyInv_run hrecv hhead h hpeer
  have hstored := storedInv_run h
  rw [BodyInv, hphase] at hinv
  rw [StoredInv, hphase] at hstored
  obtain ⟨hlen, hholds⟩ := hstored rfl
  rcases hinv rfl with ⟨hlt, hmin, htake⟩ | ⟨hhead', hzero⟩
  · have hne : c₀ ≠ r.head := by
      rintro rfl
      exact absurd hlt (lt_irrefl _)
    rw [hlen, hholds.2, List.take_left] at htake
    rw [if_neg hne, text_of_holds hholds, htake, ← hlen, hmin, ← List.take_take,
      List.take_length]
  · have hnil := List.eq_nil_of_length_eq_zero (hlen.symm.trans hzero)
    rw [if_pos hhead', text_of_holds hholds, hnil]
    rfl

/-- **The replies that hand nothing but digits to the shell.**  When the first
recv brings the head, they are those whose body has digits only, up to a NUL or
to its 127th byte, and those whose body is lost because the recv brings no more.
In any other split it is enough that the body is made of digits and NULs and
that no carried byte starts a blank line of its own. -/
theorem command_digits_iff {r : Reply} {tr : List (Jnh 127 × Tick)} {s : Jnh 127} {cmd : Bytes}
    (h : Run (step d) (start (.zeros 127)) tr s) (hpeer : FromPeer r.bytes tr)
    (hcmd : command s = some cmd) :
    (∀ (c₀ : Bytes) (t₀ : Tick) (tr₁ : List (Jnh 127 × Tick)),
        tr = (start (.zeros 127), t₀) :: tr₁ → t₀.recv = some c₀ → r.head <+: c₀ →
        (DigitsOnly cmd ↔ c₀ = r.head ∨ ∀ b ∈ text (r.body.take 127), isDigit b)) ∧
      ((∀ b ∈ r.body, isDigit b ∨ b = 0) → EndsOnce d r tr → DigitsOnly cmd) := by
  constructor
  · rintro c₀ t₀ tr₁ rfl hrecv hhead
    rw [command_of_reply hrecv hhead h hpeer hcmd, digitsOnly_append_iff]
    split
    · rename_i heq
      exact iff_of_true (fun b hb => absurd hb List.not_mem_nil) (Or.inl heq)
    · rename_i hne
      exact (or_iff_right hne).symm
  · intro hbody hends
    obtain ⟨hphase, rfl⟩ := phase_of_command hcmd
    have hinv := storedInv_run h
    rw [StoredInv, hphase] at hinv
    rw [text_of_holds (hinv rfl).2, digitsOnly_append_iff]
    intro b hb
    have hne : b ≠ 0 := fun h0 => nul_not_mem_text _ (h0 ▸ hb)
    have hmem := (text_prefix_self _).subset hb
    exact (hbody b ((stored_of_endsOnce hbody h hpeer hends).1 b hmem)).resolve_right hne

/-- **Whatever text the server sends is handed to the shell**, as long as it
comes with the head. -/
theorem exists_command {b : Bytes} (hne : b ≠ []) (hlen : b.length ≤ 109) :
    ∃ tr s, Run (step .fetchTime) (start (.zeros 127)) tr s ∧
      FromPeer (Reply.timeNow b).bytes tr ∧ command s = some (setDate.bytes ++ text b) := by
  have hpos := List.length_pos_iff.mpr hne
  have hhead : (Reply.timeNow b).head.length = 19 := rfl
  have hall : (Reply.timeNow b).bytes.length = 19 + b.length := List.length_append
  have hnil : (Reply.timeNow b).bytes ≠ [] := List.cons_ne_nil _ _
  -- the first recv brings the reply, the second one the end of the connection
  obtain ⟨w, hw⟩ := (Buffer.zeros 128).exists_store
    (show 0 + (Reply.timeNow b).bytes.length ≤ 128 by omega)
  have hr : Receives .fetchTime (start (.zeros 127)) (.received (Reply.timeNow b).bytes) 0
      (Reply.timeNow b).bytes w := ⟨_, rfl, rfl, rfl, hnil, hw⟩
  have hpre : (Reply.timeNow b).head <+: w.bytes := by
    rw [Buffer.bytes_of_store hw, List.take_zero, List.nil_append, Reply.bytes, List.append_assoc]
    exact List.prefix_append _ _
  obtain ⟨body, hcopy, -⟩ := copyBody_part
    (s := { start (.zeros 127) with rspCode := (Reply.timeNow b).status }) (w := w)
    rfl (show (Reply.timeNow b).bytes.length ≤ 128 by omega)
    (show 16 + 3 < (Reply.timeNow b).bytes.length by omega) (by omega)
  have hfirst := step_of_receives hr
  rw [Reply.readHead_of_head hpre rfl, hhead, hcopy, hall, Nat.add_sub_cancel_left] at hfirst
  have hoffer : ¬ (127 < b.length ∨ 127 < 127) := by omega
  have hlast : step .fetchTime (⟨.fill b.length, 200, body, 127⟩ : Jnh 127) (.received []) =
      some ⟨.returned JNHE_OK, 200, body, b.length⟩ := if_neg hoffer
  have hrun := (Run.nil.snoc hfirst).snoc hlast
  have hcmd : command (⟨.returned JNHE_OK, 200, body, b.length⟩ : Jnh 127) =
      some (setDate.bytes ++ text (body.bytes ++ [0])) := rfl
  refine ⟨_, _, hrun, fromPeer_closed hnil, ?_⟩
  have hmore : (Reply.timeNow b).head ++ b ≠ (Reply.timeNow b).head :=
    fun heq => hne (List.append_right_eq_self.mp heq)
  rw [hcmd, command_of_reply rfl (List.prefix_append _ b) hrun (fromPeer_closed hnil) hcmd,
    if_neg hmore, List.take_of_length_le]
  · rfl
  · show b.length ≤ 127
    omega

/-- The reply "12" in three recvs, with a CR that is carried; the "2" is lost. -/
theorem command_digits_of_three_recvs :
    ∃ tr s cmd, Run (step .fetchTime) (start (.zeros 127)) tr s ∧ tr.length = 4 ∧
      command s = some cmd ∧ DigitsOnly cmd := by
  have hexec : ((step .fetchTime (start (.zeros 127)) (.received servedFirst)).bind fun s₁ =>
      (step .fetchTime s₁ (.received servedSecond)).bind fun s₂ =>
        (step .fetchTime s₂ (.received servedLast)).bind fun s₃ =>
          (step .fetchTime s₃ (.received [])).map fun s =>
            (s₁.phase, s₂.phase, s₃.phase, command s)) =
      some (.head windowOfFirst 0, .head windowOfSecond 1, .fill 1,
        some (setDate.bytes ++ [49])) := by decide +kernel
  obtain ⟨s₁, h₁, hexec⟩ := Option.bind_eq_some_iff.mp hexec
  obtain ⟨s₂, h₂, hexec⟩ := Option.bind_eq_some_iff.mp hexec
  obtain ⟨s₃, h₃, hexec⟩ := Option.bind_eq_some_iff.mp hexec
  obtain ⟨s, h, heq⟩ := Option.map_eq_some_iff.mp hexec
  simp only [Prod.mk.injEq] at heq
  obtain ⟨hphase₁, hphase₂, hphase₃, hcmd⟩ := heq
  have hrun := (((Run.snoc Run.nil h₁).snoc h₂).snoc h₃).snoc h
  have hbody : ∀ b ∈ served.body, isDigit b ∨ b = 0 := by
    rintro b (_ | ⟨_, _ | ⟨_, ⟨⟩⟩⟩)
    · exact Or.inl (by decide)
    · exact Or.inl (by decide)
  refine ⟨_, s, _, hrun, rfl, hcmd,
    (command_digits_iff (r := served) hrun ((((fromPeer_nil.snoc ?_).snoc ?_).snoc ?_).snoc ?_)
      hcmd).2 hbody ((((endsOnce_nil.snoc ?_).snoc ?_).snoc ?_).snoc ?_)⟩
  -- the peer sends the reply and closes
  · intro c hc
    obtain rfl := Option.some.inj hc
    exact ⟨show servedFirst <+: _ by decide, fun hnil => absurd hnil (by decide)⟩
  · intro c hc
    obtain rfl := Option.some.inj hc
    exact ⟨show servedFirst ++ servedSecond <+: _ by decide, fun hnil => absurd hnil (by decide)⟩
  · intro c hc
    obtain rfl := Option.some.inj hc
    exact ⟨show servedFirst ++ (servedSecond ++ []) ++ servedLast <+: _ by decide,
      fun hnil => absurd hnil (by decide)⟩
  · intro c hc
    obtain rfl := Option.some.inj hc
    exact ⟨show servedFirst ++ (servedSecond ++ (servedLast ++ [])) ++ [] <+: _ by decide,
      fun _ => Or.inr (show servedFirst ++ (servedSecond ++ (servedLast ++ [])) = _ by decide)⟩
  -- and only the third recv comes behind a carried byte
  · intro idx c w hr i hi
    obtain ⟨rfl, -⟩ := window_of_receives rfl hr
    exact absurd hi (Nat.not_lt_zero i)
  · intro idx c w hr i hi
    obtain ⟨rfl, -⟩ := window_of_receives hphase₁ hr
    exact absurd hi (Nat.not_lt_zero i)
  · intro idx c w hr i hi hocc
    obtain ⟨rfl, -, hw⟩ := window_of_receives hphase₂ hr
    obtain rfl : i = 0 := by omega
    rw [hw] at hocc
    exact absurd hocc (by decide +kernel)
  · rintro idx c w ⟨w₀, hw₀, -⟩
    rw [hphase₃] at hw₀
    cases hw₀

/-- "0;reboot" -/
def reboot : Bytes := [48, 59, 114, 101, 98, 111, 111, 116]

/-- **A reply can hold a command of its own.** -/
theorem reply_injects_command :
    ∃ tr s cmd, Run (step .fetchTime) (start (.zeros 127)) tr s ∧
      FromPeer (Reply.timeNow reboot).bytes tr ∧ command s = some cmd ∧
      cmd = setDate.bytes ++ reboot ∧ ¬ DigitsOnly cmd := by
  obtain ⟨tr, s, hrun, hpeer, hcmd⟩ := exists_command (b := reboot) (by decide) (by decide)
  refine ⟨tr, s, _, hrun, hpeer, hcmd, rfl, ?_⟩
  rw [digitsOnly_append_iff]
  intro hdigits
  have hsemicolon : isDigit 59 = true := hdigits 59 (List.mem_cons_of_mem _ List.mem_cons_self)
  cases hsemicolon

/-- A header does, too: the second recv stops where the first one has left an LF,
which makes a blank line with the end of a header line. -/
example :
    (Run.exec (step .fetchTime) (start (.zeros 127))
      [.received ((Reply.timeNow []).firstLine ++ [88]), .received (List.replicate 16 88),
        .received ([13, 10] ++ reboot ++ [13, 10, 13, 10, 49]), .received []]).bind
          (fun r => command r.2) = some (setDate.bytes ++ reboot ++ [13, 10, 13, 10]) := by
  decide +kernel

end Jnh
