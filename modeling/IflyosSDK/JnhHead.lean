/-
The head of a reply, however TCP splits it.

A `Delivery` is a reply cut into recvs up to the one that brings the last byte
of its head.  The reader keeps only the trailing CR and LF bytes of a recv, and
looks for them one byte too far, behind the bytes received.

* `not_occursAt_of_fresh` — no blank line stands inside the recvs that come
  before the end of the head;
* `found_iff` — where the completing recv has its blank line found;
* `Delivery.exists_run` — the recvs that keep the loop going;
* `head_read_iff` — **the deliveries whose head is read as it was sent**.
-/
import IflyosSDK.JnhSteps
import IflyosSDK.HttpReply

namespace Jnh

variable {C : ℕ} {d : Deadlines} {r : Reply} {body : Buffer C} {s u : Jnh C} {t : Tick}
  {tr : List (Jnh C × Tick)} {idx m : ℕ} {c all carried stale : Bytes} {w : Buffer 128}

/-! ### Deliveries -/

/-- The bytes that the iterations receive. -/
def delivered (ts : List Tick) : Bytes := ts.flatMap Tick.chunk

theorem delivered_append (ts ts' : List Tick) :
    delivered (ts ++ ts') = delivered ts ++ delivered ts' := List.flatMap_append

/-- The iterations that deliver the reply `r` up to the end of its head: `pre`,
and `last`, which brings the head's last byte. -/
structure Delivery (d : Deadlines) (body : Buffer C) (r : Reply) where
  pre : List Tick
  last : Tick
  /-- There is no timeout and the socket is ready. -/
  waits : ∀ t ∈ pre ++ [last], d.wait t = .ok ()
  receives : ∀ t ∈ pre ++ [last], ∃ c, t.recv = some c ∧ c ≠ []
  /-- In the head loop `recv` returns at most the space it is offered. -/
  fits : ∀ q t, q ++ [t] <+: pre ++ [last] →
    ∀ tr s, Run (step d) (start body) tr s → tr.map Prod.snd = q →
      ∀ w idx, s.phase = .head w idx → idx + t.chunk.length ≤ 128
  stream : delivered (pre ++ [last]) <+: r.bytes
  before : (delivered pre).length < r.head.length
  completes : r.head.length ≤ (delivered (pre ++ [last])).length
  /-- The status line is not in two recvs. -/
  firstLine : ∀ t ∈ (pre ++ [last]).head?, r.firstLine <+: t.chunk

/-- The bytes of the head that are left for the last recv. -/
def Delivery.rest (D : Delivery d body r) : ℕ := r.head.length - (delivered D.pre).length

/-- The call is behind the head loop: in the body loop, or it has returned the
body. -/
def AtBody (s : Jnh C) : Prop := (∃ n, s.phase = .fill n) ∨ s.phase = .returned JNHE_OK

instance (s : Jnh C) : Decidable (AtBody s) :=
  match h : s.phase with
  | .head _ _ => isFalse (by simp [AtBody, h])
  | .fill n => isTrue (Or.inl ⟨n, h⟩)
  | .returned e => decidable_of_iff (e = JNHE_OK) (by simp [AtBody, h])
  | .fault _ => isFalse (by simp [AtBody, h])

/-- The head loop is still running when the last recv comes and is left behind
it, with the first byte of the body in its place and the status code read. -/
def Delivery.HeadRead (D : Delivery d body r) : Prop :=
  ∃ tr s, Run (step d) (start body) tr s ∧ tr.map Prod.snd = D.pre ∧
    ∃ idx c w bodyPtr, Receives d s D.last idx c w ∧
      strstr lfCrLf w.bytes = .found bodyPtr ∧ bodyPtr + 3 = idx + D.rest ∧
      ∃ u, step d s D.last = some u ∧ AtBody u ∧ u.rspCode = r.status

/-! ### The condition on the recvs -/

/-- A recv of `c` at `idx` in front of the one that completes the head keeps the
loop going; `w` is the window with it. -/
structure Passes (idx : ℕ) (c : Bytes) (w : Buffer 128) : Prop where
  /-- It does not fill the window. -/
  room : idx + c.length < 128
  /-- It makes no LF CR LF with bytes that it has not brought. -/
  fresh : ∀ i, OccursAt lfCrLf (text w.bytes) i → idx ≤ i ∧ i + 3 ≤ idx + c.length
  /-- The CR and LF bytes that end one behind it can be carried. -/
  tail : (tailRun w.bytes (idx + c.length)).length ≤ min 4 (idx + c.length)

/-- The recv of `c` at `idx`, whose first `m` bytes complete the head, has the
end of the head found. -/
structure Completes (idx : ℕ) (c : Bytes) (w : Buffer 128) (m : ℕ) : Prop where
  /-- LF CR LF stands in front of the first byte of the body. -/
  inWindow : 3 ≤ idx + m ∧ OccursAt lfCrLf w.bytes (idx + m - 3)
  /-- And not before that, from a carried byte on. -/
  first : ∀ i < idx, OccursAt lfCrLf w.bytes i → idx + m ≤ i + 3
  /-- The recv is at least as long as all that stands before the body. -/
  length : idx + m ≤ c.length

/-- Every recv before the last one keeps the loop going, and the last one has
the end of the head found. -/
def Delivery.Meets (D : Delivery d body r) : Prop :=
  (∀ tr s, Run (step d) (start body) tr s → tr.map Prod.snd <+: D.pre →
    ∀ p ∈ tr, ∀ idx c w, Receives d p.1 p.2 idx c w → Passes idx c w) ∧
  ∀ tr s, Run (step d) (start body) tr s → tr.map Prod.snd = D.pre →
    ∀ idx c w, Receives d s D.last idx c w → Completes idx c w D.rest

/-! ### One window -/

/-- The head holds LF CR LF at its end only. -/
theorem length_head_le_of_occursAt {i : ℕ} (h : OccursAt lfCrLf r.head i) :
    r.head.length ≤ i + 3 := by
  by_contra hlt
  have hfirst := (r.firstAt_head []).2 i (by omega)
  rw [List.append_nil] at hfirst
  exact hfirst h

theorem length_lfCrLf : lfCrLf.length = 3 := rfl

/-- LF CR LF inside the fresh bytes of a window, up to some byte of the head,
ends the head. -/
theorem length_head_le_of_fresh {rest : Bytes} {j : ℕ} (hhead : all ++ c <+: r.head)
    (hj : carried.length ≤ j) (hend : j + 3 ≤ carried.length + c.length)
    (h : OccursAt lfCrLf (carried ++ c ++ rest) j) :
    r.head.length + carried.length ≤ all.length + j + 3 := by
  obtain ⟨k, rfl⟩ := Nat.exists_eq_add_of_le hj
  have hk : k + lfCrLf.length ≤ c.length := by
    rw [length_lfCrLf]
    omega
  rw [List.append_assoc, occursAt_append_right, occursAt_append hk] at h
  obtain ⟨z, hz⟩ := hhead
  have hin : OccursAt lfCrLf r.head (all.length + k) := by
    rw [← hz, List.append_assoc, occursAt_append_right, occursAt_append hk]
    exact h
  have hle := length_head_le_of_occursAt hin
  omega

theorem nul_not_mem_of_head (hhead : all ++ c <+: r.head) : 0 ∉ c := by
  intro hmem
  exact r.nul_not_mem_head (hhead.subset (List.mem_append_right all hmem))

/-- Before the end of the head, only bytes that the recv has not brought can
make a blank line. -/
theorem not_occursAt_of_fresh (hw : w.bytes = carried ++ c ++ stale) (h0 : 0 ∉ carried)
    (hhead : all ++ c <+: r.head) (hlt : (all ++ c).length < r.head.length)
    (hfresh : ∀ i, OccursAt lfCrLf (text w.bytes) i →
      carried.length ≤ i ∧ i + 3 ≤ carried.length + c.length) (i : ℕ) :
    ¬ OccursAt lfCrLf (text w.bytes) i := by
  intro hi
  obtain ⟨hle, hend⟩ := hfresh i hi
  have hfront : 0 ∉ carried ++ c := by
    rw [List.mem_append, not_or]
    exact ⟨h0, nul_not_mem_of_head hhead⟩
  rw [hw, text_append _ hfront] at hi
  have hhere := length_head_le_of_fresh hhead hle hend hi
  rw [List.length_append] at hlt
  omega

/-- **The search of the completing recv stops at the end of the head** when LF
CR LF stands there and nothing carried makes one before. -/
theorem found_iff (hw : w.bytes = carried ++ c ++ stale) (h0 : 0 ∉ carried)
    (hstream : all ++ c <+: r.bytes) (hm : all.length + m = r.head.length)
    (hlen : m ≤ c.length) :
    (∃ i, strstr lfCrLf w.bytes = .found i ∧ i + 3 = carried.length + m) ↔
      (3 ≤ carried.length + m ∧ OccursAt lfCrLf w.bytes (carried.length + m - 3)) ∧
        ∀ i < carried.length, OccursAt lfCrLf w.bytes i → carried.length + m ≤ i + 3 := by
  -- the bytes up to the end of the head, and those behind it
  set x := c.take m with hx
  have hxlen : x.length = m := by
    rw [hx, List.length_take]
    omega
  have hhead : all ++ x <+: r.head := by
    have hpre : all ++ x <+: r.bytes :=
      ((List.prefix_append_right_inj all).mpr (List.take_prefix m c)).trans hstream
    refine List.prefix_of_prefix_length_le hpre (List.prefix_append _ r.body) ?_
    rw [List.length_append]
    omega
  have hfront : 0 ∉ carried ++ x := by
    rw [List.mem_append, not_or]
    exact ⟨h0, nul_not_mem_of_head hhead⟩
  have hbytes : w.bytes = carried ++ x ++ (c.drop m ++ stale) := by
    rw [hw, hx, List.append_assoc carried, List.append_assoc, ← List.append_assoc (c.take m),
      List.take_append_drop]
  -- up to the end of the head the window and its text are the same
  have htext : ∀ i, i + 3 ≤ carried.length + m →
      (OccursAt lfCrLf (text w.bytes) i ↔ OccursAt lfCrLf w.bytes i) := by
    intro i hi
    have hi' : i + lfCrLf.length ≤ (carried ++ x).length := by
      rw [length_lfCrLf, List.length_append]
      omega
    rw [hbytes, text_append _ hfront]
    exact (occursAt_append hi').trans (occursAt_append hi').symm
  constructor
  · rintro ⟨i, hfind, hi⟩
    obtain ⟨hat, hfirst⟩ := (strstr_eq_found_iff lfCrLf_ne_nil nul_not_mem_lfCrLf).mp hfind
    have hi' : carried.length + m - 3 = i := by omega
    refine ⟨⟨by omega, ?_⟩, fun j _ hj => ?_⟩
    · rw [hi', ← htext i (by omega)]
      exact hat
    · by_contra hlt
      exact hfirst j (by omega) ((htext j (by omega)).mpr hj)
  · rintro ⟨⟨h3le, hat⟩, hcarried⟩
    refine ⟨carried.length + m - 3, ?_, by omega⟩
    refine (strstr_eq_found_iff lfCrLf_ne_nil nul_not_mem_lfCrLf).mpr
      ⟨(htext _ (by omega)).mpr hat, ?_⟩
    intro j hj hocc
    rw [htext j (by omega)] at hocc
    rcases lt_or_ge j carried.length with hlt | hge
    · have hend := hcarried j hlt hocc
      omega
    · -- inside the head it would come before its end
      rw [hbytes] at hocc
      have hhere := length_head_le_of_fresh hhead hge (by omega) hocc
      omega

/-- The window of a recv: the carried bytes, the bytes received and old ones. -/
theorem bytes_of_receives (hinv : Inv s) (h : Receives d s t idx c w) :
    ∃ carried stale, w.bytes = carried ++ c ++ stale ∧ carried.length = idx ∧ 0 ∉ carried ∧
      c.length ≤ 128 ∧ (idx + c.length < 128 → 0 ∈ w.bytes) := by
  obtain ⟨-, w₀, hw₀, hw⟩ := h.inv hinv
  have hle := Buffer.length_le_of_store hw
  refine ⟨_, _, Buffer.bytes_of_store hw, ?_, hw₀.carried, by omega, fun hlt => ?_⟩
  · rw [List.length_take, w₀.size]
    omega
  · exact (mem_nul_iff hw₀ hw).mpr (Or.inl hlt)

/-! ### Runs over a delivery -/

theorem Receives.chunk_eq (h : Receives d s t idx c w) : t.chunk = c := by
  obtain ⟨-, -, -, hrecv, -, -⟩ := h
  rw [Tick.chunk, hrecv, Option.getD_some]

theorem Receives.unique {idx' : ℕ} {c' : Bytes} {w' : Buffer 128} (h : Receives d s t idx c w)
    (h' : Receives d s t idx' c' w') : idx' = idx ∧ c' = c ∧ w' = w := by
  have hc : c' = c := h'.chunk_eq.symm.trans h.chunk_eq
  obtain ⟨w₀, hphase, -, -, -, hw⟩ := h
  obtain ⟨w₁, hphase', -, -, -, hw'⟩ := h'
  rw [hphase, Phase.head.injEq] at hphase'
  obtain ⟨rfl, rfl⟩ := hphase'
  rw [hc, hw, Option.some.injEq] at hw'
  exact ⟨rfl, hc, hw'.symm⟩

/-- An iteration that ends in the head loop has received. -/
theorem receives_of_head {w' : Buffer 128} {n : ℕ} (hinv : Inv s) (h : step d s t = some u)
    (hu : u.phase = .head w' n) :
    ∃ idx c w, Receives d s t idx c w ∧ u = readHead s w idx c.length := by
  obtain ⟨-, hstep⟩ := step_cases hinv h
  rcases hstep with hr | ⟨idx, c, body, -, -, rfl⟩ | ⟨idx, -, rfl⟩ | ⟨e, rfl⟩
  · exact hr
  all_goals cases hu

/-- An iteration with the status code read, or with the status line in its
bytes, goes on to look for the blank line. -/
theorem readHead_eq (hr : Receives d s t idx c w)
    (hcode : s.rspCode = r.status ∨ s = start body ∧ r.firstLine <+: c) :
    readHead s w idx c.length = findBody { s with rspCode := r.status } w idx c.length := by
  rcases hcode with hcode | ⟨rfl, hline⟩
  · have hne : s.rspCode ≠ -1 := by
      have := r.status_bounds
      omega
    rw [readHead, if_neg hne, ← hcode]
  · obtain ⟨w₀, hphase, -, -, -, hw⟩ := hr
    obtain ⟨rfl, rfl⟩ := Phase.head.inj hphase
    have hpre : r.firstLine <+: w.bytes := by
      rw [Buffer.bytes_of_store hw, List.take_zero, List.nil_append]
      exact hline.trans (List.prefix_append _ _)
    rw [readHead, if_pos (show (start body).rspCode = -1 from rfl),
      Reply.readStatus_of_firstLine hpre]

namespace Delivery

variable (D : Delivery d body r)

theorem delivered_of_le_pre {q : List Tick} (hq : q <+: D.pre) :
    delivered q <+: r.head ∧ (delivered q).length < r.head.length := by
  obtain ⟨q', hq'⟩ := hq
  have hsplit : delivered D.pre = delivered q ++ delivered q' := by
    rw [← hq', delivered_append]
  have hlen : (delivered q).length < r.head.length := by
    have := D.before
    rw [hsplit, List.length_append] at this
    omega
  have hbytes : delivered q <+: r.bytes := by
    refine List.IsPrefix.trans ?_ D.stream
    rw [delivered_append, hsplit, List.append_assoc]
    exact List.prefix_append _ _
  exact ⟨List.prefix_of_prefix_length_le hbytes (List.prefix_append _ _) hlen.le, hlen⟩

/-- What is known of the status code in front of an iteration of the head
loop. -/
theorem code_of_run {w : Buffer 128} (h : Run (step d) (start body) tr s)
    (hpre : tr.map Prod.snd ++ [t] <+: D.pre ++ [D.last]) (hs : s.phase = .head w idx) :
    s.rspCode = r.status ∨ s = start body ∧ r.firstLine <+: t.chunk := by
  induction h generalizing t w idx with
  | nil =>
    right
    refine ⟨rfl, D.firstLine t ?_⟩
    obtain ⟨rest, hrest⟩ := hpre
    rw [← hrest]
    rfl
  | @snoc tr s a u h hstep ih =>
    -- an iteration behind the first one has the code, as all before it went on
    left
    rw [List.map_append] at hpre
    obtain ⟨idx, c, w, hr, rfl⟩ := receives_of_head (inv_run h) hstep hs
    obtain ⟨w₀, hphase, -⟩ := id hr
    have hcode := ih ((List.prefix_append _ _).trans hpre) hphase
    rw [hr.chunk_eq] at hcode
    rw [readHead_eq hr hcode, findBody_rspCode]

theorem exists_receives {w₀ : Buffer 128} (h : Run (step d) (start body) tr s)
    (hpre : tr.map Prod.snd ++ [t] <+: D.pre ++ [D.last]) (hs : s.phase = .head w₀ idx) :
    ∃ w, Receives d s t idx t.chunk w := by
  have hmem : t ∈ D.pre ++ [D.last] := hpre.subset (by simp)
  obtain ⟨c, hrecv, hne⟩ := D.receives t hmem
  have hchunk : t.chunk = c := by rw [Tick.chunk, hrecv, Option.getD_some]
  obtain ⟨w, hw⟩ := w₀.exists_store (D.fits _ t hpre tr s h rfl w₀ idx hs)
  refine ⟨w, w₀, hs, D.waits t hmem, ?_, ?_, hw⟩
  · rw [hchunk, hrecv]
  · rw [hchunk]
    exact hne

/-- A recv in front of the one that completes the head keeps the loop going
when it passes. -/
theorem head_iff_passes (h : Run (step d) (start body) tr s)
    (hpre : tr.map Prod.snd ++ [t] <+: D.pre) (hr : Receives d s t idx c w) :
    (∃ w' n, (readHead s w idx c.length).phase = .head w' n) ↔ Passes idx c w := by
  have hpre' := hpre.trans (List.prefix_append D.pre [D.last])
  obtain ⟨w₀, hphase, -⟩ := id hr
  have hcode := D.code_of_run h hpre' hphase
  obtain ⟨carried, stale, hw, rfl, h0, -, hnul⟩ := bytes_of_receives (inv_run h) hr
  rw [hr.chunk_eq] at hcode
  rw [readHead_eq hr hcode, findBody_head_iff,
    strstr_eq_absent_iff lfCrLf_ne_nil nul_not_mem_lfCrLf]
  constructor
  · rintro ⟨⟨-, hno⟩, ht, hrun⟩
    exact ⟨ht, fun i hi => absurd hi (hno i), hrun⟩
  · rintro ⟨hroom, hfresh, hrun⟩
    obtain ⟨hhead, hlt⟩ := D.delivered_of_le_pre hpre
    rw [delivered_append, show delivered [t] = t.chunk from List.flatMap_singleton _ _,
      hr.chunk_eq] at hhead hlt
    exact ⟨⟨hnul hroom, not_occursAt_of_fresh hw h0 hhead hlt hfresh⟩, hroom, hrun⟩

/-- The recv that completes the head has its end found, and leads behind the
head loop. -/
theorem completes_iff (h : Run (step d) (start body) tr s) (htr : tr.map Prod.snd = D.pre)
    (hr : Receives d s D.last idx c w) :
    (∃ i, strstr lfCrLf w.bytes = .found i ∧ i + 3 = idx + D.rest ∧
      AtBody (readHead s w idx c.length) ∧ (readHead s w idx c.length).rspCode = r.status) ↔
        Completes idx c w D.rest := by
  obtain ⟨w₀, hphase, -⟩ := id hr
  have hcode := D.code_of_run (t := D.last) h (htr ▸ List.prefix_refl _) hphase
  have hinv := inv_run h
  obtain ⟨carried, stale, hw, rfl, h0, hrd, -⟩ := bytes_of_receives hinv hr
  rw [Inv, hphase] at hinv
  rw [hr.chunk_eq] at hcode
  have hstream := D.stream
  have hcompletes := D.completes
  rw [delivered_append, show delivered [D.last] = D.last.chunk from List.flatMap_singleton _ _,
    hr.chunk_eq] at hstream hcompletes
  rw [List.length_append] at hcompletes
  have hbefore := D.before
  have hfound := found_iff (m := D.rest) hw h0 hstream (by rw [rest]; omega) (by rw [rest]; omega)
  have hcopy : ∀ i, strstr lfCrLf w.bytes = .found i →
      readHead s w carried.length c.length =
        copyBody { s with rspCode := r.status } w c.length i := by
    intro i hi
    rw [readHead_eq hr hcode, findBody, hi]
  constructor
  · rintro ⟨i, hi, hptr, hat, -⟩
    obtain ⟨hwindow, hfirst⟩ := hfound.mp ⟨i, hi, hptr⟩
    refine ⟨hwindow, hfirst, ?_⟩
    rw [AtBody, hcopy i hi,
      copyBody_phase (s := { s with rspCode := r.status }) hinv.1 hrd] at hat
    -- a shorter recv makes the length of the body negative
    by_contra hlt
    rw [if_pos (by omega)] at hat
    rcases hat with ⟨n, hn⟩ | hn
    all_goals cases hn
  · rintro ⟨hwindow, hfirst, hlen⟩
    obtain ⟨i, hi, hptr⟩ := hfound.mpr ⟨hwindow, hfirst⟩
    refine ⟨i, hi, hptr, ?_, ?_⟩
    · rw [AtBody, hcopy i hi,
        copyBody_phase (s := { s with rspCode := r.status }) hinv.1 hrd, if_neg (by omega)]
      split_ifs
      · exact Or.inr rfl
      · exact Or.inl ⟨_, rfl⟩
    · rw [hcopy i hi, copyBody_rspCode]

/-- The recvs that all pass leave the call in the head loop. -/
theorem exists_run (hD : ∀ tr s, Run (step d) (start body) tr s → tr.map Prod.snd <+: D.pre →
      ∀ p ∈ tr, ∀ idx c w, Receives d p.1 p.2 idx c w → Passes idx c w)
    {q : List Tick} (hq : q <+: D.pre) :
    ∃ tr s w idx, Run (step d) (start body) tr s ∧ tr.map Prod.snd = q ∧
      s.phase = .head w idx := by
  -- on the recvs, each of which finds the call in the head loop
  induction q using List.reverseRecOn with
  | nil => exact ⟨[], start body, _, _, Run.nil, rfl, rfl⟩
  | append_singleton q t ih =>
    obtain ⟨tr, s, w₀, idx, h, rfl, hs⟩ := ih ((List.prefix_append _ _).trans hq)
    obtain ⟨w, hr⟩ := D.exists_receives h (hq.trans (List.prefix_append _ _)) hs
    have hrun := Run.snoc h (step_of_receives hr)
    have hticks : (tr ++ [(s, t)]).map Prod.snd = tr.map Prod.snd ++ [t] := List.map_append
    have hpass := hD _ _ hrun (by rwa [hticks]) (s, t) (by simp) _ _ _ hr
    obtain ⟨w', n, hhead⟩ := (D.head_iff_passes h hq hr).mpr hpass
    exact ⟨_, _, w', n, hrun, hticks, hhead⟩

end Delivery

/-- A run that ends in the head loop never was outside it. -/
theorem head_of_run {tr' : List (Jnh C × Tick)} {w' : Buffer 128} {n : ℕ}
    (h : Run (step d) (start body) tr s) (h' : Run (step d) s tr' u)
    (hu : u.phase = .head w' n) : ∃ w idx, s.phase = .head w idx := by
  induction h' generalizing w' n with
  | nil => exact ⟨w', n, hu⟩
  | @snoc tr' s' a u h' hstep ih =>
    have hinv := inv_run (Run.append_iff.mpr ⟨s, h, h'⟩)
    obtain ⟨idx, c, w, ⟨w₀, hphase, -⟩, -⟩ := receives_of_head hinv hstep hu
    exact ih hphase

/-- **The head of a delivery is read as it was sent exactly when every recv
before the last one keeps the loop going and the last one has the end of the
head found.** -/
theorem head_read_iff (D : Delivery d body r) : D.HeadRead ↔ D.Meets := by
  constructor
  · rintro ⟨tr, s, h, htr, idx, c, w, i, hr, hfind, hptr, u, hu, hat, hcode⟩
    constructor
    · intro tr' s' h' hpre p hp idx' c' w' hr'
      -- the shorter run is the start of the whole one
      obtain ⟨rest, rfl⟩ := h'.prefix_of_labels h (htr ▸ hpre)
      obtain ⟨a, b, rfl⟩ := List.append_of_mem hp
      rw [List.append_assoc, List.cons_append] at h htr
      obtain ⟨ha, v, hv, hb⟩ := h.split
      rw [step_of_receives hr', Option.some.injEq] at hv
      subst hv
      obtain ⟨w₀, hphase, -⟩ := id hr
      refine (D.head_iff_passes ha ?_ hr').mp
        (head_of_run (Run.snoc ha (step_of_receives hr')) hb hphase)
      rw [← htr, List.map_append, List.map_cons]
      exact (List.prefix_append_right_inj _).mpr (List.prefix_append [p.2] _)
    · intro tr' s' h' htr' idx' c' w' hr'
      obtain ⟨rfl, rfl⟩ := h.unique h' (htr.trans htr'.symm)
      obtain ⟨rfl, rfl, rfl⟩ := hr'.unique hr
      rw [step_of_receives hr, Option.some.injEq] at hu
      subst hu
      exact (D.completes_iff h htr hr).mp ⟨i, hfind, hptr, hat, hcode⟩
  · rintro ⟨hpass, hlast⟩
    obtain ⟨tr, s, w₀, idx, h, htr, hs⟩ := D.exists_run hpass (List.prefix_refl _)
    obtain ⟨w, hr⟩ := D.exists_receives (t := D.last) h (htr ▸ List.prefix_refl _) hs
    obtain ⟨i, hfind, hptr, hat, hcode⟩ :=
      (D.completes_iff h htr hr).mpr (hlast tr s h htr idx _ w hr)
    exact ⟨tr, s, h, htr, idx, _, w, i, hr, hfind, hptr, _, step_of_receives hr, hat, hcode⟩

/-! ### Two deliveries of one reply -/

theorem delivered_received (cs : List Bytes) : delivered (cs.map Tick.received) = cs.flatten := by
  induction cs with
  | nil => rfl
  | cons c cs ih =>
    rw [List.map_cons, List.flatten_cons, ← ih]
    rfl

section Chunks

variable {cs pre : List Bytes} {last : Bytes}

theorem map_received_snoc (pre : List Bytes) (last : Bytes) :
    pre.map Tick.received ++ [.received last] = (pre ++ [last]).map .received := by
  rw [List.map_append, List.map_singleton]

theorem wait_of_received (ht : t ∈ cs.map Tick.received) : Deadlines.fetchTime.wait t = .ok () := by
  obtain ⟨c, -, rfl⟩ := List.mem_map.mp ht
  rfl

theorem recv_of_received (hcs : ∀ c ∈ cs, c ≠ []) (ht : t ∈ cs.map Tick.received) :
    ∃ c, t.recv = some c ∧ c ≠ [] := by
  obtain ⟨c, hc, rfl⟩ := List.mem_map.mp ht
  exact ⟨c, rfl, hcs c hc⟩

/-- A recv of 124 bytes fits the window behind four carried bytes. -/
theorem fits_of_received (hcs : ∀ c ∈ cs, c.length ≤ 124) (ht : t ∈ cs.map Tick.received)
    (h : Run (step d) (start body) tr s) (hs : s.phase = .head w idx) :
    idx + t.chunk.length ≤ 128 := by
  obtain ⟨c, hc, rfl⟩ := List.mem_map.mp ht
  have hinv := inv_run h
  rw [Inv, hs] at hinv
  have hidx := hinv.2.idx_le
  have hlen := hcs c hc
  show idx + c.length ≤ 128
  omega

theorem firstLine_of_received (hline : ∀ c ∈ cs.head?, r.firstLine <+: c)
    (ht : t ∈ (cs.map Tick.received).head?) : r.firstLine <+: t.chunk := by
  rw [List.head?_map] at ht
  obtain ⟨c, hc, rfl⟩ := Option.map_eq_some_iff.mp ht
  exact hline c hc

/-- The recvs `pre` and `last` at time 0, each short enough for a window with
four carried bytes. -/
def Delivery.ofChunks (body : Buffer C) (r : Reply) (pre : List Bytes) (last : Bytes)
    (hlen : ∀ c ∈ pre ++ [last], c ≠ [] ∧ c.length ≤ 124)
    (hstream : (pre ++ [last]).flatten <+: r.bytes)
    (hbefore : pre.flatten.length < r.head.length)
    (hcompletes : r.head.length ≤ (pre ++ [last]).flatten.length)
    (hline : ∀ c ∈ (pre ++ [last]).head?, r.firstLine <+: c) : Delivery .fetchTime body r where
  pre := pre.map .received
  last := .received last
  waits := by
    rw [map_received_snoc]
    exact fun t ht => wait_of_received ht
  receives := by
    rw [map_received_snoc]
    exact fun t ht => recv_of_received (fun c hc => (hlen c hc).1) ht
  fits := by
    rw [map_received_snoc]
    intro q t hq tr s h _ w idx hs
    have ht : t ∈ (pre ++ [last]).map Tick.received := hq.subset (by simp)
    exact fits_of_received (fun c hc => (hlen c hc).2) ht h hs
  stream := by rwa [map_received_snoc, delivered_received]
  before := by rwa [delivered_received]
  completes := by rwa [map_received_snoc, delivered_received]
  firstLine := by
    rw [map_received_snoc]
    exact fun t ht => firstLine_of_received hline ht

end Chunks

/-- A window has no more than 128 places for a blank line. -/
theorem fresh_of_forall_lt
    (h : ∀ i < 128, OccursAt lfCrLf (text w.bytes) i → idx ≤ i ∧ i + 3 ≤ idx + c.length) :
    ∀ i, OccursAt lfCrLf (text w.bytes) i → idx ≤ i ∧ i + 3 ≤ idx + c.length := by
  intro i hi
  refine h i ?_ hi
  have hlt := (List.getElem?_eq_some_iff.mp (getElem?_of_occursAt hi (j := 0) (by decide))).1
  have hle : (text w.bytes).length ≤ w.bytes.length := (List.takeWhile_prefix _).length_le
  rw [w.size] at hle
  omega

/-! ### A reply in three recvs -/

/-- The reply "12" with a header. -/
def served : Reply := .timeNowFrom [49, 50]

/-- The status line comes with the first byte of the header.  The second recv
stops where the first one has left a CR, which is carried. -/
def servedFirst : Bytes := served.firstLine ++ [83]

def servedSecond : Bytes := Reply.serverLine.bytes.tail

def servedLast : Bytes := [13, 10, 13, 10, 49, 50]

/-- The window behind the first recv. -/
def windowOfFirst : Buffer 128 where
  bytes := servedFirst ++ List.replicate 110 0
  size := by decide +kernel

/-- The window behind the second. -/
def windowOfSecond : Buffer 128 where
  bytes := 13 :: servedSecond.tail ++ [13, 10, 83] ++ List.replicate 110 0
  size := by decide +kernel

theorem served_steps : ∃ s₁ s₂ s : Jnh 127,
    step .fetchTime (start (.zeros 127)) (.received servedFirst) = some s₁ ∧
    step .fetchTime s₁ (.received servedSecond) = some s₂ ∧
    step .fetchTime s₂ (.received servedLast) = some s ∧
    s₁.phase = .head windowOfFirst 0 ∧ s₂.phase = .head windowOfSecond 1 ∧
    s.phase = .fill 1 := by
  have hexec : ((step .fetchTime (start (.zeros 127)) (.received servedFirst)).bind fun s₁ =>
      (step .fetchTime s₁ (.received servedSecond)).bind fun s₂ =>
        (step .fetchTime s₂ (.received servedLast)).map fun s =>
          (s₁.phase, s₂.phase, s.phase)) =
      some (.head windowOfFirst 0, .head windowOfSecond 1, .fill 1) := by decide +kernel
  obtain ⟨s₁, h₁, hexec⟩ := Option.bind_eq_some_iff.mp hexec
  obtain ⟨s₂, h₂, hexec⟩ := Option.bind_eq_some_iff.mp hexec
  obtain ⟨s, h, heq⟩ := Option.map_eq_some_iff.mp hexec
  obtain ⟨hphase₁, heq⟩ := Prod.mk.inj heq
  obtain ⟨hphase₂, hphase⟩ := Prod.mk.inj heq
  exact ⟨s₁, s₂, s, h₁, h₂, h, hphase₁, hphase₂, hphase⟩

/-- The head is read from the three recvs. -/
theorem head_read_in_three_recvs :
    (Delivery.ofChunks (.zeros 127) served [servedFirst, servedSecond] servedLast (by decide)
      (by decide) (by decide) (by decide) (by decide)).HeadRead := by
  obtain ⟨s₁, s₂, -, h₁, h₂, -, hphase₁, hphase₂, -⟩ := served_steps
  have hrun := (Run.snoc Run.nil h₁).snoc h₂
  refine (head_read_iff _).mpr ⟨?_, ?_⟩
  · intro tr s h hpre p hp idx c w hr
    have hmem := (h.prefix_of_labels hrun hpre).subset hp
    obtain ⟨v, a⟩ := p
    have hpasses : ∀ {w₀ c₀}, a = .received c₀ → v.phase = .head w₀ 0 → c₀.length < 128 →
        (∀ i < 128, OccursAt lfCrLf (text (c₀ ++ w₀.bytes.drop c₀.length)) i →
          i + 3 ≤ c₀.length) →
        (tailRun (c₀ ++ w₀.bytes.drop c₀.length) c₀.length).length ≤ min 4 c₀.length →
        Passes idx c w := by
      rintro w₀ c₀ rfl hv hroom hfresh htail
      obtain ⟨rfl, rfl, hw⟩ := window_of_receives hv hr
      rw [List.take_zero, List.nil_append, Nat.zero_add] at hw
      refine ⟨by rwa [Nat.zero_add], fresh_of_forall_lt ?_, by rwa [hw, Nat.zero_add]⟩
      rw [hw, Nat.zero_add]
      exact fun i hi hocc => ⟨Nat.zero_le i, hfresh i hi hocc⟩
    rcases List.mem_cons.mp hmem with heq | hmem
    · obtain ⟨rfl, rfl⟩ := Prod.mk.inj heq
      exact hpasses rfl rfl (by decide) (by decide +kernel) (by decide +kernel)
    · obtain ⟨rfl, rfl⟩ := Prod.mk.inj (List.mem_singleton.mp hmem)
      exact hpasses rfl hphase₁ (by decide) (by decide +kernel) (by decide +kernel)
  · intro tr s h htr idx c w hr
    obtain ⟨-, rfl⟩ := h.unique hrun htr
    obtain ⟨rfl, rfl, hw⟩ := window_of_receives hphase₂ hr
    refine ⟨?_, ?_, by decide⟩
    all_goals
      rw [hw]
      decide +kernel

/-- **The end of a head that two recvs share is not found**: behind the second
recv the call is still in the head loop. -/
theorem head_lost_between_recvs :
    ¬ (Delivery.ofChunks (.zeros 127) (.timeNow [49]) [(Reply.timeNow [49]).firstLine]
      [13, 10, 49] (by decide) (by decide) (by decide) (by decide) (by decide)).HeadRead := by
  have hloop : ((step .fetchTime (start (.zeros 127))
      (.received (Reply.timeNow [49]).firstLine)).bind fun s =>
        step .fetchTime s (.received [13, 10, 49])).map (fun u => decide (AtBody u)) =
          some false := by decide +kernel
  rintro ⟨tr, s, h, htr, idx, c, w, i, -, -, -, u, hu, hat, -⟩
  obtain ⟨p, tr', rfl, hp, htr'⟩ := List.map_eq_cons_iff.mp htr
  obtain rfl := List.map_eq_nil_iff.mp htr'
  obtain ⟨hstart, s', hs', h'⟩ := Run.cons_iff.mp h
  obtain rfl := Run.nil_iff.mp h'
  rw [hstart, hp] at hs'
  change step _ s (.received [13, 10, 49]) = some u at hu
  rw [hs', Option.bind_some, hu, Option.map_some, Option.some.injEq] at hloop
  exact of_decide_eq_false hloop hat

end Jnh
