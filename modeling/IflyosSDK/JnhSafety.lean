/-
`jnh_get` and the bounds of its arrays.

The head loop reads `beforeBodyLine` as a C string and walks over its last
bytes, and whether it stays inside depends on what the server sends.

* `copyBody_inBounds_iff`, `findBody_inBounds_iff`, `readHead_inBounds_iff` —
  when what follows the recv stays inside the arrays;
* `stays_in_buffers_iff` — **the runs that stay inside them**.
-/
import IflyosSDK.JnhHead

namespace Jnh

variable {C : ℕ} {d : Deadlines} {s u : Jnh C} {t : Tick} {idx rd : ℕ} {c : Bytes}
  {w₀ w : Buffer 128}

/-- No access has left its array. -/
def InBounds (s : Jnh C) : Prop := ∀ f, s.phase ≠ .fault f

/-- In this iteration the memory that is searched as a string ends at a NUL,
and every access is inside its array. -/
def StaysInBuffers (d : Deadlines) (s : Jnh C) (t : Tick) : Prop :=
  (∀ idx c w, Receives d s t idx c w → 0 ∈ w.bytes) ∧
    ∀ u, step d s t = some u → InBounds u

/-! ### The condition on what is received -/

/-- The window holds a line end. -/
def StatusLine (w : Buffer 128) : Prop := ∃ i, OccursAt crLf (text w.bytes) i

/-- The bytes `c`, received at `idx` into a window that they make `w`, keep the
iteration inside the arrays.  `code` is the status code in front of it. -/
structure Harmless (code : ℤ) (idx : ℕ) (c : Bytes) (w : Buffer 128) : Prop where
  /-- A recv that fills the window brings a NUL. -/
  terminated : idx + c.length < 128 ∨ 0 ∈ c
  /-- The number in the place of the status code ends inside the window. -/
  number : code = -1 → StatusLine w → afterNumber (w.bytes.drop 9) ≠ []
  /-- The first blank line does not end behind the length of the recv. -/
  blankLine : (code = -1 → StatusLine w) →
    ∀ i, FirstAt lfCrLf (text w.bytes) i → i + 3 ≤ c.length
  /-- Without a blank line, the CR and LF bytes that end one behind the recv fit
  the carry buffer and do not reach the start of the window. -/
  tail : (code = -1 → StatusLine w) →
    (∀ i, ¬ OccursAt lfCrLf (text w.bytes) i) → TailFits w (idx + c.length)

/-- What the iteration receives, if it does, is harmless. -/
def ReceivesHarmless (d : Deadlines) (s : Jnh C) (t : Tick) : Prop :=
  ∀ idx c w, Receives d s t idx c w → Harmless s.rspCode idx c w

/-! ### One iteration -/

theorem copyBody_inBounds_iff {bodyPtr : ℕ} (hs : s.bodyLen = C) (hrd : rd ≤ 128) :
    InBounds (copyBody s w rd bodyPtr) ↔ bodyPtr + 3 ≤ rd := by
  rw [InBounds, copyBody_phase hs hrd]
  split_ifs with hneg
  · refine ⟨fun h => absurd rfl (h .copy), ?_⟩
    omega
  · exact ⟨fun _ => by omega, fun _ f => Phase.noConfusion⟩
  · exact ⟨fun _ => by omega, fun _ f => Phase.noConfusion⟩

theorem carryTail_inBounds_iff : InBounds (carryTail s w idx rd) ↔ TailFits w (idx + rd) := by
  by_cases hfits : TailFits w (idx + rd)
  · obtain ⟨w', hcarry, -⟩ := carryTail_of_tailFits hfits (s := s)
    rw [hcarry]
    exact ⟨fun _ => hfits, fun _ _ => Phase.noConfusion⟩
  · obtain ⟨f, hcarry⟩ := carryTail_of_not_tailFits hfits (s := s)
    rw [hcarry]
    exact ⟨fun h => absurd rfl (h f), fun h => absurd h hfits⟩

theorem findBody_inBounds_iff (hs : s.bodyLen = C) (hrd : rd ≤ 128) (h0 : 0 ∈ w.bytes) :
    InBounds (findBody s w idx rd) ↔
      (∀ i, FirstAt lfCrLf (text w.bytes) i → i + 3 ≤ rd) ∧
        ((∀ i, ¬ OccursAt lfCrLf (text w.bytes) i) → TailFits w (idx + rd)) := by
  rw [findBody]
  cases hfind : strstr lfCrLf w.bytes with
  | found i =>
    have hfirst := (strstr_eq_found_iff lfCrLf_ne_nil nul_not_mem_lfCrLf).mp hfind
    show InBounds (copyBody s w rd i) ↔ _
    rw [copyBody_inBounds_iff hs hrd]
    constructor
    · intro hi
      refine ⟨fun j hj => ?_, fun hno => absurd hfirst.1 (hno i)⟩
      have hji := (strstr_eq_found_iff lfCrLf_ne_nil nul_not_mem_lfCrLf).mpr hj
      rw [hfind, Search.found.injEq] at hji
      omega
    · rintro ⟨hblank, -⟩
      exact hblank i hfirst
  | absent =>
    have hno := ((strstr_eq_absent_iff lfCrLf_ne_nil nul_not_mem_lfCrLf).mp hfind).2
    show InBounds (carryTail s w idx rd) ↔ _
    rw [carryTail_inBounds_iff]
    exact ⟨fun h => ⟨fun i hi => absurd hi.1 (hno i), fun _ => h⟩, fun h => h.2 hno⟩
  | overrun =>
    exact absurd h0 ((strstr_eq_overrun_iff lfCrLf_ne_nil nul_not_mem_lfCrLf).mp hfind).1

theorem readHead_inBounds_iff (hs : s.bodyLen = C) (hrd : rd ≤ 128) (h0 : 0 ∈ w.bytes) :
    InBounds (readHead s w idx rd) ↔
      (s.rspCode = -1 → StatusLine w → afterNumber (w.bytes.drop 9) ≠ []) ∧
        ((s.rspCode = -1 → StatusLine w) →
          (∀ i, FirstAt lfCrLf (text w.bytes) i → i + 3 ≤ rd) ∧
            ((∀ i, ¬ OccursAt lfCrLf (text w.bytes) i) → TailFits w (idx + rd))) := by
  rw [readHead]
  by_cases hcode : s.rspCode = -1
  · rw [if_pos hcode, readStatus]
    cases hfind : strstr crLf w.bytes with
    | absent =>
      -- the call ends with JNHE_HTTP
      have hno : ¬ StatusLine w := by
        rintro ⟨i, hi⟩
        exact ((strstr_eq_absent_iff crLf_ne_nil nul_not_mem_crLf).mp hfind).2 i hi
      refine ⟨fun _ => ⟨fun _ h => absurd h hno, fun h => absurd (h hcode) hno⟩, ?_⟩
      intro _ f
      exact Phase.noConfusion
    | overrun =>
      exact absurd h0 ((strstr_eq_overrun_iff crLf_ne_nil nul_not_mem_crLf).mp hfind).1
    | found i =>
      have hline : StatusLine w :=
        ⟨i, ((strstr_eq_found_iff crLf_ne_nil nul_not_mem_crLf).mp hfind).1⟩
      cases hnum : atoi (w.bytes.drop 9) with
      | none =>
        refine ⟨fun h => absurd rfl (h .scan), fun h => ?_⟩
        exact absurd (atoi_eq_none_iff.mp hnum) (h.1 hcode hline)
      | some code =>
        have hends : afterNumber (w.bytes.drop 9) ≠ [] := by
          rw [Ne, ← atoi_eq_none_iff, hnum]
          exact Option.some_ne_none code
        show InBounds (findBody { s with rspCode := code } w idx rd) ↔ _
        rw [findBody_inBounds_iff (s := { s with rspCode := code }) hs hrd h0]
        exact ⟨fun h => ⟨fun _ _ => hends, fun _ => h⟩, fun h => h.2 fun _ => hline⟩
  · rw [if_neg hcode, findBody_inBounds_iff hs hrd h0]
    exact ⟨fun h => ⟨fun h' => absurd h' hcode, fun _ => h⟩,
      fun h => h.2 fun h' => absurd h' hcode⟩

/-- An iteration of the head loop that receives. -/
theorem receives_stays_iff (hinv : Inv s) (hr : Receives d s t idx c w) :
    (0 ∈ w.bytes ∧ InBounds (readHead s w idx c.length)) ↔ Harmless s.rspCode idx c w := by
  obtain ⟨hs, w₀, hw₀, hw⟩ := hr.inv hinv
  have hle := Buffer.length_le_of_store hw
  have hrd : c.length ≤ 128 := by omega
  constructor
  · rintro ⟨h0, hbounds⟩
    obtain ⟨hnumber, hbody⟩ := (readHead_inBounds_iff hs hrd h0).mp hbounds
    exact ⟨(mem_nul_iff hw₀ hw).mp h0, hnumber, fun h => (hbody h).1, fun h => (hbody h).2⟩
  · intro hh
    have h0 := (mem_nul_iff hw₀ hw).mpr hh.terminated
    exact ⟨h0, (readHead_inBounds_iff hs hrd h0).mpr
      ⟨hh.number, fun h => ⟨hh.blankLine h, hh.tail h⟩⟩⟩

/-- Only an iteration that receives in the head loop can leave the arrays. -/
theorem stays_iff (hinv : Inv s) :
    StaysInBuffers d s t ↔ ∀ idx c w, Receives d s t idx c w →
      0 ∈ w.bytes ∧ InBounds (readHead s w idx c.length) := by
  constructor
  · intro hstays idx c w hr
    obtain ⟨hnul, hbounds⟩ := hstays
    exact ⟨hnul idx c w hr, hbounds _ (step_of_receives hr)⟩
  · intro hreads
    refine ⟨fun idx c w hr => (hreads idx c w hr).1, fun u hu => ?_⟩
    obtain ⟨-, hstep⟩ := step_cases hinv hu
    rcases hstep with ⟨idx, c, w, hr, rfl⟩ | ⟨idx, c, body, -, -, rfl⟩ | ⟨idx, -, rfl⟩ | ⟨e, rfl⟩
    · exact (hreads idx c w hr).2
    · exact fun _ => Phase.noConfusion
    · exact fun _ => Phase.noConfusion
    · exact fun _ => Phase.noConfusion

/-- One iteration stays inside the arrays when what it receives is harmless,
and only then. -/
theorem stays_iff_harmless (hinv : Inv s) :
    StaysInBuffers d s t ↔ ReceivesHarmless d s t := by
  rw [stays_iff hinv, ReceivesHarmless]
  constructor
  · intro h idx c w hr
    exact (receives_stays_iff hinv hr).mp (h idx c w hr)
  · intro h idx c w hr
    exact (receives_stays_iff hinv hr).mpr (h idx c w hr)

/-! ### Whole calls -/

/-- **A call stays inside its arrays in every iteration exactly when every
iteration of its head loop receives harmless bytes.** -/
theorem stays_in_buffers_iff {body : Buffer C} {tr : List (Jnh C × Tick)}
    (h : Run (step d) (start body) tr s) :
    (∀ p ∈ tr, StaysInBuffers d p.1 p.2) ↔ ∀ p ∈ tr, ReceivesHarmless d p.1 p.2 := by
  have hinv : ∀ p ∈ tr, Inv p.1 :=
    Run.states (I := Inv) (inv_start body) (fun _ _ _ => inv_step) h
  exact forall₂_congr fun p hp => stays_iff_harmless (hinv p hp)

/-- An iteration that receives `c₀` into a window with a NUL behind it. -/
theorem stays_of_received {w₀ : Buffer 128} {i : ℕ} {c₀ : Bytes} (hs : s.phase = .head w₀ i)
    (hu : step d s (.received c₀) = some u) (h0 : 0 ∈ w₀.bytes.drop (i + c₀.length))
    (hin : InBounds u) : StaysInBuffers d s (.received c₀) := by
  refine ⟨fun idx c w hr => ?_, fun u' hu' => ?_⟩
  · obtain ⟨-, -, hw⟩ := window_of_receives hs hr
    rw [hw]
    exact List.mem_append_right _ h0
  · rw [hu, Option.some.injEq] at hu'
    rwa [← hu']

/-- The condition is met by a reply in three recvs, with a CR that is carried. -/
theorem stays_in_buffers_of_three_recvs :
    ∃ tr s, Run (step .fetchTime) (start (.zeros 127)) tr s ∧ s.phase = .fill 1 ∧
      tr.length = 3 ∧ ∀ p ∈ tr, ReceivesHarmless .fetchTime p.1 p.2 := by
  obtain ⟨s₁, s₂, s, h₁, h₂, h, hphase₁, hphase₂, hphase⟩ := served_steps
  have hrun := ((Run.snoc Run.nil h₁).snoc h₂).snoc h
  refine ⟨_, s, hrun, hphase, rfl, (stays_in_buffers_iff hrun).mp ?_⟩
  have hin : ∀ {v : Jnh 127} {p : Phase}, v.phase = p → (∀ f, p ≠ .fault f) → InBounds v :=
    fun hv hp f => hv ▸ hp f
  intro p hp
  simp only [List.nil_append, List.cons_append, List.mem_cons, List.not_mem_nil, or_false] at hp
  rcases hp with rfl | rfl | rfl
  · exact stays_of_received rfl h₁ (by decide +kernel) (hin hphase₁ fun _ => Phase.noConfusion)
  · exact stays_of_received hphase₁ h₂ (by decide +kernel)
      (hin hphase₂ fun _ => Phase.noConfusion)
  · exact stays_of_received hphase₂ h (by decide +kernel) (hin hphase fun _ => Phase.noConfusion)

/-- The first recv fills the window with a status line and the start of a long
header line. -/
def longHead : Bytes := (Reply.timeNow []).firstLine ++ List.replicate 111 88

/-- **The search for the blank line runs over the end of a full window.** -/
theorem leaves_buffer_on_long_header :
    ∃ tr s, Run (step .fetchTime) (start (.zeros 127)) tr s ∧
      ¬ ∀ p ∈ tr, StaysInBuffers .fetchTime p.1 p.2 := by
  have hphase : (step .fetchTime (start (.zeros 127)) (.received longHead)).map Jnh.phase =
      some (.fault .scan) := by decide +kernel
  obtain ⟨u, hu, hphase⟩ := Option.map_eq_some_iff.mp hphase
  refine ⟨_, u, Run.snoc Run.nil hu, fun hstays => ?_⟩
  exact (hstays _ (List.mem_singleton.mpr rfl)).2 u hu .scan hphase

end Jnh
