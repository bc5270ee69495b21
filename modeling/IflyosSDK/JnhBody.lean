/-
The body `jnh_get` returns.

The peer sends a reply and closes the connection; `recv` returns its bytes in
order, however they are split.  The whole head arrives with the first recv.

* `BodyInv`, `bodyInv_run` — how much of the body is stored in every state;
* `returns_body_iff` — **the calls that return the body they were sent**: all
  but those whose first recv ends with the head of a reply that has a body.
-/
import IflyosSDK.JnhSteps
import IflyosSDK.HttpReply

namespace Jnh

variable {C : ℕ} {d : Deadlines} {s u : Jnh C} {t : Tick} {c : Bytes} {r : Reply}
  {tr : List (Jnh C × Tick)} {body : Buffer C}

/-! ### The peer -/

/-- The bytes that `recv` has returned in a run. -/
def received (tr : List (Jnh C × Tick)) : Bytes := tr.flatMap fun p => p.2.chunk

theorem received_snoc {p : Jnh C × Tick} :
    received (tr ++ [p]) = received tr ++ p.2.chunk := by
  simp [received]

/-- The space offered to `recv`. -/
def space (s : Jnh C) : ℕ :=
  match s.phase with
  | .head _ idx => 128 - idx
  | .fill idx => s.bodyLen - idx
  | .returned _ => 0
  | .fault _ => 0

/-- `recv` returns the bytes of the stream in order, and none only when it is
offered no space or the peer has closed the connection behind all of them. -/
def FromPeer (stream : Bytes) (tr : List (Jnh C × Tick)) : Prop :=
  ∀ tr₁ p tr₂, tr = tr₁ ++ p :: tr₂ → ∀ c, p.2.recv = some c →
    received tr₁ ++ c <+: stream ∧ (c = [] → p.1.space = 0 ∨ received tr₁ = stream)

theorem FromPeer.of_snoc {stream : Bytes} {p : Jnh C × Tick} (h : FromPeer stream (tr ++ [p])) :
    FromPeer stream tr ∧ ∀ c, p.2.recv = some c →
      received tr ++ c <+: stream ∧ (c = [] → p.1.space = 0 ∨ received tr = stream) := by
  refine ⟨fun tr₁ q tr₂ htr => ?_, h tr p [] rfl⟩
  exact h tr₁ q (tr₂ ++ [p]) (by simp [htr])

theorem fromPeer_nil {stream : Bytes} : FromPeer stream ([] : List (Jnh C × Tick)) := by
  intro tr₁ p tr₂ htr
  simp at htr

theorem FromPeer.snoc {stream : Bytes} {p : Jnh C × Tick} (h : FromPeer stream tr)
    (hp : ∀ c, p.2.recv = some c →
      received tr ++ c <+: stream ∧ (c = [] → p.1.space = 0 ∨ received tr = stream)) :
    FromPeer stream (tr ++ [p]) := by
  intro tr₁ q tr₂ htr
  rcases List.eq_nil_or_concat tr₂ with rfl | ⟨tr₂, q', rfl⟩
  · obtain ⟨rfl, hq⟩ := List.append_inj' htr rfl
    rw [← List.singleton_inj.mp hq]
    exact hp
  · rw [List.concat_eq_append, ← List.cons_append, ← List.append_assoc] at htr
    exact h tr₁ q tr₂ (List.append_inj_left' htr rfl)

theorem FromPeer.of_append {stream : Bytes} {tr₁ tr₂ : List (Jnh C × Tick)}
    (h : FromPeer stream (tr₁ ++ tr₂)) : FromPeer stream tr₁ :=
  fun tr p tr' htr => h tr p (tr' ++ tr₂) (by simp [htr])

theorem FromPeer.received_prefix {stream : Bytes} (h : FromPeer stream tr) :
    received tr <+: stream := by
  induction tr using List.reverseRecOn with
  | nil => exact List.nil_prefix
  | append_singleton tr p ih =>
    obtain ⟨h, hlast⟩ := h.of_snoc
    rw [received_snoc, Tick.chunk]
    cases hrecv : p.2.recv with
    | none =>
      rw [Option.getD_none, List.append_nil]
      exact ih h
    | some c => exact (hlast c hrecv).1

/-! ### How much of the body is stored -/

/-- The call has returned the body it was sent, cut to its capacity. -/
def ReturnsBody (r : Reply) (s : Jnh C) : Prop :=
  s.bodyLen = min C r.body.length ∧ s.body.bytes.take s.bodyLen = r.body.take s.bodyLen

/-- Behind a first recv `c₀` that brings the whole head, with `all` the bytes
received so far. -/
def BodyInv (r : Reply) (c₀ all : Bytes) (s : Jnh C) : Prop :=
  match s.phase with
  | .head _ _ => False
  | .fill idx => s.bodyLen = C ∧ idx ≤ C ∧ r.head.length < c₀.length ∧
      all = r.head ++ s.body.bytes.take idx
  | .returned e => e = JNHE_OK →
      (r.head.length < c₀.length ∧ ReturnsBody r s) ∨ (c₀ = r.head ∧ s.bodyLen = 0)
  | .fault _ => False

/-- A part of the body is stored that fills the caller's, or all of it. -/
theorem returnsBody_of_stored (hlen : s.bodyLen ≤ C)
    (hstored : s.body.bytes.take s.bodyLen <+: r.body)
    (hend : s.bodyLen = C ∨ s.body.bytes.take s.bodyLen = r.body) : ReturnsBody r s := by
  have hsize : (s.body.bytes.take s.bodyLen).length = s.bodyLen := by
    rw [List.length_take, s.body.size]
    omega
  have hle := hstored.length_le
  constructor
  · rcases hend with hfull | hall
    · omega
    · rw [← hall]
      omega
  · obtain ⟨rest, hrest⟩ := hstored
    rw [← hrest, List.take_left' hsize]

theorem bodyInv_ret {c₀ all : Bytes} {e : ℤ} (he : e ≠ JNHE_OK) : BodyInv r c₀ all (s.ret e) :=
  fun h => absurd h he

/-- The bytes behind the head in the first recv. -/
theorem bodyInv_copyBody {c₀ : Bytes} {w : Buffer 128} (hs : s.bodyLen = C)
    (hw : c₀ <+: w.bytes) (hhead : r.head <+: c₀) (hpeer : c₀ <+: r.bytes) :
    BodyInv r c₀ c₀ (copyBody s w c₀.length (r.head.length - 3)) := by
  obtain ⟨b, rfl⟩ := hhead
  obtain ⟨stale, hstale⟩ := hw
  have hb : b <+: r.body := (List.prefix_append_right_inj _).mp hpeer
  have hptr : r.head.length - 3 + 3 = r.head.length := Nat.sub_add_cancel r.three_le_length_head
  have hrd : (r.head ++ b).length ≤ 128 := by
    rw [← w.size, ← hstale]
    exact (List.prefix_append _ _).length_le
  have hdrop : w.bytes.drop (r.head.length - 3 + 3) = b ++ stale := by
    rw [← hstale, hptr, List.append_assoc, List.drop_left]
  have hlen : (r.head ++ b).length = r.head.length + b.length := List.length_append
  by_cases hfull : r.head.length + C ≤ (r.head ++ b).length
  · -- the first recv fills the body
    rw [← hptr] at hfull
    obtain ⟨body, hcopy, hbody⟩ := copyBody_full hs hrd hfull (w := w)
    rw [hdrop, List.take_append_of_le_length (by omega)] at hbody
    rw [hcopy]
    rcases List.eq_nil_or_concat b with rfl | ⟨b', x, rfl⟩
    · -- the caller has no room at all
      refine fun _ => Or.inr ⟨List.append_nil _, ?_⟩
      show s.bodyLen = 0
      rw [List.append_nil] at hfull
      omega
    · refine fun _ => Or.inl ⟨by simp, returnsBody_of_stored hs.le ?_ (Or.inl hs)⟩
      show body.bytes.take s.bodyLen <+: r.body
      rw [hbody]
      exact ((List.take_prefix _ _).trans (List.take_prefix _ _)).trans hb
  by_cases hempty : b = []
  · -- it ends with the head, and the call returns at once
    have hrdlen : r.head.length - 3 + 3 = (r.head ++ b).length := by
      rw [hlen, hempty, hptr]
      rfl
    have hC : 0 < C := by
      rw [hempty, List.append_nil] at hfull
      omega
    obtain ⟨body, hcopy⟩ := copyBody_empty hs hrd hC hrdlen (w := w)
    rw [hcopy]
    exact fun _ => Or.inr ⟨by rw [hempty, List.append_nil], rfl⟩
  · -- it brings a part of the body
    have hpos := List.length_pos_iff.mpr hempty
    have hpart : r.head.length - 3 + 3 < (r.head ++ b).length := by omega
    obtain ⟨body, hcopy, hbody⟩ := copyBody_part hs hrd hpart (by omega) (w := w)
    have hfresh : (r.head ++ b).length - (r.head.length - 3 + 3) = b.length := by omega
    rw [hfresh] at hcopy hbody
    rw [hdrop, List.take_left] at hbody
    rw [hcopy]
    refine ⟨hs, by omega, by omega, ?_⟩
    rw [hbody]

/-- The first iteration. -/
theorem bodyInv_start {c₀ : Bytes} (hrecv : t.recv = some c₀) (hhead : r.head <+: c₀)
    (hpeer : c₀ <+: r.bytes) (h : step d (start body) t = some u) : BodyInv r c₀ c₀ u := by
  rcases step_head_cases rfl h with ⟨c, w, hr, rfl⟩ | ⟨e, he, rfl⟩
  · obtain ⟨w₀, hw₀, -, hrecv', -, hw⟩ := hr
    obtain ⟨rfl, -⟩ := Phase.head.inj hw₀
    rw [hrecv, Option.some.injEq] at hrecv'
    subst hrecv'
    have hpre : c₀ <+: w.bytes := by
      rw [Buffer.bytes_of_store hw, List.take_zero, List.nil_append]
      exact List.prefix_append _ _
    rw [Reply.readHead_of_head (hhead.trans hpre) rfl]
    exact bodyInv_copyBody (s := { start body with rspCode := r.status }) rfl hpre hhead hpeer
  · exact bodyInv_ret he

/-- An iteration behind the first one. -/
theorem bodyInv_step {c₀ all : Bytes} (hinv : BodyInv r c₀ all s)
    (hpeer : ∀ c, t.recv = some c →
      all ++ c <+: r.bytes ∧ (c = [] → s.space = 0 ∨ all = r.bytes))
    (h : step d s t = some u) : BodyInv r c₀ (all ++ t.chunk) u := by
  cases hphase : s.phase with
  | fill idx =>
    rw [BodyInv, hphase] at hinv
    obtain ⟨hs, hidx, hfirst, hall⟩ := hinv
    rcases step_fill_cases hphase hs hidx h with
      ⟨c, body, hrecv, -, hstore, rfl⟩ | ⟨hrecv, rfl⟩ | ⟨e, he, rfl⟩
    · have hle := Buffer.length_le_of_store hstore
      have htake : (s.body.bytes.take idx ++ c).length = idx + c.length := by
        rw [List.length_append, List.length_take, s.body.size]
        omega
      refine ⟨hs, hle, hfirst, ?_⟩
      rw [Buffer.bytes_of_store hstore, List.take_left' htake, Tick.chunk, hrecv, hall,
        Option.getD_some, List.append_assoc]
    · -- the capacity is reached, or the peer has closed the connection
      obtain ⟨hpre, hclosed⟩ := hpeer [] hrecv
      rw [List.append_nil, hall, Reply.bytes] at hpre
      have hstored : s.body.bytes.take idx <+: r.body :=
        (List.prefix_append_right_inj _).mp hpre
      refine fun _ => Or.inl ⟨hfirst, returnsBody_of_stored hidx hstored ?_⟩
      rcases hclosed rfl with hspace | hend
      · left
        rw [space, hphase] at hspace
        simp only at hspace
        show idx = C
        omega
      · right
        rw [hall, Reply.bytes] at hend
        exact List.append_cancel_left hend
    · exact bodyInv_ret he
  | head w idx =>
    rw [BodyInv, hphase] at hinv
    exact hinv.elim
  | returned e =>
    rw [step, hphase] at h
    cases h
  | fault f =>
    rw [step, hphase] at h
    cases h

/-- The invariant holds behind the first iteration. -/
theorem bodyInv_run {c₀ : Bytes} {t₀ : Tick} (hrecv : t₀.recv = some c₀)
    (hhead : r.head <+: c₀) (h : Run (step d) (start body) ((start body, t₀) :: tr) s)
    (hpeer : FromPeer r.bytes ((start body, t₀) :: tr)) :
    BodyInv r c₀ (received ((start body, t₀) :: tr)) s := by
  -- on the iterations behind the first one
  induction tr using List.reverseRecOn generalizing s with
  | nil =>
    rw [← List.nil_append [(start body, t₀)]] at h
    have hstep := (Run.snoc_iff.mp h).2
    have hfirst := (hpeer [] _ [] rfl c₀ hrecv).1
    have hall : received [(start body, t₀)] = c₀ := by simp [received, Tick.chunk, hrecv]
    rw [hall]
    exact bodyInv_start hrecv hhead hfirst hstep
  | append_singleton tr p ih =>
    rw [← List.cons_append] at h hpeer ⊢
    obtain ⟨h, hstep⟩ := Run.snoc_iff.mp h
    obtain ⟨hpeer, hlast⟩ := hpeer.of_snoc
    rw [received_snoc]
    exact bodyInv_step (ih h hpeer) hlast hstep

/-- **A call that gets the whole head with the first recv `c₀` and returns
JNHE_OK has returned the body it was sent exactly when `c₀` goes on behind the
head or the body is empty.** -/
theorem returns_body_iff {c₀ : Bytes} {t₀ : Tick} (hC : 0 < C) (hrecv : t₀.recv = some c₀)
    (hhead : r.head <+: c₀) (h : Run (step d) (start body) ((start body, t₀) :: tr) s)
    (hpeer : FromPeer r.bytes ((start body, t₀) :: tr)) (hok : s.phase = .returned JNHE_OK) :
    ReturnsBody r s ↔ r.head.length < c₀.length ∨ r.body = [] := by
  have hinv := bodyInv_run hrecv hhead h hpeer
  rw [BodyInv, hok] at hinv
  rcases hinv rfl with ⟨hfirst, hbody⟩ | ⟨rfl, hzero⟩
  · exact ⟨fun _ => Or.inl hfirst, fun _ => hbody⟩
  · constructor
    · rintro ⟨hlen, -⟩
      right
      refine List.eq_nil_of_length_eq_zero ?_
      omega
    · rintro (hlt | hnil)
      · exact absurd hlt (lt_irrefl _)
      · refine ⟨?_, ?_⟩
        · rw [hzero, hnil]
          exact (Nat.min_zero C).symm
        · rw [hzero, List.take_zero, List.take_zero]

theorem fromPeer_single {stream : Bytes} (hne : c ≠ []) (hpre : c <+: stream) :
    FromPeer stream [(s, Tick.received c)] := by
  refine fromPeer_nil.snoc fun c' hc' => ?_
  obtain rfl := Option.some.inj hc'
  exact ⟨hpre, fun h => absurd h hne⟩

/-- A stream that comes with one recv, and the end of the connection. -/
theorem fromPeer_closed (hne : c ≠ []) :
    FromPeer c [(s, Tick.received c), (u, Tick.received [])] := by
  have hall : received [(s, Tick.received c)] = c := by
    simp [received, Tick.chunk, Tick.received]
  refine (fromPeer_single hne List.prefix_rfl).snoc (p := (u, Tick.received [])) ?_
  intro c' hc'
  obtain rfl := Option.some.inj hc'
  rw [hall, List.append_nil]
  exact ⟨List.prefix_rfl, fun _ => Or.inr rfl⟩

/-- The reply "12" to a caller with room for two bytes: the first comes with the
head, the second alone, and then there is no room. -/
theorem returns_body_of_two_recvs :
    ∃ s : Jnh 2, s.phase = .returned JNHE_OK ∧ ReturnsBody (.timeNow [49, 50]) s := by
  have hexec : ((step .fetchTime (start (.zeros 2))
      (.received ((Reply.timeNow [49, 50]).head ++ [49]))).bind fun s₁ =>
        (step .fetchTime s₁ (.received [50])).bind fun s₂ =>
          (step .fetchTime s₂ (.received [])).map fun s => (s₂.space, s.phase)) =
      some (0, .returned JNHE_OK) := by decide +kernel
  obtain ⟨s₁, h₁, hexec⟩ := Option.bind_eq_some_iff.mp hexec
  obtain ⟨s₂, h₂, hexec⟩ := Option.bind_eq_some_iff.mp hexec
  obtain ⟨s, h, heq⟩ := Option.map_eq_some_iff.mp hexec
  obtain ⟨hspace, hphase⟩ := Prod.mk.inj heq
  refine ⟨s, hphase, (returns_body_iff (by decide) rfl (List.prefix_append _ [49])
    (((Run.snoc Run.nil h₁).snoc h₂).snoc h)
    (((fromPeer_single (by decide) ⟨[50], rfl⟩).snoc ?_).snoc ?_) hphase).mpr
      (Or.inl (by decide))⟩
  · intro c hc
    obtain rfl := Option.some.inj hc
    exact ⟨List.prefix_rfl, fun hnil => absurd hnil (by decide)⟩
  · intro c hc
    obtain rfl := Option.some.inj hc
    exact ⟨List.prefix_rfl, fun _ => Or.inl hspace⟩

/-- **The body is lost when the first recv ends with the head**: the call
returns JNHE_OK with no body, and a reply of one byte was sent. -/
theorem loses_body_behind_head :
    ∃ s : Jnh 127, Run (step .fetchTime) (start (.zeros 127))
        [(start (.zeros 127), .received (Reply.timeNow [49]).head)] s ∧
      FromPeer (Reply.timeNow [49]).bytes
        [(start (.zeros 127), .received (Reply.timeNow [49]).head)] ∧
      s.phase = .returned JNHE_OK ∧ ¬ ReturnsBody (.timeNow [49]) s := by
  have hstep : (step .fetchTime (start (.zeros 127))
      (.received (Reply.timeNow [49]).head)).map (fun s => (s.phase, s.bodyLen)) =
        some (.returned JNHE_OK, 0) := by decide +kernel
  obtain ⟨s, hs, heq⟩ := Option.map_eq_some_iff.mp hstep
  obtain ⟨hphase, hlen⟩ := Prod.mk.inj heq
  refine ⟨s, Run.snoc Run.nil hs, fromPeer_single (by decide) ⟨[49], rfl⟩, hphase, ?_⟩
  rintro ⟨hmin, -⟩
  rw [hlen] at hmin
  exact absurd hmin (by decide)

end Jnh
