/-
The two deadlines of `jnh_get`.

Times are in milliseconds since boot.  The code computes them in a `long` of 32
bits, which wraps around after 25 days; it uses differences only.  Time passes
in the DNS lookup and in `select`.

* `millis_clockMonotonic` — what the code reads is the uptime modulo 2 ^ 32;
* `JnhCall.step` — a call from its first line: the lookup, the wait for the
  connection, and the iterations of both loops;
* `InTime.timeout1`, `InTime.timeout2`, `InTime.tvUsec` — what a check computes
  is exact as long as no deadline has passed;
* `JnhCall.respects_run` — **no deadline is passed in any run**.
-/
import Mathlib.Algebra.Ring.Nat
import IflyosSDK.Jnh
import IflyosSDK.Runs

/-! ### The clock -/

/-- `struct timespec`, with members of 32 bits. -/
structure Timespec where
  tvSec : Int32
  tvNsec : Int32

/-- `time.tv_sec * 1000 + time.tv_nsec / 1000000` -/
def Timespec.millis (time : Timespec) : Int32 := time.tvSec * 1000 + time.tvNsec / 1000000

/-- What `CLOCK_MONOTONIC` is set to. -/
def clockMonotonic (uptime : ℕ) : Timespec :=
  { tvSec := Int32.ofNat (uptime / 1000), tvNsec := Int32.ofNat (uptime % 1000 * 1000000) }

theorem millis_clockMonotonic (uptime : ℕ) :
    (clockMonotonic uptime).millis = Int32.ofNat uptime := by
  have hnsec : Int32.ofNat (uptime % 1000 * 1000000) / 1000000 = Int32.ofNat (uptime % 1000) := by
    have hlt : uptime % 1000 * 1000000 < 2 ^ 31 := by omega
    have hdiv := Int32.ofNat_div hlt (b := 1000000) (by decide)
    rw [Nat.mul_div_cancel _ (by decide)] at hdiv
    exact hdiv.symm
  calc (clockMonotonic uptime).millis
      = Int32.ofNat (uptime / 1000) * 1000 + Int32.ofNat (uptime % 1000 * 1000000) / 1000000 := rfl
    _ = Int32.ofNat (uptime / 1000 * 1000 + uptime % 1000) := by
      rw [hnsec, Int32.ofNat_add, Int32.ofNat_mul]
      rfl
    _ = Int32.ofNat uptime := by rw [Nat.div_add_mod']

/-- **A difference of two readings is exact**, however long before the machine
was booted. -/
theorem toInt_millis_sub {a b : ℕ} (hle : b ≤ a) (hlt : a - b < 2 ^ 31) :
    ((clockMonotonic a).millis - (clockMonotonic b).millis).toInt = (a : ℤ) - b := by
  rw [millis_clockMonotonic, millis_clockMonotonic, ← Int32.ofNat_sub a b hle,
    Int32.toInt_ofNat_of_lt hlt, Int.ofNat_sub hle]

/-! ### Timeouts -/

namespace Deadlines

/-- `startConnect - startDNS >= timeoutAllMs` -/
def LookupLate (d : Deadlines) : Prop := d.timeoutAllMs ≤ d.startConnect - d.startDNS

instance (d : Deadlines) : Decidable d.LookupLate :=
  inferInstanceAs (Decidable (_ ≤ _))

/-- `timeoutAllMs - (now - startDNS)` -/
def timeout1 (d : Deadlines) (now : Int32) : Int32 := d.timeoutAllMs - (now - d.startDNS)

/-- `timeoutAfterDNSMs - (now - startConnect)` -/
def timeout2 (d : Deadlines) (now : Int32) : Int32 := d.timeoutAfterDNSMs - (now - d.startConnect)

/-- The `tv_usec` that `select` is given; `tv_sec` is 0. -/
def tvUsec (d : Deadlines) (now : Int32) : Int32 :=
  (if d.timeout1 now < d.timeout2 now then d.timeout1 now else d.timeout2 now) * 1000

end Deadlines

/-- Timeouts whose microseconds fit into `tv_usec`. -/
structure Timeouts where
  all : ℕ
  afterDNS : ℕ
  all_pos : 0 < all
  afterDNS_pos : 0 < afterDNS
  all_le : all ≤ 2147483
  afterDNS_le : afterDNS ≤ 2147483

/-- The uptimes that a call has read as `startDNS` and `startConnect`. -/
structure Started where
  dns : ℕ
  connect : ℕ

/-- The locals of a call. -/
def Started.deadlines (start : Started) (t : Timeouts) : Deadlines where
  timeoutAllMs := Int32.ofNat t.all
  timeoutAfterDNSMs := Int32.ofNat t.afterDNS
  startDNS := (clockMonotonic start.dns).millis
  startConnect := (clockMonotonic start.connect).millis

/-- No deadline has passed. -/
structure InTime (t : Timeouts) (start : Started) (uptime : ℕ) : Prop where
  dns_le : start.dns ≤ start.connect
  connect_le : start.connect ≤ uptime
  le_all : uptime ≤ start.dns + t.all
  le_afterDNS : uptime ≤ start.connect + t.afterDNS

section InTime

variable {t : Timeouts} {start : Started} {uptime : ℕ}

/-- What is left of a timeout that has not passed. -/
theorem toInt_timeout_sub {timeout a b : ℕ} (htimeout : timeout ≤ 2147483) (hle : b ≤ a)
    (hpassed : a ≤ b + timeout) :
    (Int32.ofNat timeout - ((clockMonotonic a).millis - (clockMonotonic b).millis)).toInt =
      (b : ℤ) + timeout - a := by
  rw [millis_clockMonotonic, millis_clockMonotonic, ← Int32.ofNat_sub a b hle,
    ← Int32.ofNat_sub timeout (a - b) (by omega), Int32.toInt_ofNat_of_lt (by omega)]
  omega

theorem InTime.timeout1 (h : InTime t start uptime) :
    ((start.deadlines t).timeout1 (clockMonotonic uptime).millis).toInt =
      (start.dns : ℤ) + t.all - uptime :=
  toInt_timeout_sub t.all_le (h.dns_le.trans h.connect_le) h.le_all

theorem InTime.timeout2 (h : InTime t start uptime) :
    ((start.deadlines t).timeout2 (clockMonotonic uptime).millis).toInt =
      (start.connect : ℤ) + t.afterDNS - uptime :=
  toInt_timeout_sub t.afterDNS_le h.connect_le h.le_afterDNS

theorem InTime.timeout1_le_iff (h : InTime t start uptime) :
    (start.deadlines t).timeout1 (clockMonotonic uptime).millis ≤ 0 ↔
      start.dns + t.all ≤ uptime := by
  rw [Int32.le_iff_toInt_le, h.timeout1, Int32.toInt_zero]
  omega

theorem InTime.timeout2_le_iff (h : InTime t start uptime) :
    (start.deadlines t).timeout2 (clockMonotonic uptime).millis ≤ 0 ↔
      start.connect + t.afterDNS ≤ uptime := by
  rw [Int32.le_iff_toInt_le, h.timeout2, Int32.toInt_zero]
  omega

/-- The time given to `select` is what is left until the first deadline. -/
theorem InTime.tvUsec (h : InTime t start uptime) :
    ((start.deadlines t).tvUsec (clockMonotonic uptime).millis).toInt =
      1000 * min ((start.dns : ℤ) + t.all - uptime) (start.connect + t.afterDNS - uptime) := by
  have hdns := h.dns_le
  have hconnect := h.connect_le
  have hall := t.all_le
  have hafterDNS := t.afterDNS_le
  have hle_all := h.le_all
  have hle_afterDNS := h.le_afterDNS
  have hthousand : (1000 : Int32).toInt = 1000 := rfl
  rw [Deadlines.tvUsec, Int32.toInt_mul, hthousand]
  have hmin : (if (start.deadlines t).timeout1 (clockMonotonic uptime).millis <
        (start.deadlines t).timeout2 (clockMonotonic uptime).millis then
      (start.deadlines t).timeout1 (clockMonotonic uptime).millis
      else (start.deadlines t).timeout2 (clockMonotonic uptime).millis).toInt =
        min ((start.dns : ℤ) + t.all - uptime) (start.connect + t.afterDNS - uptime) := by
    split
    · rename_i hlt
      rw [Int32.lt_iff_toInt_lt, h.timeout1, h.timeout2] at hlt
      rw [h.timeout1]
      omega
    · rename_i hlt
      rw [Int32.lt_iff_toInt_lt, h.timeout1, h.timeout2] at hlt
      rw [h.timeout2]
      omega
  rw [hmin, Int.bmod_eq_of_le (by omega) (by omega)]
  omega

end InTime

/-! ### A call from its first line -/

def JNHE_FD_FAIL : ℤ := -100
def JNHE_DNS : ℤ := -200
def JNHE_CONNECT : ℤ := -500
def JNHE_WRITE : ℤ := -600

inductive ConnectRet
  | connected
  /-- `EINPROGRESS` -/
  | inProgress
  | failed
  deriving DecidableEq

/-- The first half of an iteration: whether `clock_gettime` succeeds, for how
long `select` waits if it is called, and whether it reports the socket. -/
structure Wait where
  clock : Bool
  ms : ℕ
  ready : Bool

/-- What happens next, with what the system calls return. -/
inductive Event
  /-- From the first `clock_gettime` to `connect`, and to the request when there
  is nothing to wait for.  The lookup takes `ms`. -/
  | lookup (clock socket : Bool) (ms : ℕ) (clock' server : Bool) (connect : ConnectRet)
      (written : Bool)
  /-- The wait for the connection, `SO_ERROR` and the request. -/
  | connect (w : Wait) (soError written : Bool)
  /-- An iteration of either loop. -/
  | iteration (w : Wait) (recv : Option Bytes)

/-- `clock_gettime` succeeds. -/
def Event.clock : Event → Bool
  | .lookup clock _ _ clock' _ _ _ => clock && clock'
  | .connect w _ _ => w.clock
  | .iteration w _ => w.clock

inductive Stage (C : ℕ)
  | called (body : Buffer C)
  /-- The connection is in progress. -/
  | connecting (start : Started) (body : Buffer C)
  /-- In the loops, or returned from them. -/
  | reading (start : Started) (call : Jnh C)
  | ended (e : ℤ)

/-- Where the two times have been read. -/
def Stage.started {C : ℕ} : Stage C → Option Started
  | .connecting start _ | .reading start _ => some start
  | .called _ | .ended _ => none

structure JnhCall (C : ℕ) where
  uptime : ℕ
  stage : Stage C

/-- When the first half of an iteration is over; `select` returns no later than
`tv_usec` says. -/
def Deadlines.waitEnd (d : Deadlines) (uptime : ℕ) (w : Wait) : Option ℕ :=
  let now := (clockMonotonic uptime).millis
  if ¬ w.clock then some uptime
  else if d.timeout1 now ≤ 0 then some uptime
  else if d.timeout2 now ≤ 0 then some uptime
  else if w.ms * 1000 ≤ (d.tvUsec now).toInt then some (uptime + w.ms)
  else none

def Wait.tick (w : Wait) (uptime : ℕ) (recv : Option Bytes) : Tick where
  clock := if w.clock then some (clockMonotonic uptime).millis else none
  ready := w.ready
  recv := recv

namespace JnhCall

variable {C : ℕ}

def ret (s : JnhCall C) (e : ℤ) : JnhCall C :=
  match s.stage with
  | .reading start call => { s with stage := .reading start (call.ret e) }
  | .called _ | .connecting _ _ | .ended _ => { s with stage := .ended e }

/-- The request is written. -/
def request (uptime : ℕ) (start : Started) (body : Buffer C) (written : Bool) : JnhCall C :=
  ⟨uptime, if written then .reading start (Jnh.start body) else .ended JNHE_WRITE⟩

/-- The lookup has ended at `uptime`. -/
def connect (t : Timeouts) (start : Started) (uptime : ℕ) (body : Buffer C) (server : Bool)
    (connect : ConnectRet) (written : Bool) : JnhCall C :=
  if (start.deadlines t).LookupLate then ⟨uptime, .ended JNHE_TIMEOUT⟩
  else
    match server, connect with
    | false, _ => ⟨uptime, .ended JNHE_DNS⟩
    | true, .failed => ⟨uptime, .ended JNHE_CONNECT⟩
    | true, .connected => request uptime start body written
    | true, .inProgress => ⟨uptime, .connecting start body⟩

def step (t : Timeouts) (s : JnhCall C) : Event → Option (JnhCall C)
  | .lookup clock socket ms clock' server connect written =>
    match s.stage with
    | .called body =>
      if ¬ clock then some (s.ret JNHE_CLOCK)
      else if ¬ socket then some (s.ret JNHE_FD_FAIL)
      else if ¬ ms < 2 ^ 31 then none
      else if ¬ clock' then some ⟨s.uptime + ms, .ended JNHE_CLOCK⟩
      else
        some (JnhCall.connect t { dns := s.uptime, connect := s.uptime + ms } (s.uptime + ms) body
          server connect written)
    | .connecting _ _ | .reading _ _ | .ended _ => none
  | .connect w soError written =>
    match s.stage with
    | .connecting start body =>
      ((start.deadlines t).waitEnd s.uptime w).map fun uptime =>
        match (start.deadlines t).wait (w.tick s.uptime none) with
        | .error e => ⟨uptime, .ended e⟩
        | .ok () =>
          if soError then ⟨uptime, .ended JNHE_CONNECT⟩ else request uptime start body written
    | .called _ | .reading _ _ | .ended _ => none
  | .iteration w recv =>
    match s.stage with
    | .reading start call =>
      ((start.deadlines t).waitEnd s.uptime w).bind fun uptime =>
        (call.step (start.deadlines t) (w.tick s.uptime recv)).map fun call =>
          ⟨uptime, .reading start call⟩
    | .called _ | .connecting _ _ | .ended _ => none

/-! ### No deadline is passed -/

section Runs

variable {t : Timeouts} {s u : JnhCall C} {a : Event} {start : Started} {uptime uptime' : ℕ}
  {w : Wait} {body : Buffer C}

/-- Between two checks no deadline has passed. -/
def DeadlinesInv (t : Timeouts) (s : JnhCall C) : Prop :=
  ∀ start, s.stage.started = some start → InTime t start s.uptime

/-- The wait of a check ends before the deadlines pass. -/
theorem inTime_waitEnd (h : InTime t start uptime)
    (hend : (start.deadlines t).waitEnd uptime w = some uptime') : InTime t start uptime' := by
  rw [Deadlines.waitEnd] at hend
  split_ifs at hend with hclock h1 h2 htv
  all_goals obtain rfl := Option.some.inj hend
  · exact h
  · exact h
  · rw [h.tvUsec] at htv
    exact ⟨h.dns_le, h.connect_le.trans (Nat.le_add_right _ _), by omega, by omega⟩
  · exact h

/-- A call that has ended has no deadlines. -/
theorem deadlinesInv_ended {e : ℤ} : DeadlinesInv t (⟨uptime, .ended e⟩ : JnhCall C) := by
  intro start hstart
  cases hstart

theorem deadlinesInv_ret {e : ℤ} (hstage : s.stage = .called body) :
    DeadlinesInv t (s.ret e) := by
  rw [ret, hstage]
  exact deadlinesInv_ended

theorem deadlinesInv_request {written : Bool} (h : InTime t start uptime) :
    DeadlinesInv t (request uptime start body written) := by
  cases written with
  | false => exact deadlinesInv_ended
  | true =>
    intro start' hstart
    rw [← Option.some.inj hstart]
    exact h

theorem lookupLate_iff {uptime ms : ℕ} (hms : ms < 2 ^ 31) :
    (Started.deadlines ⟨uptime, uptime + ms⟩ t).LookupLate ↔ t.all ≤ ms := by
  have hall := t.all_le
  have hdiff := toInt_millis_sub (Nat.le_add_right uptime ms) (by omega)
  rw [Deadlines.LookupLate, Int32.le_iff_toInt_le]
  show (Int32.ofNat t.all).toInt ≤
    ((clockMonotonic (uptime + ms)).millis - (clockMonotonic uptime).millis).toInt ↔ _
  rw [hdiff, Int32.toInt_ofNat_of_lt (by omega)]
  omega

/-- When the call goes on the lookup has taken less than the first timeout. -/
theorem deadlinesInv_connect {uptime ms : ℕ} {server : Bool} {connect : ConnectRet}
    {written : Bool} (hms : ms < 2 ^ 31) :
    DeadlinesInv t (JnhCall.connect t ⟨uptime, uptime + ms⟩ (uptime + ms) body server connect
      written) := by
  by_cases hlate : (Started.deadlines ⟨uptime, uptime + ms⟩ t).LookupLate
  · rw [JnhCall.connect.eq_def, if_pos hlate]
    exact deadlinesInv_ended
  · rw [JnhCall.connect.eq_def, if_neg hlate]
    rw [lookupLate_iff hms] at hlate
    have hstart : InTime t ⟨uptime, uptime + ms⟩ (uptime + ms) := by
      refine ⟨Nat.le_add_right _ _, le_rfl, ?_, Nat.le_add_right _ _⟩
      show uptime + ms ≤ uptime + t.all
      omega
    cases server with
    | false => exact deadlinesInv_ended
    | true =>
      cases connect with
      | failed => exact deadlinesInv_ended
      | connected => exact deadlinesInv_request hstart
      | inProgress =>
        intro start hstage
        rw [← Option.some.inj hstage]
        exact hstart

/-- What a step from a check does: the wait for the connection ends the call or
lets it write the request, and an iteration is one of `Jnh.step`. -/
theorem step_cases (hstart : s.stage.started = some start) (h : step t s a = some u) :
    (∃ w soError written body, a = .connect w soError written ∧
        s.stage = .connecting start body ∧
        (start.deadlines t).waitEnd s.uptime w = some u.uptime ∧
        ((∃ e, (start.deadlines t).wait (w.tick s.uptime none) = .error e ∧
            u = ⟨u.uptime, .ended e⟩) ∨
          (start.deadlines t).wait (w.tick s.uptime none) = .ok () ∧
            (u = ⟨u.uptime, .ended JNHE_CONNECT⟩ ∨ u = request u.uptime start body written))) ∨
      ∃ w recv call call', a = .iteration w recv ∧ s.stage = .reading start call ∧
        (start.deadlines t).waitEnd s.uptime w = some u.uptime ∧
        call.step (start.deadlines t) (w.tick s.uptime recv) = some call' ∧
        u = ⟨u.uptime, .reading start call'⟩ := by
  cases a with
  | lookup clock socket ms clock' server connect written =>
    rw [step] at h
    split at h
    · rename_i body hstage
      rw [hstage] at hstart
      cases hstart
    all_goals cases h
  | connect w soError written =>
    rw [step] at h
    split at h
    · rename_i start' body hstage
      rw [hstage] at hstart
      obtain rfl := Option.some.inj hstart
      obtain ⟨uptime, hend, hu⟩ := Option.map_eq_some_iff.mp h
      refine Or.inl ⟨w, soError, written, body, rfl, hstage, ?_⟩
      split at hu
      · rename_i e hwait
        subst hu
        exact ⟨hend, Or.inl ⟨e, hwait, rfl⟩⟩
      · rename_i hwait
        split at hu
        · subst hu
          exact ⟨hend, Or.inr ⟨hwait, Or.inl rfl⟩⟩
        · subst hu
          exact ⟨hend, Or.inr ⟨hwait, Or.inr rfl⟩⟩
    all_goals cases h
  | iteration w recv =>
    rw [step] at h
    split at h
    · rename_i start' call hstage
      rw [hstage] at hstart
      obtain rfl := Option.some.inj hstart
      obtain ⟨uptime, hend, h⟩ := Option.bind_eq_some_iff.mp h
      obtain ⟨call', hcall, rfl⟩ := Option.map_eq_some_iff.mp h
      exact Or.inr ⟨w, recv, call, call', rfl, hstage, hend, hcall, rfl⟩
    all_goals cases h

/-- The first step of a call. -/
theorem deadlinesInv_lookup (hstart : s.stage.started = none) (h : step t s a = some u) :
    DeadlinesInv t u := by
  cases a with
  | lookup clock socket ms clock' server connect written =>
    rw [step] at h
    split at h
    · rename_i body hstage
      split_ifs at h with hclock hsocket hms hclock'
      all_goals obtain rfl := Option.some.inj h
      · exact deadlinesInv_connect hms
      · exact deadlinesInv_ended
      · exact deadlinesInv_ret hstage
      · exact deadlinesInv_ret hstage
    all_goals cases h
  | connect w soError written =>
    rw [step] at h
    split at h
    · rename_i start body hstage
      rw [hstage] at hstart
      cases hstart
    all_goals cases h
  | iteration w recv =>
    rw [step] at h
    split at h
    · rename_i start call hstage
      rw [hstage] at hstart
      cases hstart
    all_goals cases h

theorem deadlinesInv_step (hinv : DeadlinesInv t s) (h : step t s a = some u) :
    DeadlinesInv t u := by
  cases hstart : s.stage.started with
  | none => exact deadlinesInv_lookup hstart h
  | some start =>
    rcases step_cases hstart h with ⟨w, _, written, body, -, -, hend, hu⟩ |
      ⟨w, _, call, call', -, -, hend, -, hu⟩
    · have hlater := inTime_waitEnd (hinv start hstart) hend
      rcases hu with ⟨e, -, hu⟩ | ⟨-, hu | hu⟩
      · rw [hu]
        exact deadlinesInv_ended
      · rw [hu]
        exact deadlinesInv_ended
      · rw [hu]
        exact deadlinesInv_request hlater
    · intro start' hstart'
      rw [hu] at hstart'
      rw [← Option.some.inj hstart']
      exact inTime_waitEnd (hinv start hstart) hend

/-- A check at a deadline. -/
theorem wait_of_late (h : InTime t start uptime)
    (hlate : start.dns + t.all ≤ uptime ∨ start.connect + t.afterDNS ≤ uptime)
    (hclock : w.clock = true) (recv : Option Bytes) :
    (start.deadlines t).wait (w.tick uptime recv) = .error JNHE_TIMEOUT ∧
      (start.deadlines t).waitEnd uptime w = some uptime := by
  have hnow : (w.tick uptime recv).clock = some (clockMonotonic uptime).millis := if_pos hclock
  have h1 := h.timeout1_le_iff
  have h2 := h.timeout2_le_iff
  by_cases hall : start.dns + t.all ≤ uptime
  · constructor
    · rw [Deadlines.wait, hnow]
      exact if_pos (h1.mpr hall)
    · rw [Deadlines.waitEnd, if_neg (not_not.mpr hclock)]
      exact if_pos (h1.mpr hall)
  · have hafterDNS := hlate.resolve_left hall
    constructor
    · rw [Deadlines.wait, hnow]
      exact (if_neg (mt h1.mp hall)).trans (if_pos (h2.mpr hafterDNS))
    · rw [Deadlines.waitEnd, if_neg (not_not.mpr hclock)]
      exact (if_neg (mt h1.mp hall)).trans (if_pos (h2.mpr hafterDNS))

/-- What a check at this time computes, and what comes of it. -/
structure Respects (t : Timeouts) (s : JnhCall C) (start : Started) : Prop where
  timeout1 : ((start.deadlines t).timeout1 (clockMonotonic s.uptime).millis).toInt =
    (start.dns : ℤ) + t.all - s.uptime
  timeout2 : ((start.deadlines t).timeout2 (clockMonotonic s.uptime).millis).toInt =
    (start.connect : ℤ) + t.afterDNS - s.uptime
  tvUsec : ((start.deadlines t).tvUsec (clockMonotonic s.uptime).millis).toInt =
    1000 * min ((start.dns : ℤ) + t.all - s.uptime) (start.connect + t.afterDNS - s.uptime)
  /-- `select` is given a time to wait. -/
  positive : ¬ (start.deadlines t).timeout1 (clockMonotonic s.uptime).millis ≤ 0 →
    ¬ (start.deadlines t).timeout2 (clockMonotonic s.uptime).millis ≤ 0 →
    0 < ((start.deadlines t).tvUsec (clockMonotonic s.uptime).millis).toInt
  /-- The wait ends no later than the deadlines. -/
  waits : ∀ a u, step t s a = some u →
    u.uptime ≤ start.dns + t.all ∧ u.uptime ≤ start.connect + t.afterDNS
  /-- A check at a deadline returns, and nothing is received. -/
  late : start.dns + t.all ≤ s.uptime ∨ start.connect + t.afterDNS ≤ s.uptime →
    ∀ a u, a.clock = true → step t s a = some u → u = s.ret JNHE_TIMEOUT

/-- A step from a check takes the time of its wait. -/
theorem waitEnd_of_step (hstart : s.stage.started = some start) (h : step t s a = some u) :
    ∃ w, (start.deadlines t).waitEnd s.uptime w = some u.uptime := by
  rcases step_cases hstart h with ⟨w, _, _, _, -, -, hend, -⟩ | ⟨w, _, _, _, -, -, hend, -⟩
  · exact ⟨w, hend⟩
  · exact ⟨w, hend⟩

/-- A step at a deadline. -/
theorem step_of_late (hstart : s.stage.started = some start) (htime : InTime t start s.uptime)
    (hlate : start.dns + t.all ≤ s.uptime ∨ start.connect + t.afterDNS ≤ s.uptime)
    (hclock : a.clock = true) (h : step t s a = some u) : u = s.ret JNHE_TIMEOUT := by
  rcases step_cases hstart h with ⟨w, _, _, body, rfl, hstage, hend, hu⟩ |
    ⟨w, recv, call, call', rfl, hstage, hend, hcall, hu⟩
  · obtain ⟨hwait, hnow⟩ := wait_of_late htime hlate hclock none
    have huptime : s.uptime = u.uptime := Option.some.inj (hnow.symm.trans hend)
    rw [hwait] at hu
    rw [ret, hstage]
    rcases hu with ⟨e, he, hu⟩ | ⟨hok, -⟩
    · rw [hu, ← huptime, ← Except.error.inj he]
    · cases hok
  · obtain ⟨hwait, hnow⟩ := wait_of_late htime hlate hclock recv
    have huptime : s.uptime = u.uptime := Option.some.inj (hnow.symm.trans hend)
    rw [Jnh.step.eq_def, hwait] at hcall
    rw [hu, ← huptime, ret, hstage]
    split at hcall
    · rw [← Option.some.inj hcall]
    · rw [← Option.some.inj hcall]
    all_goals cases hcall

theorem respects_of_inTime (hstart : s.stage.started = some start)
    (h : InTime t start s.uptime) : Respects t s start where
  timeout1 := h.timeout1
  timeout2 := h.timeout2
  tvUsec := h.tvUsec
  positive := by
    rw [h.timeout1_le_iff, h.timeout2_le_iff, h.tvUsec]
    omega
  waits := by
    intro a u hu
    obtain ⟨w, hend⟩ := waitEnd_of_step hstart hu
    have hlater := inTime_waitEnd h hend
    exact ⟨hlater.le_all, hlater.le_afterDNS⟩
  late := fun hlate _ _ hclock hu => step_of_late hstart h hlate hclock hu

/-- **No deadline is passed in any run**, at whatever uptime the call starts:
what the checks compute is exact, `select` waits for some time and no longer
than the deadlines allow, and a check at a deadline returns JNHE_TIMEOUT; so
does the one behind the lookup. -/
theorem respects_run {uptime₀ : ℕ} {tr : List (JnhCall C × Event)}
    (h : Run (step t) ⟨uptime₀, .called body⟩ tr s) :
    (∀ start, s.stage.started = some start → Respects t s start) ∧
      ∀ body, s.stage = .called body → ∀ ms server connect written u, t.all ≤ ms →
        step t s (.lookup true true ms true server connect written) = some u →
          u = ⟨s.uptime + ms, .ended JNHE_TIMEOUT⟩ := by
  constructor
  · intro start hstart
    refine respects_of_inTime hstart ?_
    refine h.invariant (I := DeadlinesInv t) ?_ (fun _ _ _ => deadlinesInv_step) start hstart
    intro start hstart
    cases hstart
  · intro body hstage ms server connect written u hms hu
    rw [step, hstage] at hu
    simp only [not_true_eq_false, if_false] at hu
    split_ifs at hu with hlt
    rw [JnhCall.connect.eq_def, if_pos ((lookupLate_iff hlt).mpr hms)] at hu
    exact (Option.some.inj hu).symm

/-- The clock wraps around while the connection is set up, which takes as long
as the second timeout allows. -/
def slowConnect : List Event :=
  [.lookup true true 5 true true .inProgress true, .connect ⟨true, 50, true⟩ false true]

def halfSecond : Timeouts where
  all := 500
  afterDNS := 50
  all_pos := by decide
  afterDNS_pos := by decide
  all_le := by decide
  afterDNS_le := by decide

theorem respects_slow_connect :
    ∃ (tr : List (JnhCall 2 × Event)) (s : JnhCall 2),
      Run (step halfSecond) ⟨2147483640, .called (.zeros 2)⟩ tr s ∧
        tr.map Prod.snd = slowConnect ∧ s.uptime = 2147483695 ∧
        ∀ a u, a.clock = true → step halfSecond s a = some u → u = s.ret JNHE_TIMEOUT := by
  have h : Run (step halfSecond) ⟨2147483640, .called (.zeros 2)⟩ _
      ⟨2147483695, .reading ⟨2147483640, 2147483645⟩ (Jnh.start (.zeros 2))⟩ :=
    Run.of_exec (r := (_, _)) slowConnect rfl
  exact ⟨_, _, h, rfl, rfl, ((respects_run h).1 _ rfl).late (Or.inr (by decide))⟩

end Runs

end JnhCall
