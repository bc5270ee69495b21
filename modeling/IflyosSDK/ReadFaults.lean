/-
The loop of `_alsa_read_pcm` on a device with faults.

An overrun (-EPIPE) and a suspend (-ESTRPIPE) last until the loop does something
about them.  Its branch for an overrun recovers the device; the one for a
suspend prints a line, and the next `snd_pcm_readi` fails as this one did.

* `Schedule` — what happens at each call of `snd_pcm_readi`: finitely many
  faults, and samples again and again;
* `loop_of_delivered` — the loop while the device is not suspended;
* `loop_suspended` — the loop behind a suspend;
* `returns_iff` — **the schedules under which `_alsa_read_pcm` returns**.
-/
import IflyosSDK.ReadAudio
import Mathlib.Algebra.BigOperators.Group.Finset.Basic
import Mathlib.Data.Set.Finite.Lattice

namespace MicAgent.ReadFaults

/-! ### The device -/

inductive Device
  | running
  | xrun
  | suspended
  deriving DecidableEq, Repr

/-- What a running device does when `snd_pcm_readi` is called: it has `n`
samples, has none yet (-EAGAIN), or a fault happens. -/
inductive Event
  | reads (n : ℕ)
  | again
  | overrun
  | suspend
  deriving DecidableEq, Repr

/-- The samples that an event has. -/
def Event.samples : Event → ℕ
  | .reads n => n
  | .again | .overrun | .suspend => 0

def Event.IsFault : Event → Prop
  | .reads _ | .again => False
  | .overrun | .suspend => True

namespace Device

/-- `snd_pcm_readi(handle, data, count)`: what it returns, and the device
behind it. -/
def readi (dev : Device) (e : Event) (count : ℕ) : Int × Device :=
  match dev with
  | .xrun => (-epipe, .xrun)
  | .suspended => (-estrpipe, .suspended)
  | .running =>
    match e with
    | .reads n => ((min n count : ℕ), .running)
    | .again => (-eagain, .running)
    | .overrun => (-epipe, .xrun)
    | .suspend => (-estrpipe, .suspended)

/-- `snd_pcm_recover` -/
def recover (_ : Device) : Device := .running

/-- What the branch that `_alsa_read_pcm` takes on `r` does to the device. -/
def branch (dev : Device) (r : Int) (count : ℕ) : Device :=
  -- `snd_pcm_wait`
  if r = -eagain ∨ 0 ≤ r ∧ r < count then dev
  else if r = -epipe then dev.recover
  -- "Need suspend"
  else if r = -estrpipe then dev
  else dev

end Device

/-- At most `n` passes of the loop; the next call of `snd_pcm_readi` is the
`k`-th. -/
def loop (event : ℕ → Event) : ℕ → ℕ → Device → Reading → Option Int
  | 0, _, _, _ => none
  | n + 1, k, dev, rd =>
    match rd.pass (dev.readi (event k) rd.count).1 with
    | .returns ret => some ret
    | .loops rd' =>
      loop event n (k + 1)
        ((dev.readi (event k) rd.count).2.branch (dev.readi (event k) rd.count).1 rd.count) rd'

/-- `_alsa_read_pcm`, with at most `n` passes. -/
def alsaReadPcm (event : ℕ → Event) (n : ℕ) : Option Int := loop event n 0 .running .start

/-- The events at the calls of `snd_pcm_readi`.  Faults happen finitely often,
and a device without a fault has samples within finitely many calls. -/
structure Schedule where
  event : ℕ → Event
  faults : {k | (event k).IsFault}.Finite
  live : ∀ k, ∃ j ≥ k, 0 < (event j).samples ∨ (event j).IsFault

/-- `_alsa_read_pcm` returns. -/
def Returns (σ : Schedule) : Prop := ∃ n ret, alsaReadPcm σ.event n = some ret

/-- The samples of the first `k` events. -/
def delivered (event : ℕ → Event) (k : ℕ) : ℕ := ∑ j ∈ Finset.range k, (event j).samples

variable {event : ℕ → Event} {dev : Device} {rd : Reading} {k n d : ℕ} {r : Int}

theorem delivered_succ (event : ℕ → Event) (k : ℕ) :
    delivered event (k + 1) = delivered event k + (event k).samples :=
  Finset.sum_range_succ _ k

theorem delivered_mono (event : ℕ → Event) : Monotone (delivered event) := by
  refine monotone_nat_of_le_succ fun k => ?_
  rw [delivered_succ]
  exact Nat.le_add_right _ _

/-! ### One pass -/

theorem loop_of_returns {ret : Int} (h : rd.pass (dev.readi (event k) rd.count).1 = .returns ret) :
    loop event (n + 1) k dev rd = some ret := by
  rw [loop, h]

theorem loop_of_loops {rd' : Reading} {dev' : Device}
    (hreadi : dev.readi (event k) rd.count = (r, dev')) (h : rd.pass r = .loops rd') :
    loop event (n + 1) k dev rd = loop event n (k + 1) (dev'.branch r rd.count) rd' := by
  rw [loop, hreadi]
  dsimp only
  rw [h]

/-- A pass on one of the three errors reads nothing and goes on. -/
theorem pass_of_error (hr : r = -eagain ∨ r = -epipe ∨ r = -estrpipe) (hcount : 0 < rd.count) :
    rd.pass r = .loops rd := by
  have hneg : ¬ 0 < r := by
    rcases hr with rfl | rfl | rfl <;> decide
  have hnext : rd.next r = .loops rd := by
    rw [Reading.next, Reading.advance, if_neg hneg, if_pos hcount]
  rw [Reading.pass]
  rcases hr with rfl | rfl | rfl
  · rw [if_pos (Or.inl rfl), hnext]
  · rw [if_pos rfl, hnext, ite_self]
  · rw [if_pos rfl, hnext, ite_self, ite_self]

/-- The variables behind `d` samples. -/
def readingAt (d : ℕ) : Reading := ⟨2 * d, frameSamples - d, d⟩

/-- A pass on a running device that leaves samples to read. -/
theorem loop_running (hk : event k ≠ .suspend) (hd : d + (event k).samples < frameSamples) :
    loop event (n + 1) k .running (readingAt d) =
      loop event n (k + 1) .running (readingAt (d + (event k).samples)) := by
  have hcount : 0 < (readingAt d).count := Nat.sub_pos_of_lt (by omega)
  cases hevent : event k with
  | reads m =>
    rw [hevent] at hd
    have hm : m < (readingAt d).count := Nat.lt_sub_of_add_lt (by rw [Nat.add_comm]; exact hd)
    have hmin : min m (readingAt d).count = m := min_eq_left hm.le
    have hreadi : Device.readi .running (event k) (readingAt d).count = ((m : Int), .running) := by
      rw [hevent, Device.readi, hmin]
    have hbranch : Device.branch .running (m : Int) (readingAt d).count = .running :=
      if_pos (Or.inr ⟨Int.natCast_nonneg m, Int.ofNat_lt.mpr hm⟩)
    have hpass : (readingAt d).pass m = .loops (readingAt (d + m)) := by
      rcases (readingAt d).pass_cases (r := m) (fun _ => Int.ofNat_le.mpr hm.le) with
        ⟨hneg, -⟩ | ⟨heq, -⟩ | ⟨-, hpass⟩
      · omega
      · rw [Int.toNat_natCast] at heq
        omega
      · rw [hpass, Int.toNat_natCast, readingAt, readingAt, Nat.mul_add, Nat.sub_sub]
    rw [loop_of_loops hreadi hpass, hbranch]
    rfl
  | again =>
    have hreadi : Device.readi .running (event k) (readingAt d).count = (-eagain, .running) := by
      rw [hevent, Device.readi]
    rw [loop_of_loops hreadi (pass_of_error (Or.inl rfl) hcount)]
    rfl
  | overrun =>
    -- the branch recovers the device
    have hreadi : Device.readi .running (event k) (readingAt d).count = (-epipe, .xrun) := by
      rw [hevent, Device.readi]
    rw [loop_of_loops hreadi (pass_of_error (Or.inr (Or.inl rfl)) hcount)]
    rfl
  | suspend => exact absurd hevent hk

/-- A pass that reads the last samples. -/
theorem loop_last (hd : d < frameSamples) (hlast : frameSamples ≤ d + (event k).samples) :
    loop event (n + 1) k .running (readingAt d) = some (2 * (frameSamples : Int)) := by
  cases hevent : event k with
  | reads m =>
    rw [hevent] at hlast
    have hm : (readingAt d).count ≤ m := Nat.sub_le_of_le_add (by rw [Nat.add_comm]; exact hlast)
    have hpos : 0 < (readingAt d).count := Nat.sub_pos_of_lt hd
    apply loop_of_returns
    rw [hevent, Device.readi, min_eq_right hm]
    rcases (readingAt d).pass_cases (r := (readingAt d).count) (fun _ => le_rfl) with
      ⟨hneg, -⟩ | ⟨-, hpass⟩ | ⟨hlt, -⟩
    · omega
    · rw [hpass, Int.toNat_natCast]
      have htotal : (readingAt d).realCount + (readingAt d).count = frameSamples :=
        Nat.add_sub_of_le hd.le
      rw [htotal]
    · rw [Int.toNat_natCast] at hlt
      exact absurd hlt (lt_irrefl _)
  | again | overrun | suspend =>
    rw [hevent] at hlast
    exact absurd hlast (by simpa [Event.samples] using hd)

/-- Behind a suspend every pass is the same. -/
theorem loop_suspended (hcount : 0 < rd.count) : loop event n k .suspended rd = none := by
  induction n generalizing k with
  | zero => rfl
  | succ n ih =>
    have hreadi : Device.readi .suspended (event k) rd.count = (-estrpipe, .suspended) := rfl
    rw [loop_of_loops hreadi (pass_of_error (Or.inr (Or.inr rfl)) hcount)]
    exact ih

/-- A suspend with samples left to read. -/
theorem loop_suspend (hk : event k = .suspend) (hd : d < frameSamples) :
    loop event n k .running (readingAt d) = none := by
  have hcount : 0 < (readingAt d).count := Nat.sub_pos_of_lt hd
  cases n with
  | zero => rfl
  | succ n =>
    have hreadi : Device.readi .running (event k) (readingAt d).count =
        (-estrpipe, .suspended) := by
      rw [hk, Device.readi]
    rw [loop_of_loops hreadi (pass_of_error (Or.inr (Or.inr rfl)) hcount)]
    exact loop_suspended hcount

/-! ### The loop -/

/-- Without a suspend the loop comes to the `k`-th call with what has been
delivered before it. -/
theorem loop_of_delivered (hk : ∀ j < k, event j ≠ .suspend)
    (hd : delivered event k < frameSamples) (n : ℕ) :
    loop event (k + n) 0 .running .start =
      loop event n k .running (readingAt (delivered event k)) := by
  induction k generalizing n with
  | zero => rw [Nat.zero_add]; rfl
  | succ k ih =>
    have hbefore : delivered event k < frameSamples :=
      Nat.lt_of_le_of_lt (delivered_mono event (Nat.le_succ k)) hd
    rw [delivered_succ] at hd ⊢
    rw [Nat.add_right_comm, Nat.add_assoc, ih (fun j hj => hk j (by omega)) hbefore,
      loop_running (hk k (Nat.lt_succ_self k)) hd]

/-- More passes do not change what is returned. -/
theorem loop_mono {ret : Int} (h : loop event n k dev rd = some ret) (m : ℕ) :
    loop event (n + m) k dev rd = some ret := by
  induction n generalizing k dev rd with
  | zero => cases h
  | succ n ih =>
    rw [Nat.add_right_comm]
    rw [loop] at h ⊢
    cases hpass : rd.pass (dev.readi (event k) rd.count).1 with
    | returns ret' =>
      rw [hpass] at h
      exact h
    | loops rd' =>
      rw [hpass] at h
      exact ih h

/-- The samples never end. -/
theorem Schedule.exists_delivered (σ : Schedule) (N : ℕ) : ∃ k, N ≤ delivered σ.event k := by
  obtain ⟨K, hK⟩ := σ.faults.bddAbove
  induction N with
  | zero => exact ⟨0, Nat.zero_le _⟩
  | succ N ih =>
    obtain ⟨k, hk⟩ := ih
    -- behind the last fault the device has samples again
    obtain ⟨j, hj, hsamples⟩ := σ.live (max k (K + 1))
    have hfault : ¬ (σ.event j).IsFault := by
      intro hfault
      have hle : j ≤ K := hK hfault
      omega
    have hpos : 0 < (σ.event j).samples := hsamples.resolve_right hfault
    have hmono := delivered_mono σ.event (show k ≤ j by omega)
    refine ⟨j + 1, ?_⟩
    rw [delivered_succ]
    omega

/-- When no suspend comes before the last sample. -/
theorem returns_of_delivered (σ : Schedule)
    (h : ∀ k, σ.event k = .suspend → frameSamples ≤ delivered σ.event k) : Returns σ := by
  classical
  have hex := σ.exists_delivered frameSamples
  -- the call that reads the last samples
  obtain ⟨k, hk⟩ : ∃ k, Nat.find hex = k + 1 := by
    refine Nat.exists_eq_succ_of_ne_zero fun hzero => ?_
    have hspec := Nat.find_spec hex
    rw [hzero, delivered, Finset.sum_range_zero] at hspec
    exact absurd hspec (by decide)
  have hbefore : delivered σ.event k < frameSamples :=
    Nat.lt_of_not_le (Nat.find_min hex (by omega))
  have hlast : frameSamples ≤ delivered σ.event k + (σ.event k).samples := by
    rw [← delivered_succ, ← hk]
    exact Nat.find_spec hex
  have hsuspend : ∀ j < k, σ.event j ≠ .suspend := by
    intro j hj hevent
    have hmono := delivered_mono σ.event hj.le
    have hle := h j hevent
    omega
  refine ⟨k + 1, 2 * (frameSamples : Int), ?_⟩
  rw [alsaReadPcm, loop_of_delivered hsuspend hbefore, loop_last hbefore hlast]

/-- When a suspend comes before the last sample. -/
theorem not_returns_of_suspend (σ : Schedule) (hk : σ.event k = .suspend)
    (hd : delivered σ.event k < frameSamples) : ¬ Returns σ := by
  classical
  rintro ⟨n, ret, hret⟩
  -- the first suspend
  have hex : ∃ k, σ.event k = .suspend := ⟨k, hk⟩
  have hfirst : ∀ j < Nat.find hex, σ.event j ≠ .suspend := fun j => Nat.find_min hex
  have hle : delivered σ.event (Nat.find hex) ≤ delivered σ.event k :=
    delivered_mono σ.event (Nat.find_min' hex hk)
  have hmore := loop_mono hret (Nat.find hex)
  rw [Nat.add_comm, loop_of_delivered hfirst (by omega),
    loop_suspend (Nat.find_spec hex) (by omega)] at hmore
  cases hmore

/-- **`_alsa_read_pcm` returns exactly when no suspend happens before the last of
the 320 samples**, whatever overruns happen. -/
theorem returns_iff (σ : Schedule) :
    Returns σ ↔ ∀ k, σ.event k = .suspend → frameSamples ≤ delivered σ.event k := by
  constructor
  · intro hret k hk
    by_contra hlt
    exact not_returns_of_suspend σ hk (Nat.lt_of_not_le hlt) hret
  · exact returns_of_delivered σ

/-- `e` at the first call, and samples whenever the device is asked behind it. -/
def faultFirst (e : Event) : Schedule where
  event := fun k => if k = 0 then e else .reads frameSamples
  faults := by
    refine (Set.finite_singleton 0).subset fun k hk => ?_
    rcases Nat.eq_zero_or_pos k with rfl | hpos
    · exact Set.mem_singleton 0
    · have hread : (if k = 0 then e else .reads frameSamples).IsFault := hk
      rw [if_neg hpos.ne'] at hread
      exact hread.elim
  live := by
    intro k
    refine ⟨k + 1, Nat.le_succ k, Or.inl ?_⟩
    rw [if_neg (Nat.succ_ne_zero k)]
    decide

/-- An overrun is recovered from. -/
theorem returns_overrun_first : Returns (faultFirst .overrun) := by
  refine (returns_iff (faultFirst .overrun)).mpr fun k hk => ?_
  have hevent : (if k = 0 then Event.overrun else .reads frameSamples) = .suspend := hk
  split at hevent <;> cases hevent

/-- A single suspend is enough for an endless loop. -/
theorem suspended_loop_never_returns : ¬ ∀ σ : Schedule, Returns σ :=
  fun h => not_returns_of_suspend (faultFirst .suspend) (k := 0) rfl (by decide) (h _)

end MicAgent.ReadFaults
