/-
PCMPlayer: the callback that fills PortAudio's buffers.

A cached file is an array of bytes, read as 16-bit samples.  At volume 100 the
callback copies bytes; otherwise it scales sample by sample.  It returns
paComplete when it has written the last sample, and zeros behind it.

* `PcmPlayer.paStreamCallback` — the callback; a read outside the cached bytes
  has no result;
* `PcmPlayer.copy_eq` — both ways of copying write the scaled samples;
* `Playing.step` — one call of the callback;
* `Playing.plays_samples` — **what is played is what is cached**, however the
  library cuts the stream.
-/
import Mathlib.Algebra.Ring.Nat
import IflyosSDK.CString
import IflyosSDK.Runs

namespace MicAgent

/-! ### Samples -/

/-- A `short` from its two bytes. -/
def short (lo hi : UInt8) : Int16 := Int16.ofNat (lo.toNat + 256 * hi.toNat)

/-- An array of bytes read as one of `short`. -/
def shorts : Bytes → List Int16
  | lo :: hi :: bs => short lo hi :: shorts bs
  | _ => []

theorem length_shorts (bs : Bytes) : (shorts bs).length = bs.length / 2 := by
  induction bs using shorts.induct with
  | case1 lo hi bs ih =>
    rw [shorts, List.length_cons, ih, List.length_cons, List.length_cons]
    omega
  | case2 bs h =>
    rcases bs with _ | ⟨b, _ | ⟨b', bs⟩⟩
    · rfl
    · simp [shorts]
    · exact absurd rfl (h b b' bs)

theorem shorts_drop (n : ℕ) (bs : Bytes) : shorts (bs.drop (2 * n)) = (shorts bs).drop n := by
  induction n generalizing bs with
  | zero => rfl
  | succ n ih =>
    rcases bs with _ | ⟨b, _ | ⟨b', bs⟩⟩
    · simp [shorts]
    · simp [shorts, Nat.mul_succ]
    · exact ih bs

theorem shorts_take (n : ℕ) (bs : Bytes) : shorts (bs.take (2 * n)) = (shorts bs).take n := by
  induction n generalizing bs with
  | zero => rfl
  | succ n ih =>
    rcases bs with _ | ⟨b, _ | ⟨b', bs⟩⟩
    · simp [shorts]
    · simp [shorts, Nat.mul_succ]
    · exact congrArg (short b b' :: ·) (ih bs)

/-- `((short*)bs)[i]`. -/
def sample (bs : Bytes) (i : ℕ) : Option Int16 :=
  match bs[2 * i]?, bs[2 * i + 1]? with
  | some lo, some hi => some (short lo hi)
  | _, _ => none

theorem sample_eq (bs : Bytes) (i : ℕ) : sample bs i = (shorts bs)[i]? := by
  induction i generalizing bs with
  | zero =>
    rcases bs with _ | ⟨b, _ | ⟨b', bs⟩⟩ <;> rfl
  | succ i ih =>
    rcases bs with _ | ⟨b, _ | ⟨b', bs⟩⟩
    · rfl
    · simp [sample, shorts]
    · exact ih bs

/-- `(short)((float) x * vol / 100)`.  For a `short` and a volume up to 100 the
product is a whole number below 2^24, which a `float` holds, and the quotient
lies at least 1/100 away from the next whole number, further than it is
rounded. -/
def scale (vol : Int) (x : Int16) : Int16 := Int16.ofInt ((x.toInt * vol).tdiv 100)

theorem scale_full (x : Int16) : scale 100 x = x := by
  rw [scale, Int.mul_tdiv_cancel _ (by decide), Int16.ofInt_toInt]

/-! ### The callback -/

/-- A file as the constructor caches it; its size is counted in an `int`. -/
structure Cache where
  bytes : Bytes
  size : bytes.length < 2 ^ 31
  deriving DecidableEq

/-- The samples of a file. -/
def Cache.samples (c : Cache) : List Int16 := shorts c.bytes

/-- `PaStreamCallbackResult`. -/
inductive PaResult
  | paContinue
  | paComplete
  deriving DecidableEq, Repr

structure PcmPlayer where
  currentPlaying : Cache
  sampleOffset : ℕ
  vol : Int
  deriving DecidableEq

namespace PcmPlayer

/-- The task of `play`, in front of `Pa_StartStream`. -/
def playing (c : Cache) (vol : Int) : PcmPlayer :=
  ⟨c, 0, if vol < 0 then 0 else if 100 < vol then 100 else vol⟩

theorem vol_playing {c : Cache} {vol : Int} (h0 : 0 ≤ vol) (h100 : vol ≤ 100) :
    (playing c vol).vol = vol := by
  rw [playing, if_neg (by omega), if_neg (by omega)]

variable (p : PcmPlayer)

/-- `memcpy(output, dataSrcPtr, n * 2)`. -/
def copyBytes (n : ℕ) : Option (List Int16) :=
  if 2 * p.sampleOffset + n * 2 ≤ p.currentPlaying.bytes.length then
    some (shorts ((p.currentPlaying.bytes.drop (2 * p.sampleOffset)).take (n * 2)))
  else none

/-- The loop that scales `n` samples from the one at `i`. -/
def scaleLoop (i : ℕ) : ℕ → Option (List Int16)
  | 0 => some []
  | n + 1 =>
    (sample p.currentPlaying.bytes i).bind fun x =>
      (scaleLoop (i + 1) n).map fun xs => scale p.vol x :: xs

def copy (n : ℕ) : Option (List Int16) :=
  if p.vol = 100 then p.copyBytes n else p.scaleLoop p.sampleOffset n

/-- The unsigned difference of two `size_t`. -/
def remaining : ℕ :=
  (2 ^ 64 + p.currentPlaying.bytes.length / 2 - p.sampleOffset) % 2 ^ 64

/-- `PCMPlayer::paStreamCallback`. -/
def paStreamCallback (frameCount : ℕ) : Option (PaResult × List Int16 × PcmPlayer) :=
  if frameCount < p.remaining then
    (p.copy frameCount).map fun out =>
      (.paContinue, out, { p with sampleOffset := p.sampleOffset + frameCount })
  else
    (p.copy p.remaining).map fun out =>
      (.paComplete, out ++ List.replicate (frameCount - p.remaining) 0, p)

variable {p} {n i : ℕ}

theorem copyBytes_eq (h : p.sampleOffset + n ≤ p.currentPlaying.samples.length) :
    p.copyBytes n = some ((p.currentPlaying.samples.drop p.sampleOffset).take n) := by
  rw [Cache.samples, length_shorts] at h
  rw [copyBytes, if_pos (by omega), Nat.mul_comm n 2, shorts_take, shorts_drop, Cache.samples]

theorem scaleLoop_eq (h : i + n ≤ p.currentPlaying.samples.length) :
    p.scaleLoop i n = some (((p.currentPlaying.samples.drop i).take n).map (scale p.vol)) := by
  induction n generalizing i with
  | zero => rw [scaleLoop, List.take_zero, List.map_nil]
  | succ n ih =>
    have hi : i < p.currentPlaying.samples.length := by omega
    rw [scaleLoop, sample_eq, ← Cache.samples, List.getElem?_eq_getElem hi, Option.bind_some,
      ih (by omega), Option.map_some, List.drop_eq_getElem_cons hi, List.take_succ_cons,
      List.map_cons]

/-- **Both ways of copying write the scaled samples.** -/
theorem copy_eq (h : p.sampleOffset + n ≤ p.currentPlaying.samples.length) :
    p.copy n =
      some (((p.currentPlaying.samples.drop p.sampleOffset).take n).map (scale p.vol)) := by
  rw [copy]
  split
  · rename_i hvol
    have hscale : scale 100 = id := funext scale_full
    rw [copyBytes_eq h, hvol, hscale, List.map_id]
  · exact scaleLoop_eq h

theorem remaining_eq (h : p.sampleOffset ≤ p.currentPlaying.samples.length) :
    p.remaining = p.currentPlaying.samples.length - p.sampleOffset := by
  have hsize := p.currentPlaying.size
  rw [Cache.samples, length_shorts] at h ⊢
  rw [remaining]
  omega

/-- The callback writes samples and goes on, or the last samples and zeros. -/
theorem paStreamCallback_eq (h : p.sampleOffset ≤ p.currentPlaying.samples.length) :
    p.paStreamCallback n =
      if p.sampleOffset + n < p.currentPlaying.samples.length then
        some (.paContinue,
          ((p.currentPlaying.samples.drop p.sampleOffset).take n).map (scale p.vol),
          { p with sampleOffset := p.sampleOffset + n })
      else
        some (.paComplete, (p.currentPlaying.samples.drop p.sampleOffset).map (scale p.vol) ++
          List.replicate (p.sampleOffset + n - p.currentPlaying.samples.length) 0, p) := by
  rw [paStreamCallback, remaining_eq h]
  split
  · rename_i hlt
    rw [if_pos (by omega), copy_eq (by omega), Option.map_some]
  · rename_i hge
    have hzeros : n - (p.currentPlaying.samples.length - p.sampleOffset) =
        p.sampleOffset + n - p.currentPlaying.samples.length := by omega
    rw [if_neg (by omega), copy_eq (by omega), Option.map_some, hzeros,
      List.take_of_length_le (by rw [List.length_drop])]

end PcmPlayer

/-! ### A file from its first sample -/

/-- A file is being played: what the last call of the callback returned, and
everything it has written. -/
structure Playing where
  player : PcmPlayer
  result : Option PaResult
  output : List Int16
  deriving DecidableEq

namespace Playing

def start (c : Cache) (vol : Int) : Playing := ⟨.playing c vol, none, []⟩

/-- The library wants `frameCount` samples, unless the callback has returned
paComplete. -/
def step (s : Playing) (frameCount : ℕ) : Option Playing :=
  if s.result = some .paComplete then none
  else
    (s.player.paStreamCallback frameCount).map fun r => ⟨r.2.2, some r.1, s.output ++ r.2.1⟩

/-- The samples that the library has asked for. -/
def frames (tr : List (Playing × ℕ)) : ℕ := (tr.map Prod.snd).sum

/-- What the last of the calls should return. -/
def expected (c : Cache) (tr : List (Playing × ℕ)) : Option PaResult :=
  if tr = [] then none
  else if frames tr < c.samples.length then some .paContinue
  else some .paComplete

/-- The samples played so far, with zeros behind the last one. -/
def played (c : Cache) (vol : Int) (n : ℕ) : List Int16 :=
  (c.samples.take n).map (scale vol) ++ List.replicate (n - c.samples.length) 0

variable {c : Cache} {vol : Int} {s u : Playing} {n : ℕ} {tr : List (Playing × ℕ)}

theorem frames_snoc (p : Playing × ℕ) : frames (tr ++ [p]) = frames tr + p.2 := by
  simp [frames]

structure Inv (c : Cache) (vol : Int) (tr : List (Playing × ℕ)) (s : Playing) : Prop where
  current : s.player.currentPlaying = c
  volume : s.player.vol = vol
  offset : s.player.sampleOffset ≤ c.samples.length
  position : s.result ≠ some .paComplete → s.player.sampleOffset = frames tr
  result : s.result = expected c tr
  output : s.output = played c vol (frames tr)

theorem inv_start (c : Cache) (vol : Int) :
    Inv c (PcmPlayer.playing c vol).vol [] (start c vol) where
  current := rfl
  volume := rfl
  offset := Nat.zero_le _
  position := fun _ => rfl
  result := rfl
  output := by
    rw [played, frames, List.map_nil, List.sum_nil, List.take_zero, Nat.zero_sub]
    rfl

theorem played_of_lt {m : ℕ} (h : m < c.samples.length) :
    played c vol m = (c.samples.take m).map (scale vol) := by
  rw [played, Nat.sub_eq_zero_of_le h.le, List.replicate_zero, List.append_nil]

theorem inv_step (hinv : Inv c vol tr s) (h : step s n = some u) :
    Inv c vol (tr ++ [(s, n)]) u := by
  rw [step] at h
  split at h
  · cases h
  rename_i hgoes
  have hposition := hinv.position hgoes
  have hoffset : s.player.sampleOffset ≤ s.player.currentPlaying.samples.length := by
    rw [hinv.current]
    exact hinv.offset
  -- what has been played ends where the callback goes on
  have houtput : s.output = (c.samples.take (frames tr)).map (scale vol) := by
    rw [hinv.output, played, ← hposition, Nat.sub_eq_zero_of_le hinv.offset, List.replicate_zero,
      List.append_nil]
  rw [PcmPlayer.paStreamCallback_eq hoffset, hinv.current, hinv.volume, hposition] at h
  have hne : tr ++ [(s, n)] ≠ [] := by simp
  split at h
  · rename_i hlt
    rw [← Option.some.inj h]
    refine ⟨rfl, rfl, hlt.le, ?_, ?_, ?_⟩
    · intro _
      exact (frames_snoc (s, n)).symm
    · rw [expected, if_neg hne, frames_snoc, if_pos hlt]
    · rw [frames_snoc, played_of_lt hlt]
      dsimp only
      rw [houtput, ← List.map_append, ← List.take_add]
  · rename_i hge
    rw [← Option.some.inj h]
    refine ⟨hinv.current, hinv.volume, hinv.offset, ?_, ?_, ?_⟩
    · intro hres
      exact absurd rfl hres
    · rw [expected, if_neg hne, frames_snoc, if_neg hge]
    · rw [frames_snoc, played, List.take_of_length_le (Nat.le_of_not_lt hge)]
      dsimp only
      rw [houtput, ← List.append_assoc, ← List.map_append, List.take_append_drop]

/-- **What is played is what is cached.**  However the library cuts the stream,
the callback goes on until the last sample and then says that it has finished;
its output is the scaled samples with zeros behind them, and it never reads
outside the cached bytes. -/
theorem plays_samples (h0 : 0 ≤ vol) (h100 : vol ≤ 100) (h : Run step (start c vol) tr s) :
    s.result = expected c tr ∧
      s.output = played c vol (frames tr) ∧
      (vol = 100 → s.output = c.samples.take (frames tr) ++
        List.replicate (frames tr - c.samples.length) 0) ∧
      s.player.sampleOffset ≤ c.samples.length ∧
      (s.result ≠ some .paComplete → ∀ n, ∃ u, step s n = some u) := by
  have hinv := h.history (I := Inv c (PcmPlayer.playing c vol).vol) (inv_start c vol)
    fun _ _ _ _ ht hu => inv_step ht hu
  rw [PcmPlayer.vol_playing h0 h100] at hinv
  refine ⟨hinv.result, hinv.output, ?_, hinv.offset, fun hgoes n => ?_⟩
  · rintro rfl
    have hscale : scale 100 = id := funext scale_full
    rw [hinv.output, played, hscale, List.map_id]
  have hoffset : s.player.sampleOffset ≤ s.player.currentPlaying.samples.length := by
    rw [hinv.current]
    exact hinv.offset
  rw [step, if_neg hgoes, PcmPlayer.paStreamCallback_eq hoffset]
  split
  · exact ⟨_, rfl⟩
  · exact ⟨_, rfl⟩

/-- Three samples in two calls, the second of which asks for more. -/
theorem plays_samples_in_two_calls :
    ∃ tr s, Run step (start ⟨[1, 0, 2, 0, 255, 255], by decide⟩ 50) tr s ∧
      s.result = some .paComplete ∧ s.output = [0, 1, 0, 0, 0] := by
  have h : Run step (start ⟨[1, 0, 2, 0, 255, 255], by decide⟩ 50) _ _ := Run.of_exec [2, 3] rfl
  obtain ⟨hresult, houtput, -⟩ := plays_samples (by decide) (by decide) h
  exact ⟨_, _, h, hresult.trans rfl, houtput.trans (by decide)⟩

end Playing

end MicAgent
