/-
The indices the recorder uses on its audio buffers.

The arrays of a `Recorder` have one element a sample and channel; `data_buf` has
the size of the period that ALSA has agreed to.  The loops were written for
other numbers of channels, and `_alsa_read_pcm` for another period.

* `RecorderBuffers.step` — a recorder that is constructed, started, stopped and
  set to any format, with every access to the four buffers;
* `RecorderBuffers.not_inside` — **the constructor always writes behind `m_caeBuf`**;
* `RecorderBuffers.later_inside_iff` — the runs in which nothing else leaves its buffer;
* `RecorderBuffers.later_inside` — such as those with periods of 20 ms at least
  and without SONIC_DECODE.
-/
import IflyosSDK.ReadAudio
import IflyosSDK.Recorder

namespace MicAgent

/-! ### Accesses -/

inductive AudioBuffer
  | dataBuf
  | caeBuf
  | sonicBuf
  | sonicBuf2
  deriving DecidableEq

/-- An access to an element of a buffer that has `size` of them; the elements of
`data_buf` are samples. -/
structure BufferAccess where
  buffer : AudioBuffer
  index : ℕ
  size : ℕ
  deriving DecidableEq

def BufferAccess.Inside (a : BufferAccess) : Prop := a.index < a.size

instance (a : BufferAccess) : Decidable a.Inside := inferInstanceAs (Decidable (_ < _))

/-- `CH_NUM` -/
def chNum : ℕ := 1

/-- `Recorder::Recorder`. -/
def constructorAccesses : List BufferAccess :=
  (List.range frameSamples).flatMap fun i =>
    [0, 1, 2, 3].map fun k => ⟨.caeBuf, i * chNum + k, frameSamples * chNum⟩

/-- `snd_pcm_readi` stores `r` samples at `data`. -/
def readiAccesses (chunkBytes : ℕ) (rd : Reading) (r : Int) : List BufferAccess :=
  (List.range r.toNat).map fun k => ⟨.dataBuf, rd.data / 2 + k, chunkBytes / 2⟩

/-- The samples are put into the upper halves of the elements of `m_caeBuf`. -/
def caeAccesses (chunkBytes : ℕ) : List BufferAccess :=
  (List.range frameSamples).flatMap fun i =>
    (List.range chNum).flatMap fun n =>
      [⟨.dataBuf, i * chNum + n, chunkBytes / 2⟩,
        ⟨.caeBuf, i * chNum + n, frameSamples * chNum⟩]

/-- The first and the third channel of every frame. -/
def sonicAccesses (chunkBytes : ℕ) : List BufferAccess :=
  ((List.range frameSamples).flatMap fun i =>
    [⟨.dataBuf, i * chNum, chunkBytes / 2⟩,
      ⟨.sonicBuf, i, frameSamples⟩]) ++
  (List.range frameSamples).flatMap fun i =>
    [⟨.dataBuf, i * chNum + 2, chunkBytes / 2⟩,
      ⟨.sonicBuf2, i, frameSamples⟩]

/-! ### The recorder -/

/-- What the calls of `_alsa_set_hw_params` return: whether those that are
checked succeed, the two sizes, in frames, and whether there is memory.  A rate
other than the one asked for is reported and used. -/
structure HwParams where
  ok : Bool
  chunkSize : UInt32
  bufferSize : UInt32
  malloc : Bool

/-- `_alsa_set_hw_params`, with the resulting `chunk_bytes`. -/
def alsaSetHwParams (hw : HwParams) : Option UInt32 :=
  if ¬ hw.ok then none
  else if hw.chunkSize = hw.bufferSize then none
  else
    let bitsPerSample : UInt32 := 16
    let bitsPerFrame := bitsPerSample * 1
    let chunkBytes := hw.chunkSize * bitsPerFrame / 8
    if hw.malloc then some chunkBytes else none

/-- `chunkBytes` is there while the recorder is started, and `reading` while its
task is in `_alsa_read_pcm`. -/
structure RecorderBuffers where
  format : Format
  chunkBytes : Option ℕ
  reading : Option Reading
  accesses : List BufferAccess
  deriving DecidableEq

namespace RecorderBuffers

inductive Action
  | setFormat (format : Format)
  | start (hw : HwParams)
  | stop
  | readAudio
  /-- `snd_pcm_readi` returns `r`. -/
  | readi (r : Int)

def construct : RecorderBuffers := ⟨.noneOutput, none, none, constructorAccesses⟩

/-- `readAudio` behind `alsa_read_tdmin_pcm`. -/
def deliverAccesses (format : Format) (chunkBytes : ℕ) (ret : Int) : List BufferAccess :=
  if alsaReadTdminPcm chunkBytes ret ≠ 0 then []
  else if format = .noneOutput then []
  else if chunkBytes ≠ caeBytes then []
  else
    match format with
    | .noneOutput | .originOutput => []
    | .caeOutput => caeAccesses chunkBytes
    | .sonicDecode => sonicAccesses chunkBytes

/-- The loop of `_alsa_read_pcm` goes on, or it returns. -/
def onPass (s : RecorderBuffers) (chunkBytes : ℕ) : Pass → RecorderBuffers
  | .loops rd => { s with reading := some rd }
  | .returns ret =>
    { s with
      reading := none
      accesses := s.accesses ++ deliverAccesses s.format chunkBytes ret }

def step (s : RecorderBuffers) : Action → Option RecorderBuffers
  | .setFormat format => some { s with format := format }
  | .start hw =>
    match s.chunkBytes with
    | none => some { s with chunkBytes := (alsaSetHwParams hw).map UInt32.toNat }
    | some _ => none
  | .stop =>
    -- waits for the task
    match s.reading with
    | none => some { s with chunkBytes := none }
    | some _ => none
  | .readAudio =>
    match s.chunkBytes, s.reading with
    | some _, none => some { s with reading := some .start }
    | _, _ => none
  | .readi r =>
    match s.chunkBytes, s.reading with
    | some chunkBytes, some rd =>
      if 0 ≤ r → r ≤ rd.count then
        some (onPass { s with accesses := s.accesses ++ readiAccesses chunkBytes rd r } chunkBytes
          (rd.pass r))
      else none
    | _, _ => none

def Inside (s : RecorderBuffers) : Prop := ∀ a ∈ s.accesses, a.Inside

variable {s u : RecorderBuffers} {a : Action} {tr : List (RecorderBuffers × Action)}
  {chunkBytes : ℕ} {rd : Reading} {r : Int}

/-- When `snd_pcm_readi` can return `r`, and what `_alsa_read_pcm` does then. -/
theorem step_readi_iff :
    step s (.readi r) = some u ↔
      ∃ chunkBytes rd, s.chunkBytes = some chunkBytes ∧ s.reading = some rd ∧
        (0 ≤ r → r ≤ rd.count) ∧
        u = onPass { s with accesses := s.accesses ++ readiAccesses chunkBytes rd r } chunkBytes
          (rd.pass r) := by
  rw [step]
  constructor
  · intro h
    split at h
    · rename_i chunkBytes rd hchunk hreading
      split at h
      · rename_i hr
        exact ⟨chunkBytes, rd, hchunk, hreading, hr, (Option.some.inj h).symm⟩
      · cases h
    · cases h
  · rintro ⟨chunkBytes, rd, hchunk, hreading, hr, rfl⟩
    rw [hchunk, hreading]
    exact if_pos hr

/-! ### The accesses of a run -/

/-- The accesses of a step. -/
def added (s : RecorderBuffers) : Action → List BufferAccess
  | .readi r =>
    match s.chunkBytes, s.reading with
    | some chunkBytes, some rd =>
      readiAccesses chunkBytes rd r ++
        match rd.pass r with
        | .loops _ => []
        | .returns ret => deliverAccesses s.format chunkBytes ret
    | _, _ => []
  | .setFormat _ | .start _ | .stop | .readAudio => []

theorem accesses_onPass (chunkBytes : ℕ) (pass : Pass) :
    (s.onPass chunkBytes pass).accesses = s.accesses ++
      match pass with
      | .loops _ => []
      | .returns ret => deliverAccesses s.format chunkBytes ret := by
  cases pass with
  | loops rd => exact (List.append_nil _).symm
  | returns ret => rfl

theorem accesses_step (h : step s a = some u) : u.accesses = s.accesses ++ added s a := by
  cases a with
  | setFormat format =>
    rw [← Option.some.inj h]
    exact (List.append_nil _).symm
  | start hw | stop | readAudio =>
    rw [step] at h
    split at h
    · rw [← Option.some.inj h]
      exact (List.append_nil _).symm
    · cases h
  | readi r =>
    obtain ⟨chunkBytes, rd, hchunk, hreading, -, rfl⟩ := step_readi_iff.mp h
    rw [accesses_onPass, List.append_assoc, added, hchunk, hreading]

/-- **The constructor's accesses and those of every step.** -/
theorem accesses_run (h : Run step construct tr s) :
    s.accesses = constructorAccesses ++ tr.flatMap fun p => added p.1 p.2 := by
  refine h.history (I := fun tr s =>
    s.accesses = constructorAccesses ++ tr.flatMap fun p => added p.1 p.2) ?_ ?_
  · exact (List.append_nil _).symm
  · intro tr s a u hs hu
    rw [accesses_step hu, hs, List.flatMap_append, List.flatMap_singleton, List.append_assoc]

/-- The elements behind `m_caeBuf` that the constructor writes. -/
theorem constructor_leaves_iff {i : ℕ} :
    (∃ x ∈ constructorAccesses, x.index = i ∧ ¬ x.Inside) ↔ 320 ≤ i ∧ i ≤ 322 := by
  constructor
  · rintro ⟨x, hx, rfl, hout⟩
    obtain ⟨j, hj, hx⟩ := List.mem_flatMap.mp hx
    obtain ⟨k, hk, rfl⟩ := List.mem_map.mp hx
    have hj : j < 320 := List.mem_range.mp hj
    have hk : k ≤ 3 := by
      simp only [List.mem_cons, List.not_mem_nil, or_false] at hk
      omega
    have hout : ¬ j * 1 + k < 320 := hout
    show 320 ≤ j * 1 + k ∧ j * 1 + k ≤ 322
    omega
  · rintro ⟨hle, hge⟩
    have hk : i - 319 ∈ [0, 1, 2, 3] := by
      simp only [List.mem_cons, List.not_mem_nil]
      omega
    have hx : (⟨.caeBuf, 319 * chNum + (i - 319), frameSamples * chNum⟩ : BufferAccess) ∈
        constructorAccesses :=
      List.mem_flatMap.mpr ⟨319, List.mem_range.mpr (by decide), List.mem_map.mpr ⟨_, hk, rfl⟩⟩
    have hi : 319 * 1 + (i - 319) = i := by omega
    refine ⟨_, hx, hi, ?_⟩
    show ¬ 319 * 1 + (i - 319) < 320
    omega

/-- **The recorder has left `m_caeBuf` before it does anything.** -/
theorem not_inside (h : Run step construct tr s) : ¬ s.Inside := by
  obtain ⟨x, hx, -, hout⟩ := constructor_leaves_iff.mpr ⟨le_refl 320, by omega⟩
  intro hinside
  refine hout (hinside x ?_)
  rw [accesses_run h]
  exact List.mem_append_left _ hx

/-! ### The accesses of the task -/

theorem readiAccesses_inside_iff :
    (∀ x ∈ readiAccesses chunkBytes rd r, x.Inside) ↔
      ¬ (0 < r ∧ chunkBytes / 2 < rd.data / 2 + r.toNat) := by
  constructor
  · rintro h ⟨hr, hlt⟩
    have hlast : rd.data / 2 + (r.toNat - 1) < chunkBytes / 2 :=
      h ⟨.dataBuf, rd.data / 2 + (r.toNat - 1), chunkBytes / 2⟩
        (List.mem_map.mpr ⟨r.toNat - 1, List.mem_range.mpr (by omega), rfl⟩)
    omega
  · intro h x hx
    obtain ⟨k, hk, rfl⟩ := List.mem_map.mp hx
    have hk : k < r.toNat := List.mem_range.mp hk
    show rd.data / 2 + k < chunkBytes / 2
    omega

/-- The repacking stays inside both buffers. -/
theorem caeAccesses_inside {x : BufferAccess} (hx : x ∈ caeAccesses caeBytes) : x.Inside := by
  obtain ⟨i, hi, hx⟩ := List.mem_flatMap.mp hx
  obtain ⟨n, hn, hx⟩ := List.mem_flatMap.mp hx
  have hi : i < 320 := List.mem_range.mp hi
  have hn : n < 1 := List.mem_range.mp hn
  have hlt : i * 1 + n < 320 := by omega
  rcases List.mem_pair.mp hx with rfl | rfl
  · exact hlt
  · exact hlt

/-- The third channel of the last frame stands behind `data_buf`. -/
theorem exists_sonicAccess_outside : ∃ x ∈ sonicAccesses caeBytes, ¬ x.Inside := by
  refine ⟨⟨.dataBuf, 319 * chNum + 2, caeBytes / 2⟩, List.mem_append_right _ ?_, by decide⟩
  exact List.mem_flatMap.mpr ⟨319, List.mem_range.mpr (by decide), List.mem_cons_self⟩

theorem deliverAccesses_inside_iff {format : Format} {ret : Int} :
    (∀ x ∈ deliverAccesses format chunkBytes ret, x.Inside) ↔
      ¬ (format = .sonicDecode ∧ chunkBytes = caeBytes ∧ alsaReadTdminPcm caeBytes ret = 0) := by
  rw [deliverAccesses.eq_def]
  by_cases hchunk : chunkBytes = caeBytes
  · subst hchunk
    by_cases hret : alsaReadTdminPcm caeBytes ret = 0
    · rw [if_neg (not_not.mpr hret)]
      cases format with
      | noneOutput | originOutput => simp
      | caeOutput =>
        refine iff_of_true (fun x hx => caeAccesses_inside hx) ?_
        rintro ⟨hformat, -⟩
        cases hformat
      | sonicDecode =>
        obtain ⟨x, hx, hout⟩ := exists_sonicAccess_outside
        exact iff_of_false (fun h => hout (h x hx)) (not_not.mpr ⟨rfl, rfl, hret⟩)
    · rw [if_pos hret]
      simp [hret]
  · have hnil : (if alsaReadTdminPcm chunkBytes ret ≠ 0 then []
        else if format = .noneOutput then [] else []) = ([] : List BufferAccess) := by
      split
      · rfl
      · exact ite_self _
    rw [if_pos hchunk, hnil]
    simp [hchunk]

/-! ### What else leaves its buffer -/

/-- A step reads more than `data_buf` has room for, or takes a frame apart in
SONIC_DECODE. -/
def Leaves (s : RecorderBuffers) : Action → Prop
  | .readi r => ∃ chunkBytes rd, s.chunkBytes = some chunkBytes ∧ s.reading = some rd ∧
      (0 < r ∧ chunkBytes / 2 < rd.data / 2 + r.toNat ∨
        s.format = .sonicDecode ∧ chunkBytes = caeBytes ∧
          ∃ ret, rd.pass r = .returns ret ∧ alsaReadTdminPcm caeBytes ret = 0)
  | .setFormat _ | .start _ | .stop | .readAudio => False

theorem added_inside_iff : (∀ x ∈ added s a, x.Inside) ↔ ¬ Leaves s a := by
  cases a with
  | readi r =>
    cases hchunk : s.chunkBytes with
    | none => simp [added, Leaves, hchunk]
    | some chunkBytes =>
      cases hreading : s.reading with
      | none => simp [added, Leaves, hchunk, hreading]
      | some rd =>
        have hleaves : Leaves s (.readi r) ↔ 0 < r ∧ chunkBytes / 2 < rd.data / 2 + r.toNat ∨
            s.format = .sonicDecode ∧ chunkBytes = caeBytes ∧
              ∃ ret, rd.pass r = .returns ret ∧ alsaReadTdminPcm caeBytes ret = 0 := by
          simp [Leaves, hchunk, hreading]
        rw [hleaves, added, hchunk, hreading, List.forall_mem_append, readiAccesses_inside_iff,
          not_or]
        refine and_congr_right fun _ => ?_
        cases rd.pass r with
        | loops rd' => simp
        | returns ret =>
          rw [deliverAccesses_inside_iff]
          simp
  | setFormat format | start hw | stop | readAudio =>
    exact iff_of_true (fun x hx => absurd hx List.not_mem_nil) id

/-- **The runs in which nothing but the constructor leaves its buffer.** -/
theorem later_inside_iff (h : Run step construct tr s) :
    (∃ later, s.accesses = constructorAccesses ++ later ∧ ∀ x ∈ later, x.Inside) ↔
      ∀ p ∈ tr, ¬ Leaves p.1 p.2 := by
  have hall : (∀ x ∈ tr.flatMap fun p => added p.1 p.2, x.Inside) ↔ ∀ p ∈ tr, ¬ Leaves p.1 p.2 := by
    constructor
    · intro hin p hp
      exact added_inside_iff.mp fun x hx => hin x (List.mem_flatMap.mpr ⟨p, hp, hx⟩)
    · intro hin x hx
      obtain ⟨p, hp, hx⟩ := List.mem_flatMap.mp hx
      exact added_inside_iff.mpr (hin p hp) x hx
  rw [← hall, accesses_run h]
  constructor
  · rintro ⟨later, heq, hin⟩
    rw [List.append_cancel_left heq]
    exact hin
  · exact fun hin => ⟨_, rfl, hin⟩

/-! ### Periods of 20 ms -/

/-- What has been read of a frame. -/
structure FrameInv (rd : Reading) : Prop where
  data : rd.data = 2 * rd.realCount
  count : rd.realCount + rd.count = frameSamples

theorem frameInv_pass {rd' : Reading} (hinv : FrameInv rd) (hr : 0 ≤ r → r ≤ rd.count)
    (hpass : rd.pass r = .loops rd') : FrameInv rd' := by
  obtain ⟨hdata, hcount⟩ := hinv
  rcases rd.pass_cases hr with ⟨-, h⟩ | ⟨-, h⟩ | ⟨hlt, h⟩
  · rw [h] at hpass
    cases hpass
  · rw [h] at hpass
    cases hpass
  · rw [h] at hpass
    obtain rfl := Pass.loops.inj hpass
    refine ⟨?_, ?_⟩
    · show rd.data + 2 * r.toNat = 2 * (rd.realCount + r.toNat)
      omega
    · show rd.realCount + r.toNat + (rd.count - r.toNat) = frameSamples
      omega

/-- **The last samples of a frame leave every `data_buf` that is smaller than a
frame**, and no other. -/
theorem frame_leaves_iff (hinv : FrameInv rd) (hpos : 0 < rd.count) (hr : rd.count = r.toNat) :
    (0 < r ∧ chunkBytes / 2 < rd.data / 2 + r.toNat) ↔ chunkBytes < 640 := by
  have hdata := hinv.data
  have hcount : rd.realCount + rd.count = 320 := hinv.count
  omega

/-- The step does not set SONIC_DECODE, and agrees to no period under 20 ms. -/
def Fits : Action → Prop
  | .setFormat format => format ≠ .sonicDecode
  | .start hw => ∀ n, alsaSetHwParams hw = some n → 640 ≤ n.toNat
  | .stop | .readAudio | .readi _ => True

structure BuffersInv (s : RecorderBuffers) : Prop where
  format : s.format ≠ .sonicDecode
  chunkBytes : ∀ n, s.chunkBytes = some n → 640 ≤ n
  reading : ∀ rd, s.reading = some rd → FrameInv rd

theorem buffersInv_step (hinv : BuffersInv s) (hfits : Fits a) (h : step s a = some u) :
    BuffersInv u := by
  cases a with
  | setFormat format =>
    rw [← Option.some.inj h]
    exact ⟨hfits, hinv.chunkBytes, hinv.reading⟩
  | start hw =>
    rw [step] at h
    split at h
    · rw [← Option.some.inj h]
      refine ⟨hinv.format, ?_, hinv.reading⟩
      intro n hn
      obtain ⟨m, hm, rfl⟩ := Option.map_eq_some_iff.mp hn
      exact hfits m hm
    · cases h
  | stop =>
    rw [step] at h
    split at h
    · rw [← Option.some.inj h]
      refine ⟨hinv.format, ?_, hinv.reading⟩
      intro n hn
      cases hn
    · cases h
  | readAudio =>
    rw [step] at h
    split at h
    · rw [← Option.some.inj h]
      refine ⟨hinv.format, hinv.chunkBytes, ?_⟩
      intro rd hrd
      rw [← Option.some.inj hrd]
      exact ⟨rfl, rfl⟩
    · cases h
  | readi r =>
    obtain ⟨chunkBytes, rd, -, hreading, hr, rfl⟩ := step_readi_iff.mp h
    cases hpass : rd.pass r with
    | loops rd' =>
      refine ⟨hinv.format, hinv.chunkBytes, ?_⟩
      intro rd'' hrd
      rw [← Option.some.inj hrd]
      exact frameInv_pass (hinv.reading rd hreading) hr hpass
    | returns ret =>
      refine ⟨hinv.format, hinv.chunkBytes, ?_⟩
      intro rd'' hrd
      cases hrd

theorem not_leaves (hinv : BuffersInv s) (h : step s a = some u) : ¬ Leaves s a := by
  cases a with
  | readi r =>
    rintro ⟨chunkBytes, rd, hchunk, hreading, ⟨hr, hlt⟩ | ⟨hformat, -⟩⟩
    · have hle := hinv.chunkBytes chunkBytes hchunk
      obtain ⟨hdata, hcount⟩ := hinv.reading rd hreading
      have hcount : rd.realCount + rd.count = 320 := hcount
      obtain ⟨-, rd', -, hreading', hadm, -⟩ := step_readi_iff.mp h
      obtain rfl : rd = rd' := Option.some.inj (hreading.symm.trans hreading')
      have hadm := hadm (by omega)
      omega
    · exact hinv.format hformat
  | setFormat format | start hw | stop | readAudio => exact id

/-- **With periods of 20 ms at least and without SONIC_DECODE nothing but the
constructor leaves its buffer.** -/
theorem later_inside (h : Run step construct tr s) (hfits : ∀ p ∈ tr, Fits p.2) :
    ∃ later, s.accesses = constructorAccesses ++ later ∧ ∀ x ∈ later, x.Inside := by
  refine (later_inside_iff h).mpr fun p hp => ?_
  have hstart : BuffersInv construct := by
    refine ⟨Format.noConfusion, ?_, ?_⟩
    · intro n hn
      cases hn
    · intro rd hrd
      cases hrd
  have hinv := h.states_of (C := fun _ a => Fits a) hstart
    (fun _ _ _ hi ha hu => buffersInv_step hi ha hu) hfits p hp
  obtain ⟨u, hu, -⟩ := h.exists_next hp
  exact not_leaves hinv hu

/-- Two frames of a started recorder, the first one in the format of `main`. -/
def twoFormats : List Action :=
  [.setFormat .originOutput, .start ⟨true, 320, 3200, true⟩, .readAudio, .readi 320,
    .setFormat .caeOutput, .readAudio, .readi 320]

theorem not_inside_of_two_formats :
    ∃ tr s, Run step construct tr s ∧ tr.map Prod.snd = twoFormats ∧ ¬ s.Inside := by
  have h : Run step construct _ _ := Run.of_exec twoFormats rfl
  exact ⟨_, _, h, rfl, not_inside h⟩

/-- **A recorder that has been constructed has used an index outside its
array.** -/
theorem constructor_writes_outside :
    ∃ x ∈ construct.accesses, x.buffer = .caeBuf ∧ x.index = 320 ∧ x.size = 320 ∧ ¬ x.Inside := by
  have hx : (⟨.caeBuf, 319 * chNum + 1, frameSamples * chNum⟩ : BufferAccess) ∈
      constructorAccesses :=
    List.mem_flatMap.mpr ⟨319, List.mem_range.mpr (by decide), List.mem_map.mpr ⟨1, by decide, rfl⟩⟩
  exact ⟨_, hx, rfl, rfl, rfl, by decide⟩

end RecorderBuffers

end MicAgent
