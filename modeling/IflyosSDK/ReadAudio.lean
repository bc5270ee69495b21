/-
The recorder's loop: from `snd_pcm_readi` to the observers.

`_alsa_read_pcm` reads until it has 320 samples, over any number of short reads
and recovered errors.  `alsa_read_tdmin_pcm` compares what it returns with
`chunk_bytes`, and `Recorder::readAudio` hands the buffer to every observer.
The format is ORIGIN_OUTPUT, the one that `main` sets.

* `Reading.pass` — one pass of the loop of `_alsa_read_pcm`;
* `Recording.step` — the task starts, or `snd_pcm_readi` returns;
* `Recording.calls` — the calls of a run, with what was read in each;
* `Recording.captured` — **observers get the successful calls, whole and in
  order**, and nothing else is lost.
-/
import IflyosSDK.Memory
import IflyosSDK.Runs

namespace MicAgent

/-! ### `_alsa_read_pcm` -/

def eagain : Int := 11

def epipe : Int := 32

def estrpipe : Int := 86

/-- `FRAME_TIME * SAMPLES_PER_MS`. -/
def frameSamples : ℕ := 20 * 16

/-- `sizeof(m_caeBuf) / 2`. -/
def caeBytes : ℕ := frameSamples * 4 / 2

/-- The variables of `_alsa_read_pcm`; `data` is an offset into `data_buf`, in
bytes. -/
structure Reading where
  data : ℕ
  count : ℕ
  realCount : ℕ
  deriving DecidableEq, Repr

/-- The loop is left with a value, or goes on. -/
inductive Pass
  | loops (rd : Reading)
  | returns (ret : Int)
  deriving DecidableEq, Repr

namespace Reading

def start : Reading := ⟨0, frameSamples, 0⟩

/-- What `snd_pcm_readi` may return for `count` samples, and what it stores. -/
def Admissible (rd : Reading) (r : Int) (data : Bytes) : Prop :=
  (0 ≤ r → r ≤ rd.count) ∧ data.length = 2 * r.toNat

instance (rd : Reading) (r : Int) (data : Bytes) : Decidable (rd.Admissible r data) :=
  inferInstanceAs (Decidable (_ ∧ _))

/-- The end of the loop's body. -/
def advance (rd : Reading) (r : Int) : Reading :=
  if 0 < r then ⟨rd.data + 2 * r.toNat, rd.count - r.toNat, rd.realCount + r.toNat⟩ else rd

/-- `while(count > 0)`. -/
def next (rd : Reading) (r : Int) : Pass :=
  if 0 < (rd.advance r).count then .loops (rd.advance r)
  else .returns (2 * (rd.advance r).realCount)

/-- One pass of the loop, in which `snd_pcm_readi` returns `r`. -/
def pass (rd : Reading) (r : Int) : Pass :=
  -- `snd_pcm_wait`
  if r = -eagain ∨ 0 ≤ r ∧ r < rd.count then rd.next r
  -- `snd_pcm_recover`
  else if r = -epipe then rd.next r
  else if r = -estrpipe then rd.next r
  else if r < 0 then .returns (-1)
  else rd.next r

theorem advance_eq (rd : Reading) (r : Int) :
    rd.advance r = ⟨rd.data + 2 * r.toNat, rd.count - r.toNat, rd.realCount + r.toNat⟩ := by
  rw [advance]
  split
  · rfl
  · rename_i hr
    rw [show r.toNat = 0 by omega, Nat.mul_zero, Nat.add_zero, Nat.sub_zero, Nat.add_zero]

/-- A pass fails without having read anything, reads the last samples, or leaves
some to read. -/
theorem pass_cases (rd : Reading) {r : Int} (hr : 0 ≤ r → r ≤ rd.count) :
    (r < 0 ∧ rd.pass r = .returns (-1)) ∨
      (rd.count = r.toNat ∧ rd.pass r = .returns (2 * (rd.realCount + r.toNat : ℕ))) ∨
      (r.toNat < rd.count ∧ rd.pass r =
        .loops ⟨rd.data + 2 * r.toNat, rd.count - r.toNat, rd.realCount + r.toNat⟩) := by
  have hpass : (r < 0 ∧ rd.pass r = .returns (-1)) ∨ rd.pass r = rd.next r := by
    rw [pass]
    split
    · exact Or.inr rfl
    split
    · exact Or.inr rfl
    split
    · exact Or.inr rfl
    split
    · rename_i hneg
      exact Or.inl ⟨hneg, rfl⟩
    · exact Or.inr rfl
  rcases hpass with hpass | hpass
  · exact Or.inl hpass
  rw [hpass, next, advance_eq]
  rcases Nat.lt_or_ge r.toNat rd.count with hlt | hge
  · have hpos : 0 < rd.count - r.toNat := by omega
    exact Or.inr (Or.inr ⟨hlt, if_pos hpos⟩)
  · have hzero : ¬ 0 < rd.count - r.toNat := by omega
    exact Or.inr (Or.inl ⟨by omega, if_neg hzero⟩)

end Reading

/-- `alsa_read_tdmin_pcm`, from what `_alsa_read_pcm` returns. -/
def alsaReadTdminPcm (chunkBytes : ℕ) (ret : Int) : Int := if ret = chunkBytes then 0 else ret

/-! ### `readAudio` -/

/-- `m_observers`. -/
structure ObserverSet (ι : Type*) where
  list : List ι
  nodup : list.Nodup
  deriving DecidableEq

/-- A call of an observer. -/
inductive Callback (ι : Type*)
  | onWakeWord (o : ι)
  | onAudio (o : ι) (frame : Bytes)
  deriving DecidableEq

/-- The recorder's task.  `reading` is there while it is in `_alsa_read_pcm`,
and `callbacks` holds every call of an observer so far. -/
structure Recording (ι : Type*) (chunkBytes : ℕ) where
  dataBuf : Buffer chunkBytes
  reading : Option Reading
  observers : ObserverSet ι
  callbacks : List (Callback ι)

namespace Recording

variable {ι : Type*} {chunkBytes : ℕ}

/-- The recorder has started; `malloc` leaves some bytes in the buffer. -/
def start (dataBuf : Buffer chunkBytes) (observers : ObserverSet ι) : Recording ι chunkBytes :=
  ⟨dataBuf, none, observers, []⟩

/-- The worker runs the task, or `snd_pcm_readi` stores `data` and returns `r`;
`detect` is what the detector would say about the buffer then. -/
inductive Action
  | readAudio
  | readi (r : Int) (data : Bytes) (detect : Int)
  deriving DecidableEq

/-- `readAudio` behind `alsa_read_tdmin_pcm`. -/
def deliver (s : Recording ι chunkBytes) (ret detect : Int) : Recording ι chunkBytes :=
  if alsaReadTdminPcm chunkBytes ret ≠ 0 then s
  else if chunkBytes ≠ caeBytes then s
  else
    let wake := if 0 < detect then s.observers.list.map Callback.onWakeWord else []
    let audio := s.observers.list.map fun o => Callback.onAudio o s.dataBuf.bytes
    { s with callbacks := s.callbacks ++ wake ++ audio }

/-- The loop goes on, or `_alsa_read_pcm` returns. -/
def onPass (s : Recording ι chunkBytes) (detect : Int) : Pass → Recording ι chunkBytes
  | .loops rd => { s with reading := some rd }
  | .returns ret => deliver { s with reading := none } ret detect

/-- A store outside the buffer has no result. -/
def step (s : Recording ι chunkBytes) : Action → Option (Recording ι chunkBytes)
  | .readAudio =>
    match s.reading with
    | none => some { s with reading := some .start }
    | some _ => none
  | .readi r data detect =>
    match s.reading with
    | none => none
    | some rd =>
      if rd.Admissible r data then
        (s.dataBuf.store rd.data data).map fun buf =>
          onPass { s with dataBuf := buf } detect (rd.pass r)
      else none

/-! ### What was read and what was delivered -/

/-- A call of `_alsa_read_pcm`: what each `readi` of it has stored, and the
value returned. -/
structure Call where
  chunks : List Bytes
  ret : Int
  deriving DecidableEq

/-- The call has not ended in an error return. -/
def Call.Ok (c : Call) : Prop := c.ret ≠ -1

instance (c : Call) : Decidable c.Ok := inferInstanceAs (Decidable (_ ≠ _))

def Call.samples (c : Call) : Bytes := c.chunks.flatten

/-- The calls that have returned, and what the one in progress has stored. -/
structure Calls where
  ended : List Call
  current : List Bytes
  deriving DecidableEq

def Calls.next (c : Calls) : Recording ι chunkBytes × Action → Calls
  | (_, .readAudio) => c
  | (s, .readi r data _) =>
    match s.reading.map (Reading.pass · r) with
    | some (.returns ret) => ⟨c.ended ++ [⟨c.current ++ [data], ret⟩], []⟩
    | _ => ⟨c.ended, c.current ++ [data]⟩

/-- The calls of a run. -/
def calls (tr : List (Recording ι chunkBytes × Action)) : Calls := tr.foldl Calls.next ⟨[], []⟩

/-- What a step stores. -/
def stored : Action → Bytes
  | .readAudio => []
  | .readi _ data _ => data

/-- Everything that was read in a run. -/
def samplesRead (tr : List (Recording ι chunkBytes × Action)) : Bytes :=
  tr.flatMap fun p => stored p.2

/-- The frames that an observer has got. -/
def framesOf [DecidableEq ι] (o : ι) (callbacks : List (Callback ι)) : List Bytes :=
  callbacks.filterMap fun
    | .onAudio o' frame => if o' = o then some frame else none
    | .onWakeWord _ => none

variable {s u : Recording ι chunkBytes} {a : Action} {tr : List (Recording ι chunkBytes × Action)}

theorem calls_snoc (p : Recording ι chunkBytes × Action) :
    calls (tr ++ [p]) = (calls tr).next p := by
  rw [calls, List.foldl_append]
  rfl

theorem samplesRead_snoc (p : Recording ι chunkBytes × Action) :
    samplesRead (tr ++ [p]) = samplesRead tr ++ stored p.2 := by
  rw [samplesRead, List.flatMap_append, List.flatMap_singleton]
  rfl

section Frames

variable [DecidableEq ι]

theorem framesOf_append (o : ι) (cs ds : List (Callback ι)) :
    framesOf o (cs ++ ds) = framesOf o cs ++ framesOf o ds := List.filterMap_append

theorem framesOf_wake (o : ι) (os : List ι) : framesOf o (os.map .onWakeWord) = [] := by
  simp [framesOf, List.filterMap_map]

/-- The loop over the observers calls each of them once. -/
theorem framesOf_audio {o : ι} {os : List ι} (hos : os.Nodup) (ho : o ∈ os) (frame : Bytes) :
    framesOf o (os.map fun o' => .onAudio o' frame) = [frame] := by
  have hnone : ∀ ps : List ι, o ∉ ps →
      framesOf o (ps.map fun o' => .onAudio o' frame) = [] := by
    intro ps hps
    rw [framesOf, List.filterMap_eq_nil_iff]
    rintro c hc
    obtain ⟨o', ho', rfl⟩ := List.mem_map.mp hc
    have hne : o' ≠ o := by
      rintro rfl
      exact hps ho'
    exact if_neg hne
  obtain ⟨ps, qs, rfl⟩ := List.append_of_mem ho
  obtain ⟨-, hqs, hdisjoint⟩ := List.nodup_append.mp hos
  have hps : o ∉ ps := fun h => hdisjoint o h o List.mem_cons_self rfl
  rw [List.map_append, framesOf_append, hnone ps hps, List.map_cons,
    ← List.singleton_append, framesOf_append, hnone qs (List.nodup_cons.mp hqs).1]
  simp [framesOf]

end Frames

/-! ### One step -/

/-- The first task starts. -/
theorem step_readAudio (h : step s .readAudio = some u) :
    s.reading = none ∧ u = { s with reading := some .start } := by
  rw [step] at h
  split at h
  · rename_i hnone
    exact ⟨hnone, (Option.some.inj h).symm⟩
  · cases h

/-- What a return of `snd_pcm_readi` does. -/
theorem step_readi {r detect : Int} {data : Bytes} (h : step s (.readi r data detect) = some u) :
    ∃ rd buf, s.reading = some rd ∧ rd.Admissible r data ∧
      s.dataBuf.store rd.data data = some buf ∧
      u = onPass { s with dataBuf := buf } detect (rd.pass r) := by
  rw [step] at h
  split at h
  · cases h
  · rename_i rd hrd
    split at h
    · rename_i hadm
      obtain ⟨buf, hbuf, rfl⟩ := Option.map_eq_some_iff.mp h
      exact ⟨rd, buf, hrd, hadm, hbuf, rfl⟩
    · cases h

/-- The data of a `readi` join those of its call. -/
theorem calls_readi {rd : Reading} (hrd : s.reading = some rd)
    (tr : List (Recording ι chunkBytes × Action)) (r detect : Int) (data : Bytes) :
    calls (tr ++ [(s, .readi r data detect)]) =
      match rd.pass r with
      | .returns ret => ⟨(calls tr).ended ++ [⟨(calls tr).current ++ [data], ret⟩], []⟩
      | .loops _ => ⟨(calls tr).ended, (calls tr).current ++ [data]⟩ := by
  rw [calls_snoc, Calls.next, hrd, Option.map_some]
  cases rd.pass r with
  | returns ret => rfl
  | loops rd' => rfl

/-- The frames of the calls that did not fail. -/
def Calls.frames (c : Calls) : List Bytes := (c.ended.filter Call.Ok).map Call.samples

/-- Everything the calls have read. -/
def Calls.samples (c : Calls) : Bytes := c.ended.flatMap Call.samples ++ c.current.flatten

/-- The call in progress: what it has read stands at the start of the buffer,
and the variables say how much that is. -/
structure InProgress (s : Recording ι 640) (current : List Bytes) (rd : Reading) : Prop where
  data : rd.data = 2 * rd.realCount
  count : rd.realCount + rd.count = frameSamples
  pos : 0 < rd.count
  buffer : s.dataBuf.bytes.take rd.data = current.flatten

/-- **What observers get and what is lost**: each has the frames of the
successful calls, 640 bytes each, and everything read is in a call. -/
structure Captured [DecidableEq ι] (observers : ObserverSet ι)
    (tr : List (Recording ι 640 × Action)) (s : Recording ι 640) : Prop where
  frames : ∀ o ∈ observers.list, framesOf o s.callbacks = (calls tr).frames
  size : ∀ frame ∈ (calls tr).frames, frame.length = 640
  samples : samplesRead tr = (calls tr).samples
  idle : s.reading = none → (calls tr).current = []

structure Inv [DecidableEq ι] (os : ObserverSet ι)
    (tr : List (Recording ι 640 × Action)) (s : Recording ι 640) : Prop where
  observers : s.observers = os
  captured : Captured os tr s
  reading : ∀ rd, s.reading = some rd → InProgress s (calls tr).current rd

/-- What a `readi` stores joins its call. -/
theorem samples_readi {rd : Reading} {r detect : Int} {data : Bytes} (hrd : s.reading = some rd)
    (h : samplesRead tr = (calls tr).samples) :
    samplesRead (tr ++ [(s, .readi r data detect)]) =
      (calls (tr ++ [(s, .readi r data detect)])).samples := by
  rw [samplesRead_snoc, h, calls_readi hrd]
  cases rd.pass r with
  | returns ret => simp [Calls.samples, Call.samples, stored]
  | loops rd' => simp [Calls.samples, stored]

theorem frames_of_failed {c : Calls} {d : Call} {current : List Bytes} (hd : ¬ d.Ok) :
    Calls.frames ⟨c.ended ++ [d], current⟩ = c.frames := by
  simp [Calls.frames, List.filter_append, hd]

theorem frames_of_ok {c : Calls} {d : Call} {current : List Bytes} (hd : d.Ok) :
    Calls.frames ⟨c.ended ++ [d], current⟩ = c.frames ++ [d.samples] := by
  simp [Calls.frames, List.filter_append, hd]

section Keeps

variable [DecidableEq ι] {os : ObserverSet ι} {s u : Recording ι 640} {rd : Reading}
  {r detect : Int} {data : Bytes} {buf : Buffer 640} {tr : List (Recording ι 640 × Action)}

theorem inv_start (dataBuf : Buffer 640) (os : ObserverSet ι) : Inv os [] (start dataBuf os) := by
  refine ⟨rfl, ⟨fun _ _ => rfl, ?_, rfl, fun _ => rfl⟩, ?_⟩
  · intro frame hframe
    cases hframe
  · intro rd hrd
    cases hrd

/-- A step after which the observers have what they had. -/
theorem Inv.of_quiet {a : Action} (hinv : Inv os tr s) (hobservers : u.observers = s.observers)
    (hcallbacks : u.callbacks = s.callbacks)
    (hframes : (calls (tr ++ [(s, a)])).frames = (calls tr).frames)
    (hsamples : samplesRead (tr ++ [(s, a)]) = (calls (tr ++ [(s, a)])).samples)
    (hidle : u.reading = none → (calls (tr ++ [(s, a)])).current = [])
    (hreading : ∀ rd, u.reading = some rd → InProgress u (calls (tr ++ [(s, a)])).current rd) :
    Inv os (tr ++ [(s, a)]) u := by
  refine ⟨hobservers.trans hinv.observers, ⟨?_, ?_, hsamples, hidle⟩, hreading⟩
  · rw [hframes, hcallbacks]
    exact hinv.captured.frames
  · rw [hframes]
    exact hinv.captured.size

omit [DecidableEq ι] in
/-- What `readi` has stored stands behind what was there. -/
theorem take_readi (hprog : InProgress s (calls tr).current rd) (hadm : rd.Admissible r data)
    (hbuf : s.dataBuf.store rd.data data = some buf) :
    buf.bytes.take (rd.data + 2 * r.toNat) = ((calls tr).current ++ [data]).flatten := by
  have hle := Buffer.length_le_of_store hbuf
  rw [← hadm.2, Buffer.take_of_store hbuf (by omega), hprog.buffer, List.flatten_append,
    List.flatten_singleton]

/-- The call fails. -/
theorem inv_failed (hinv : Inv os tr s) (hrd : s.reading = some rd)
    (hpass : rd.pass r = .returns (-1)) :
    Inv os (tr ++ [(s, .readi r data detect)])
      (onPass { s with dataBuf := buf } detect (rd.pass r)) := by
  have hcalls := calls_readi hrd tr r detect data
  rw [hpass] at hcalls ⊢
  have hframes : (calls (tr ++ [(s, .readi r data detect)])).frames = (calls tr).frames := by
    rw [hcalls]
    exact frames_of_failed (not_not.mpr rfl)
  refine hinv.of_quiet rfl rfl hframes (samples_readi hrd hinv.captured.samples) ?_ ?_
  · intro _
    rw [hcalls]
  · intro rd' hrd'
    cases hrd'

/-- The call returns with a whole frame, and every observer gets it. -/
theorem inv_delivered (hinv : Inv os tr s) (hrd : s.reading = some rd)
    (hadm : rd.Admissible r data) (hbuf : s.dataBuf.store rd.data data = some buf)
    (hcount : rd.count = r.toNat)
    (hpass : rd.pass r = .returns (2 * (rd.realCount + r.toNat : ℕ))) :
    Inv os (tr ++ [(s, .readi r data detect)])
      (onPass { s with dataBuf := buf } detect (rd.pass r)) := by
  have hprog := hinv.reading rd hrd
  have hreal : rd.realCount + r.toNat = 320 := by
    rw [← hcount, hprog.count]
    rfl
  have hcalls := calls_readi hrd tr r detect data
  rw [hpass, hreal] at hcalls ⊢
  -- the buffer is the frame
  have hframe : ((calls tr).current ++ [data]).flatten = buf.bytes := by
    rw [← take_readi hprog hadm hbuf, hprog.data, ← Nat.mul_add, hreal]
    exact List.take_of_length_le (by rw [buf.size])
  have hframes : (calls (tr ++ [(s, .readi r data detect)])).frames =
      (calls tr).frames ++ [buf.bytes] := by
    have hok : Call.Ok ⟨(calls tr).current ++ [data], 2 * (320 : ℕ)⟩ := by
      show (2 * (320 : ℕ) : Int) ≠ -1
      omega
    rw [hcalls, ← hframe]
    exact frames_of_ok hok
  have hdeliver : ∀ o ∈ os.list, framesOf o
      (deliver { s with dataBuf := buf, reading := none } (2 * (320 : ℕ)) detect).callbacks =
        framesOf o s.callbacks ++ [buf.bytes] := by
    intro o ho
    rw [deliver, if_neg (by decide), if_neg (by decide), hinv.observers, framesOf_append,
      framesOf_append, framesOf_audio os.nodup ho]
    split
    · rw [framesOf_wake, List.append_nil]
    · rw [show framesOf o [] = [] from rfl, List.append_nil]
  refine ⟨?_, ⟨?_, ?_, ?_, ?_⟩, ?_⟩
  · exact hinv.observers
  · intro o ho
    rw [hframes, ← hinv.captured.frames o ho]
    exact hdeliver o ho
  · intro frame hmem
    rw [hframes, List.mem_append, List.mem_singleton] at hmem
    rcases hmem with hmem | rfl
    · exact hinv.captured.size frame hmem
    · exact buf.size
  · exact samples_readi hrd hinv.captured.samples
  · intro _
    rw [hcalls]
  · intro rd' hrd'
    cases hrd'

/-- The loop goes on. -/
theorem inv_loops (hinv : Inv os tr s) (hrd : s.reading = some rd)
    (hadm : rd.Admissible r data) (hbuf : s.dataBuf.store rd.data data = some buf)
    (hcount : r.toNat < rd.count)
    (hpass : rd.pass r =
      .loops ⟨rd.data + 2 * r.toNat, rd.count - r.toNat, rd.realCount + r.toNat⟩) :
    Inv os (tr ++ [(s, .readi r data detect)])
      (onPass { s with dataBuf := buf } detect (rd.pass r)) := by
  have hprog := hinv.reading rd hrd
  have hcalls := calls_readi hrd tr r detect data
  rw [hpass] at hcalls ⊢
  have hframes : (calls (tr ++ [(s, .readi r data detect)])).frames = (calls tr).frames := by
    rw [hcalls]
    rfl
  refine hinv.of_quiet rfl rfl hframes (samples_readi hrd hinv.captured.samples) ?_ ?_
  · intro hnone
    cases hnone
  · intro rd' hrd'
    obtain rfl := Option.some.inj hrd'
    have hdata := hprog.data
    have htotal := hprog.count
    refine ⟨by dsimp only; omega, by dsimp only; omega, by dsimp only; omega, ?_⟩
    rw [hcalls]
    exact take_readi hprog hadm hbuf

theorem inv_step {a : Action} (hinv : Inv os tr s) (h : step s a = some u) :
    Inv os (tr ++ [(s, a)]) u := by
  cases a with
  | readAudio =>
    obtain ⟨hnone, rfl⟩ := step_readAudio h
    have hcalls : calls (tr ++ [(s, .readAudio)]) = calls tr := calls_snoc _
    have hidle := hinv.captured.idle hnone
    refine hinv.of_quiet rfl rfl (congrArg Calls.frames hcalls) ?_ ?_ ?_
    · rw [samplesRead_snoc, hcalls, hinv.captured.samples]
      exact List.append_nil _
    · intro _
      rw [hcalls, hidle]
    · intro rd hrd
      obtain rfl := Option.some.inj hrd
      rw [hcalls, hidle]
      exact ⟨rfl, rfl, by decide, rfl⟩
  | readi r data detect =>
    obtain ⟨rd, buf, hrd, hadm, hbuf, rfl⟩ := step_readi h
    rcases rd.pass_cases hadm.1 with ⟨-, hpass⟩ | ⟨hcount, hpass⟩ | ⟨hcount, hpass⟩
    · exact inv_failed hinv hrd hpass
    · exact inv_delivered hinv hrd hadm hbuf hcount hpass
    · exact inv_loops hinv hrd hadm hbuf hcount hpass

/-- `snd_pcm_readi` never stores outside `data_buf`. -/
theorem exists_step (hinv : Inv os tr s) (hrd : s.reading = some rd)
    (hadm : rd.Admissible r data) : ∃ u, step s (.readi r data detect) = some u := by
  have hprog := hinv.reading rd hrd
  have hdata := hprog.data
  have hcount : rd.realCount + rd.count = 320 := hprog.count
  have hr := hadm.1
  have hlen := hadm.2
  obtain ⟨buf, hbuf⟩ := s.dataBuf.exists_store (show rd.data + data.length ≤ 640 by omega)
  have hstep : step s (.readi r data detect) =
      (s.dataBuf.store rd.data data).map fun buf =>
        onPass { s with dataBuf := buf } detect (rd.pass r) := by
    rw [step, hrd]
    exact if_pos hadm
  rw [hstep, hbuf]
  exact ⟨_, rfl⟩

/-- **Captured audio is whole.**  In every run, each observer has got the frames
of the successful calls in their order, and each `readi` that the library may
answer finds room in the buffer. -/
theorem captured {dataBuf : Buffer 640} (h : Run step (start dataBuf os) tr s) :
    Captured os tr s ∧ ∀ rd r data detect, s.reading = some rd → rd.Admissible r data →
      ∃ u, step s (.readi r data detect) = some u := by
  have hinv : Inv os tr s :=
    h.history (inv_start dataBuf os) fun _ _ _ _ ht hu => inv_step ht hu
  exact ⟨hinv.captured, fun _ _ _ _ hrd hadm => exists_step hinv hrd hadm⟩

end Keeps

def twoObservers : ObserverSet Bool := ⟨[true, false], by decide⟩

set_option maxRecDepth 4000 in
/-- A frame in two reads with an overrun in between, and a call that fails. -/
theorem captured_with_overrun :
    ∃ tr s, Run step (start (Buffer.zeros 640) twoObservers) tr s ∧
      framesOf false s.callbacks = (calls tr).frames ∧
      (calls tr).ended.map Call.ret = [640, -1] := by
  have h : Run step (start (Buffer.zeros 640) twoObservers) _ _ :=
    Run.of_exec [.readAudio, .readi 100 (List.replicate 200 1) 0, .readi (-epipe) [] 0,
      .readi 220 (List.replicate 440 2) 1, .readAudio, .readi 5 (List.replicate 10 3) 0,
      .readi (-5) [] 0] rfl
  exact ⟨_, _, h, (captured h).1.frames false (by decide), rfl⟩

end Recording

end MicAgent
