/-
PCMPlayer: a request while the stream is active.

`play`'s task assigns the buffer, the offset and the volume one after the other
on the executor's thread.  The call that would stop the stream first is commented
out, so the callback may come between any two of the assignments.

* `PcmReplay.step` — a call of `play`, one step of a task, or a callback;
* `PcmReplay.task_alone` — undisturbed, the steps of a task are one step of
  `PcmStream`;
* `PcmReplay.CallbackSound` — a callback stays inside the current buffer;
* `PcmReplay.callbacks_sound_iff` — **the runs in which every callback does**.
-/
import IflyosSDK.PcmStream

namespace MicAgent

/-- The next step of a task of `play` that has assigned the buffer. -/
inductive PlayAt
  | setOffset (vol : Int)
  | setVol (vol : Int)
  | startStream
  deriving DecidableEq, Repr

/-- The player, its stream, and the task of `play` that the executor is in.
`crashed` says that a callback has read outside the current buffer. -/
structure PcmReplay where
  mapBuffer : List (String × Cache)
  executor : ThreadPool PlayerTask
  task : Option PlayAt
  currentPlaying : Option Cache
  sampleOffset : ℕ
  vol : Int
  stream : StreamState
  finishing : Bool
  crashed : Bool
  deriving DecidableEq

namespace PcmReplay

inductive Action
  | play (file : String) (vol : Int)
  | work
  | callback (frameCount : ℕ)
  | finishedCallback
  deriving DecidableEq, Repr

/-- The constructor has cached the files and opened the stream. -/
def new (mapBuffer : List (String × Cache)) : PcmReplay :=
  ⟨mapBuffer, .new, none, none, 0, 100, .stopped, false, false⟩

variable (s : PcmReplay)

/-- What the callback works on. -/
def player : Option PcmPlayer := s.currentPlaying.map fun c => ⟨c, s.sampleOffset, s.vol⟩

/-- `PCMPlayer::play`. -/
def play (file : String) (vol : Int) : Option PcmReplay :=
  match s.mapBuffer.lookup file with
  | none => some s
  | some c => (s.executor.enqueue (.play c vol)).map fun e => { s with executor := e }

/-- The next step on the executor's thread: a task begins, or goes on. -/
def work : Option PcmReplay :=
  match s.task with
  | none =>
    match s.executor.take with
    | none => none
    | some (.play c vol, e) =>
      some { s with executor := e, currentPlaying := some c, task := some (.setOffset vol) }
    | some (.stop, e) => some { s with executor := e, stream := .stopped }
  | some (.setOffset vol) => some { s with sampleOffset := 0, task := some (.setVol vol) }
  | some (.setVol vol) =>
    some { s with
      vol := if vol < 0 then 0 else if 100 < vol then 100 else vol
      task := some .startStream }
  | some .startStream =>
    some { s with stream := if s.stream = .stopped then .active else s.stream, task := none }

/-- PortAudio calls `paStreamCallback`. -/
def callback (frameCount : ℕ) : Option PcmReplay :=
  if s.stream = .active then
    match s.player.bind (·.paStreamCallback frameCount) with
    | none => some { s with crashed := true }
    | some (.paContinue, _, p) => some { s with sampleOffset := p.sampleOffset }
    | some (.paComplete, _, p) =>
      some { s with sampleOffset := p.sampleOffset, stream := .finished, finishing := true }
  else none

/-- `PCMPlayer::PaStreamFinishedCallback`. -/
def paStreamFinishedCallback : Option PcmReplay :=
  if s.finishing then
    (s.executor.enqueue .stop).map fun e => { s with executor := e, finishing := false }
  else none

def step (s : PcmReplay) (a : Action) : Option PcmReplay :=
  if s.crashed then none
  else
    match a with
    | .play file vol => s.play file vol
    | .work => s.work
    | .callback frameCount => s.callback frameCount
    | .finishedCallback => s.paStreamFinishedCallback

/-- A callback finds the offset inside the current buffer: `remaining` does not
wrap, and no sample outside the buffer is read. -/
def CallbackSound (p : PcmReplay × Action) : Prop :=
  ∀ frameCount, p.2 = .callback frameCount → ∃ pl, p.1.player = some pl ∧
    pl.sampleOffset ≤ pl.currentPlaying.samples.length ∧
    pl.remaining = pl.currentPlaying.samples.length - pl.sampleOffset ∧
    (pl.paStreamCallback frameCount).isSome

/-- The task has assigned the buffer, but not yet the offset. -/
def assigning : Bool :=
  match s.task with
  | some (.setOffset _) => true
  | _ => false

def Action.isCallback : Action → Bool
  | .callback _ => true
  | .play _ _ | .work | .finishedCallback => false

/-- A callback that comes between the assignments of the buffer and of the offset
finds that no more samples have been played than the new file has. -/
def Fits (p : PcmReplay × Action) : Prop :=
  p.2.isCallback = true → p.1.assigning = true →
    ∀ c ∈ p.1.currentPlaying, p.1.sampleOffset ≤ c.samples.length

instance (p : PcmReplay × Action) : Decidable (Fits p) :=
  inferInstanceAs (Decidable (_ → _ → ∀ c ∈ p.1.currentPlaying, _ ≤ _))

/-- The offset lies in the current buffer unless a new one has just been
assigned. -/
structure Inv (s : PcmReplay) : Prop where
  active : s.stream = .active → s.currentPlaying ≠ none
  begun : s.task ≠ none → s.currentPlaying ≠ none
  offset : ∀ c ∈ s.currentPlaying, s.assigning = false → s.sampleOffset ≤ c.samples.length

/-! ### One step -/

section Step

variable {s} {u : PcmReplay} {a : Action} {n : ℕ}

theorem inv_new (mapBuffer : List (String × Cache)) : (new mapBuffer).Inv where
  active := fun h => by cases h
  begun := fun h => absurd rfl h
  offset := fun c h => by cases h

theorem enqueue_frame (hs : s.Inv) (t : PlayerTask)
    (h : (s.executor.enqueue t).map (fun e => { s with executor := e }) = some u) : u.Inv := by
  obtain ⟨e, -, rfl⟩ := Option.map_eq_some_iff.mp h
  exact ⟨hs.active, hs.begun, hs.offset⟩

theorem inv_work (hs : s.Inv) (h : s.work = some u) : u.Inv := by
  rw [work] at h
  split at h
  · rename_i htask
    split at h
    · cases h
    · cases h
      -- the buffer is new, the offset that of the one before
      exact ⟨fun _ => Option.some_ne_none _, fun _ => Option.some_ne_none _,
        fun c _ hne => by cases hne⟩
    · cases h
      exact ⟨fun hactive => (by cases hactive), hs.begun, hs.offset⟩
  · rename_i vol htask
    cases h
    have hcurrent := hs.begun (by rw [htask]; exact Option.some_ne_none _)
    exact ⟨fun _ => hcurrent, fun _ => hcurrent, fun c _ _ => Nat.zero_le _⟩
  · rename_i vol htask
    cases h
    have hcurrent := hs.begun (by rw [htask]; exact Option.some_ne_none _)
    exact ⟨fun _ => hcurrent, fun _ => hcurrent, fun c hc _ => hs.offset c hc (by
      rw [assigning, htask])⟩
  · rename_i htask
    cases h
    have hcurrent := hs.begun (by rw [htask]; exact Option.some_ne_none _)
    exact ⟨fun _ => hcurrent, fun _ => hcurrent, fun c hc _ => hs.offset c hc (by
      rw [assigning, htask])⟩

/-- Where a callback that finds the offset in the buffer leaves it. -/
theorem offset_of_callback {p q : PcmPlayer} {r : PaResult} {out : List Int16}
    (hp : p.sampleOffset ≤ p.currentPlaying.samples.length)
    (h : p.paStreamCallback n = some (r, out, q)) :
    q.sampleOffset ≤ p.currentPlaying.samples.length := by
  rw [PcmPlayer.paStreamCallback_eq hp] at h
  split at h
  · rename_i hlt
    cases h
    exact hlt.le
  · cases h
    exact hp

theorem callback_cases (h : s.callback n = some u) :
    s.stream = .active ∧ u.currentPlaying = s.currentPlaying ∧ u.task = s.task ∧
      (u.sampleOffset = s.sampleOffset ∨
        ∃ c r out q, s.currentPlaying = some c ∧
          PcmPlayer.paStreamCallback ⟨c, s.sampleOffset, s.vol⟩ n = some (r, out, q) ∧
          u.sampleOffset = q.sampleOffset) := by
  rw [callback] at h
  split at h
  · rename_i hactive
    refine ⟨hactive, ?_⟩
    split at h
    · cases h
      exact ⟨rfl, rfl, Or.inl rfl⟩
    · rename_i out q hq
      obtain ⟨pl, hpl, hcall⟩ := Option.bind_eq_some_iff.mp hq
      obtain ⟨c, hc, rfl⟩ := Option.map_eq_some_iff.mp hpl
      cases h
      exact ⟨rfl, rfl, Or.inr ⟨c, _, out, q, hc, hcall, rfl⟩⟩
    · rename_i out q hq
      obtain ⟨pl, hpl, hcall⟩ := Option.bind_eq_some_iff.mp hq
      obtain ⟨c, hc, rfl⟩ := Option.map_eq_some_iff.mp hpl
      cases h
      exact ⟨rfl, rfl, Or.inr ⟨c, _, out, q, hc, hcall, rfl⟩⟩
  · cases h

theorem inv_callback (hs : s.Inv) (h : s.callback n = some u) : u.Inv := by
  obtain ⟨hactive, hcurrent, htask, hoffset⟩ := callback_cases h
  refine ⟨fun _ => ?_, fun _ => ?_, fun c hc hne => ?_⟩
  · rw [hcurrent]
    exact hs.active hactive
  · rw [hcurrent]
    exact hs.active hactive
  · rw [hcurrent] at hc
    rw [assigning, htask] at hne
    have hle := hs.offset c hc hne
    rcases hoffset with hsame | ⟨c', r, out, q, hc', hcall, hq⟩
    · rw [hsame]
      exact hle
    · obtain rfl : c' = c := Option.some.inj (hc'.symm.trans hc)
      rw [hq]
      exact offset_of_callback hle hcall

theorem inv_step (hs : s.Inv) (h : step s a = some u) : u.Inv := by
  rw [step.eq_def] at h
  split at h
  · cases h
  · cases a with
    | play file vol =>
      simp only [play] at h
      split at h
      · cases h
        exact hs
      · exact enqueue_frame hs _ h
    | work => exact inv_work hs h
    | callback frameCount => exact inv_callback hs h
    | finishedCallback =>
      simp only [paStreamFinishedCallback] at h
      split at h
      · obtain ⟨e, -, rfl⟩ := Option.map_eq_some_iff.mp h
        exact ⟨hs.active, hs.begun, hs.offset⟩
      · cases h

theorem active_of_step (h : step s (.callback n) = some u) : s.stream = .active := by
  rw [step.eq_def] at h
  split at h
  · cases h
  · exact (callback_cases h).1

end Step

/-! ### A task alone -/

section Alone

variable {s} {c : Cache} {vol : Int} {e : ThreadPool PlayerTask}

/-- The player whose tasks are single steps. -/
def toStream (s : PcmReplay) : PcmStream :=
  ⟨s.mapBuffer, s.executor, s.player, s.stream, s.finishing⟩

/-- The steps of a task that no callback interrupts are one step of the player
whose tasks are single steps. -/
theorem task_alone (hcrashed : s.crashed = false) (htask : s.task = none)
    (htake : s.executor.take = some (.play c vol, e)) :
    ∃ tr u, Run step s tr u ∧ (∀ p ∈ tr, p.2 = .work) ∧ u.task = none ∧
      s.toStream.runTask = some u.toStream := by
  have hstep : ∀ t : PcmReplay, t.crashed = false → step t .work = t.work := by
    intro t ht
    rw [step, ht]
    rfl
  have hbuffer : step s .work =
      some { s with executor := e, currentPlaying := some c, task := some (.setOffset vol) } := by
    rw [hstep s hcrashed, work, htask]
    simp only [htake]
  have hoffset : step { s with
      executor := e, currentPlaying := some c, task := some (.setOffset vol) } .work =
        some { s with
          executor := e
          currentPlaying := some c
          sampleOffset := 0
          task := some (.setVol vol) } :=
    hstep _ hcrashed
  have hvol : step { s with
      executor := e, currentPlaying := some c, sampleOffset := 0, task := some (.setVol vol) }
        .work =
        some { s with
          executor := e, currentPlaying := some c, sampleOffset := 0
          vol := if vol < 0 then 0 else if 100 < vol then 100 else vol
          task := some .startStream } :=
    hstep _ hcrashed
  refine ⟨_, _, ((Run.nil.snoc hbuffer).snoc hoffset).snoc hvol |>.snoc (hstep _ hcrashed), by simp,
    rfl, ?_⟩
  rw [PcmStream.runTask, toStream]
  simp only [htake, PcmStream.startStream, PcmPlayer.playing]
  split <;> rfl

end Alone

/-! ### Runs -/

section Runs

variable {s} {files : List (String × Cache)} {tr : List (PcmReplay × Action)}

/-- **Every callback stays inside the current buffer, exactly when those that
come between the assignments of the buffer and of the offset do not find more
samples played than the new file has.** -/
theorem callbacks_sound_iff (h : Run step (new files) tr s) :
    (∀ p ∈ tr, CallbackSound p) ↔ ∀ p ∈ tr, Fits p := by
  refine forall₂_congr fun p hp => ?_
  have hinv : p.1.Inv := h.states (inv_new files) (fun _ _ _ hs hu => inv_step hs hu) p hp
  obtain ⟨u, hu, -⟩ := h.exists_next hp
  obtain ⟨s, a⟩ := p
  cases a with
  | play | work | finishedCallback =>
    exact iff_of_true (fun n hn => by cases hn) fun hn => by cases hn
  | callback n =>
    obtain ⟨c, hc⟩ := Option.ne_none_iff_exists'.mp (hinv.active (active_of_step hu))
    have hplayer : s.player = some ⟨c, s.sampleOffset, s.vol⟩ := by
      rw [player, hc]
      rfl
    constructor
    · rintro hsound - - c' hc'
      obtain ⟨pl, hpl, hle, -⟩ := hsound n rfl
      rw [hplayer, Option.some.injEq] at hpl
      subst hpl
      obtain rfl : c = c' := Option.some.inj (hc.symm.trans hc')
      exact hle
    · rintro hfits m -
      have hle : s.sampleOffset ≤ c.samples.length := by
        cases hassign : s.assigning with
        | true => exact hfits rfl hassign c hc
        | false => exact hinv.offset c hc hassign
      refine ⟨_, hplayer, hle, PcmPlayer.remaining_eq hle, ?_⟩
      rw [PcmPlayer.paStreamCallback_eq hle]
      split <;> rfl

/-- A file of one sample and one of four. -/
def sounds : List (String × Cache) :=
  [("di.pcm", ⟨[1, 0], by decide⟩), ("pop.pcm", ⟨[1, 0, 2, 0, 3, 0, 4, 0], by decide⟩)]

/-- A request for the same file, with a callback between its assignments. -/
theorem callbacks_sound_same_file :
    ∃ tr s, Run step (new sounds) tr s ∧ s.sampleOffset = 1 ∧ ∀ p ∈ tr, CallbackSound p := by
  have h : Run step (new sounds) _ _ :=
    Run.of_exec [.play "pop.pcm" 100, .work, .work, .work, .work, .callback 2,
      .play "pop.pcm" 50, .work, .callback 1, .work, .callback 1, .work, .work] rfl
  exact ⟨_, _, h, rfl, (callbacks_sound_iff h).mpr (by decide)⟩

/-- **A shorter file is requested while a longer one is played**: the callback
between the assignments finds the offset behind the end of the new buffer,
`remaining` wraps, and it reads outside. -/
theorem callback_outside_shorter_file :
    ∃ tr s, Run step (new sounds) tr s ∧ s.crashed = true ∧ ¬ ∀ p ∈ tr, CallbackSound p := by
  have h : Run step (new sounds) _ _ :=
    Run.of_exec [.play "pop.pcm" 100, .work, .work, .work, .work, .callback 3,
      .play "di.pcm" 100, .work] rfl
  refine ⟨_, _, h.snoc (show step _ (.callback 1) = some _ from rfl), rfl, fun hall => ?_⟩
  obtain ⟨pl, hpl, hle, -⟩ := hall _ (List.mem_append_right _ (List.mem_singleton_self _)) 1 rfl
  cases hpl
  exact absurd hle (by decide)

end Runs

end PcmReplay

end MicAgent
