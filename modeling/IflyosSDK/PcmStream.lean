/-
PCMPlayer: its requests and the stream.

`play` enqueues a task that sets the file to be played and starts the stream.
When the callback has written the last sample the stream is finished, though not
stopped; PortAudio then calls the finished callback, which enqueues the task
that stops it.  A stream is started only when it is stopped: a request whose
task runs while the stream is finished is not played, unless a later one is.

* `PcmStream.step` — a call of `play`, a task, or a callback;
* `PcmStream.Begun` — a request is played from its first sample;
* `PcmStream.Inv` — the stream, the stop that is due, and the last request;
* `PcmStream.none_lost_iff` — **when no request is lost**.
-/
import IflyosSDK.PcmPlayer
import IflyosSDK.ThreadPool

namespace MicAgent

/-- PortAudio's stream. -/
inductive StreamState
  | stopped
  | active
  | finished
  deriving DecidableEq, Repr

/-- The lambdas enqueued on `m_executor`. -/
inductive PlayerTask
  | play (c : Cache) (vol : Int)
  | stop
  deriving DecidableEq

/-- The player and its stream.  `finishing` says that the finished callback is
due. -/
structure PcmStream where
  mapBuffer : List (String × Cache)
  executor : ThreadPool PlayerTask
  player : Option PcmPlayer
  stream : StreamState
  finishing : Bool
  deriving DecidableEq

namespace PcmStream

inductive Action
  | play (file : String) (vol : Int)
  | runTask
  | callback (frameCount : ℕ)
  | finishedCallback
  deriving DecidableEq, Repr

/-- The constructor has cached the files and opened the stream. -/
def new (mapBuffer : List (String × Cache)) : PcmStream := ⟨mapBuffer, .new, none, .stopped, false⟩

variable (s : PcmStream)

def enqueue (t : PlayerTask) : Option PcmStream :=
  (s.executor.enqueue t).map fun e => { s with executor := e }

/-- `PCMPlayer::play`. -/
def play (file : String) (vol : Int) : Option PcmStream :=
  match s.mapBuffer.lookup file with
  | none => some s
  | some c => enqueue s (.play c vol)

/-- `Pa_StartStream`. -/
def startStream : PcmStream := if s.stream = .stopped then { s with stream := .active } else s

/-- `Pa_StopStream`. -/
def stopStream : PcmStream := { s with stream := .stopped }

def runTask : Option PcmStream :=
  match s.executor.take with
  | none => none
  | some (.play c vol, e) =>
    some (startStream { s with executor := e, player := some (.playing c vol) })
  | some (.stop, e) => some (stopStream { s with executor := e })

/-- PortAudio calls `paStreamCallback`. -/
def callback (frameCount : ℕ) : Option PcmStream :=
  if s.stream = .active then
    (s.player.bind (·.paStreamCallback frameCount)).map fun r =>
      match r.1 with
      | .paContinue => { s with player := some r.2.2 }
      | .paComplete => { s with player := some r.2.2, stream := .finished, finishing := true }
  else none

/-- `PCMPlayer::PaStreamFinishedCallback`. -/
def paStreamFinishedCallback : Option PcmStream :=
  if s.finishing then enqueue { s with finishing := false } .stop else none

def step (s : PcmStream) : Action → Option PcmStream
  | .play file vol => s.play file vol
  | .runTask => s.runTask
  | .callback frameCount => s.callback frameCount
  | .finishedCallback => s.paStreamFinishedCallback

/-! ### The requests of a run -/

/-- A step that runs the task of a request, with the state of the stream in
front of it. -/
def playStep (p : PcmStream × Action) : Option StreamState :=
  match p.2, p.1.executor.tasks with
  | .runTask, .play _ _ :: _ => some p.1.stream
  | _, _ => none

/-- The requests whose tasks have run, in their order. -/
def plays (tr : List (PcmStream × Action)) : List StreamState := tr.filterMap playStep

/-- A call of the callback that writes the first sample of a file, if the file
has one. -/
def WritesFirst (p : PcmStream × Action) : Prop :=
  ∃ frameCount pl, p.2 = .callback frameCount ∧ p.1.player = some pl ∧ pl.sampleOffset = 0 ∧
    (0 < frameCount ∨ pl.currentPlaying.samples = [])

/-- The `k`-th request has been played from its first sample: its task was the
last one when that sample was written. -/
def Begun (tr : List (PcmStream × Action)) (k : ℕ) : Prop :=
  ∃ tr₁ p tr₂, tr = tr₁ ++ p :: tr₂ ∧ (plays tr₁).length = k ∧ WritesFirst p

/-- Every request is played from its first sample or superseded by a later
one. -/
def NoneLost (tr : List (PcmStream × Action)) : Prop :=
  ∀ k, 1 ≤ k → k ≤ (plays tr).length → Begun tr k ∨ k < (plays tr).length

/-- Nothing is left to do. -/
def Quiescent : Prop := s.executor.tasks = [] ∧ s.finishing = false ∧ s.stream ≠ .active

instance : Decidable (Quiescent s) := inferInstanceAs (Decidable (_ ∧ _))

variable {s} {u : PcmStream} {a : Action} {k : ℕ} {tr : List (PcmStream × Action)}
  {p : PcmStream × Action}

theorem plays_snoc_of_none (h : playStep p = none) : plays (tr ++ [p]) = plays tr := by
  rw [plays, List.filterMap_append, List.filterMap_cons, h]
  exact List.append_nil _

theorem plays_snoc_of_some {st : StreamState} (h : playStep p = some st) :
    plays (tr ++ [p]) = plays tr ++ [st] := by
  rw [plays, List.filterMap_append, List.filterMap_cons, h]
  rfl

theorem Begun.snoc (h : Begun tr k) (p : PcmStream × Action) : Begun (tr ++ [p]) k := by
  obtain ⟨tr₁, q, tr₂, rfl, hk, hq⟩ := h
  exact ⟨tr₁, q, tr₂ ++ [p], by simp, hk, hq⟩

theorem begun_of_writesFirst (h : WritesFirst p) : Begun (tr ++ [p]) (plays tr).length :=
  ⟨tr, p, [], rfl, rfl, h⟩

/-- A step that is no callback begins nothing. -/
theorem begun_of_snoc (h : Begun (tr ++ [p]) k) (hp : ¬ WritesFirst p) : Begun tr k := by
  obtain ⟨tr₁, q, tr₂, htr, hk, hq⟩ := h
  rcases List.eq_nil_or_concat tr₂ with rfl | ⟨tr₃, r, rfl⟩
  · obtain ⟨-, hpq⟩ := List.append_inj' htr rfl
    rw [List.cons.inj hpq |>.1] at hp
    exact absurd hq hp
  · rw [List.concat_eq_append, ← List.cons_append, ← List.append_assoc] at htr
    obtain ⟨rfl, -⟩ := List.append_inj' htr rfl
    exact ⟨tr₁, q, tr₃, rfl, hk, hq⟩

theorem le_of_begun (h : Begun tr k) : k ≤ (plays tr).length := by
  obtain ⟨tr₁, q, tr₂, rfl, rfl, -⟩ := h
  rw [plays, plays, List.filterMap_append, List.length_append]
  omega

/-! ### The invariant -/

structure Inv (tr : List (PcmStream × Action)) (s : PcmStream) : Prop where
  stop : s.executor.tasks.count .stop + s.finishing.toNat =
    if s.stream = .finished then 1 else 0
  offset : ∀ pl, s.player = some pl → pl.sampleOffset ≤ pl.currentPlaying.samples.length
  /-- The last request is played, or is about to be. -/
  kept : ∀ st, (plays tr).getLast? = some st → st ≠ .finished →
    Begun tr (plays tr).length ∨
      s.stream = .active ∧ ∃ pl, s.player = some pl ∧ pl.sampleOffset = 0
  /-- It has found the stream finished, and cannot be played any more. -/
  lost : (plays tr).getLast? = some .finished →
    ¬ Begun tr (plays tr).length ∧ s.stream ≠ .active

theorem inv_new (mapBuffer : List (String × Cache)) : Inv [] (new mapBuffer) where
  stop := rfl
  offset := fun _ h => by cases h
  kept := fun _ h => by cases h
  lost := fun h => by cases h

theorem not_writesFirst (ha : ∀ n, a ≠ .callback n) : ¬ WritesFirst (s, a) := by
  rintro ⟨n, pl, hn, -⟩
  exact ha n hn

theorem enqueue_cases {t : PlayerTask} (h : enqueue s t = some u) :
    ∃ e, e.tasks = s.executor.tasks ++ [t] ∧ u = { s with executor := e } := by
  obtain ⟨e, he, rfl⟩ := Option.map_eq_some_iff.mp h
  exact ⟨e, ThreadPool.tasks_of_enqueue he, rfl⟩

/-- The worker has taken the front task and runs it. -/
theorem runTask_cases (h : s.runTask = some u) :
    ∃ t e, s.executor.tasks = t :: e.tasks ∧
      match t with
      | .play c vol => u = startStream { s with executor := e, player := some (.playing c vol) }
      | .stop => u = stopStream { s with executor := e } := by
  rw [runTask] at h
  split at h
  · cases h
  all_goals
    rename_i htake
    exact ⟨_, _, ThreadPool.tasks_of_take htake, (Option.some.inj h).symm⟩

/-- A step that plays nothing, neither as a task nor as a callback. -/
theorem Inv.of_quiet (hinv : Inv tr s) (hplay : playStep (s, a) = none)
    (ha : ∀ n, a ≠ .callback n)
    (hstop : u.executor.tasks.count .stop + u.finishing.toNat =
      if u.stream = .finished then 1 else 0)
    (hplayer : u.player = s.player) (hactive : u.stream = .active ↔ s.stream = .active) :
    Inv (tr ++ [(s, a)]) u where
  stop := hstop
  offset := fun pl hpl => hinv.offset pl (hplayer ▸ hpl)
  kept := by
    rw [plays_snoc_of_none hplay, hplayer, hactive]
    intro st hst hne
    rcases hinv.kept st hst hne with hbegun | habout
    · exact Or.inl (hbegun.snoc _)
    · exact Or.inr habout
  lost := by
    rw [plays_snoc_of_none hplay, Ne, hactive]
    intro hst
    obtain ⟨hbegun, hne⟩ := hinv.lost hst
    exact ⟨fun h => hbegun (begun_of_snoc h (not_writesFirst ha)), hne⟩

theorem startStream_eq (s : PcmStream) :
    startStream s = { s with stream := if s.stream = .stopped then .active else s.stream } := by
  rw [startStream]
  split
  · rfl
  · rfl

/-- The task of a request runs. -/
theorem inv_playTask {c : Cache} {vol : Int} {e : ThreadPool PlayerTask} (hinv : Inv tr s)
    (htasks : s.executor.tasks = .play c vol :: e.tasks) :
    Inv (tr ++ [(s, .runTask)])
      (startStream { s with executor := e, player := some (.playing c vol) }) := by
  have hplay : playStep (s, .runTask) = some s.stream := by
    rw [playStep, htasks]
  have hlen : (plays (tr ++ [(s, .runTask)])).length = (plays tr).length + 1 := by
    rw [plays_snoc_of_some hplay, List.length_append, List.length_singleton]
  have hlast : (plays (tr ++ [(s, .runTask)])).getLast? = some s.stream := by
    rw [plays_snoc_of_some hplay, List.getLast?_concat]
  have hcount : e.tasks.count .stop = s.executor.tasks.count .stop := by
    rw [htasks, List.count_cons_of_ne (by simp)]
  rw [startStream_eq]
  refine ⟨?_, ?_, ?_, ?_⟩
  · have hstop := hinv.stop
    rw [← hcount] at hstop
    rw [hstop]
    cases s.stream <;> rfl
  · intro pl hpl
    obtain rfl := Option.some.inj hpl
    exact Nat.zero_le _
  · intro st hst hne
    obtain rfl := Option.some.inj (hlast.symm.trans hst)
    refine Or.inr ⟨?_, _, rfl, rfl⟩
    show (if s.stream = .stopped then .active else s.stream) = StreamState.active
    cases hstream : s.stream with
    | stopped | active => rfl
    | finished => exact absurd hstream hne
  · intro hst
    have hfinished : s.stream = .finished := Option.some.inj (hlast.symm.trans hst)
    constructor
    · intro hbegun
      have hle := le_of_begun (begun_of_snoc hbegun (not_writesFirst fun _ => Action.noConfusion))
      omega
    · show (if s.stream = .stopped then .active else s.stream) ≠ StreamState.active
      rw [hfinished]
      exact StreamState.noConfusion

/-- What a call of the callback does: it goes on, or it has written the last
sample. -/
theorem callback_cases {n : ℕ} (hinv : Inv tr s) (h : s.callback n = some u) :
    s.stream = .active ∧ ∃ pl, s.player = some pl ∧
      ((pl.sampleOffset + n < pl.currentPlaying.samples.length ∧
          u = { s with player := some { pl with sampleOffset := pl.sampleOffset + n } }) ∨
        (pl.currentPlaying.samples.length ≤ pl.sampleOffset + n ∧
          u = { s with player := some pl, stream := .finished, finishing := true })) := by
  rw [callback] at h
  split at h
  swap
  · cases h
  rename_i hactive
  obtain ⟨r, hr, hu⟩ := Option.map_eq_some_iff.mp h
  obtain ⟨pl, hpl, hr⟩ := Option.bind_eq_some_iff.mp hr
  refine ⟨hactive, pl, hpl, ?_⟩
  rw [PcmPlayer.paStreamCallback_eq (hinv.offset pl hpl)] at hr
  split at hr
  · rename_i hlt
    rw [← hu, ← Option.some.inj hr]
    exact Or.inl ⟨hlt, rfl⟩
  · rename_i hge
    rw [← hu, ← Option.some.inj hr]
    exact Or.inr ⟨Nat.le_of_not_lt hge, rfl⟩

/-- The last request is played behind the callback, or nothing has been written
of it yet. -/
theorem kept_callback {n : ℕ} {pl : PcmPlayer} (hinv : Inv tr s) (hpl : s.player = some pl) :
    ∀ st, (plays (tr ++ [(s, .callback n)])).getLast? = some st → st ≠ .finished →
      Begun (tr ++ [(s, .callback n)]) (plays (tr ++ [(s, .callback n)])).length ∨
        pl.sampleOffset = 0 ∧ n = 0 ∧ pl.currentPlaying.samples ≠ [] := by
  have hplay : playStep (s, .callback n) = none := rfl
  rw [plays_snoc_of_none hplay]
  intro st hst hne
  rcases hinv.kept st hst hne with hbegun | ⟨-, pl', hpl', hzero⟩
  · exact Or.inl (hbegun.snoc _)
  obtain rfl : pl = pl' := Option.some.inj (hpl.symm.trans hpl')
  by_cases hfirst : 0 < n ∨ pl.currentPlaying.samples = []
  · exact Or.inl (begun_of_writesFirst ⟨n, pl, rfl, hpl, hzero, hfirst⟩)
  · rw [not_or] at hfirst
    exact Or.inr ⟨hzero, by omega, hfirst.2⟩

/-- PortAudio calls the callback. -/
theorem inv_callback {n : ℕ} (hinv : Inv tr s) (h : s.callback n = some u) :
    Inv (tr ++ [(s, .callback n)]) u := by
  obtain ⟨hactive, pl, hpl, hcases⟩ := callback_cases hinv h
  have hstop := hinv.stop
  rw [if_neg (by rw [hactive]; exact StreamState.noConfusion)] at hstop
  -- a request that has been lost leaves no active stream
  have hlost : (plays (tr ++ [(s, .callback n)])).getLast? ≠ some .finished := by
    have hplay : playStep (s, .callback n) = none := rfl
    rw [plays_snoc_of_none hplay]
    exact fun hst => (hinv.lost hst).2 hactive
  rcases hcases with ⟨hlt, rfl⟩ | ⟨hge, rfl⟩
  · refine ⟨?_, ?_, ?_, fun hst => absurd hst hlost⟩
    · rw [if_neg (by rw [hactive]; exact StreamState.noConfusion)]
      exact hstop
    · intro pl' hpl'
      obtain rfl := Option.some.inj hpl'
      exact hlt.le
    · intro st hst hne
      rcases kept_callback hinv hpl st hst hne with hbegun | ⟨hzero, rfl, -⟩
      · exact Or.inl hbegun
      · exact Or.inr ⟨hactive, _, rfl, hzero⟩
  · refine ⟨?_, ?_, ?_, fun hst => absurd hst hlost⟩
    · have hzero := Nat.eq_zero_of_add_eq_zero_right hstop
      rw [if_pos rfl]
      show s.executor.tasks.count .stop + 1 = 1
      rw [hzero]
    · intro pl' hpl'
      obtain rfl := Option.some.inj hpl'
      exact hinv.offset pl hpl
    · intro st hst hne
      rcases kept_callback hinv hpl st hst hne with hbegun | ⟨hzero, rfl, hsamples⟩
      · exact Or.inl hbegun
      · have hpos := List.length_pos_iff.mpr hsamples
        omega

theorem inv_step (hinv : Inv tr s) (h : step s a = some u) : Inv (tr ++ [(s, a)]) u := by
  have hstop := hinv.stop
  cases a with
  | play file vol =>
    rw [step, play] at h
    split at h
    · obtain rfl := Option.some.inj h
      exact hinv.of_quiet rfl (fun _ => Action.noConfusion) hstop rfl Iff.rfl
    · obtain ⟨e, he, rfl⟩ := enqueue_cases h
      refine hinv.of_quiet rfl (fun _ => Action.noConfusion) ?_ rfl Iff.rfl
      show e.tasks.count .stop + s.finishing.toNat = _
      rw [he, List.count_append, List.count_singleton, if_neg (by simp)]
      exact hstop
  | runTask =>
    obtain ⟨t, e, htasks, hu⟩ := runTask_cases h
    cases t with
    | play c vol =>
      obtain rfl : u = _ := hu
      exact inv_playTask hinv htasks
    | stop =>
      obtain rfl : u = _ := hu
      -- the stop that the finished callback has enqueued
      rw [htasks, List.count_cons_self] at hstop
      have hfinished : s.stream = .finished := by
        by_contra hne
        rw [if_neg hne] at hstop
        omega
      rw [if_pos hfinished] at hstop
      refine hinv.of_quiet ?_ (fun _ => Action.noConfusion) ?_ rfl ?_
      · rw [playStep, htasks]
      · show e.tasks.count .stop + s.finishing.toNat = 0
        omega
      · rw [hfinished]
        exact ⟨fun h => (by cases h), fun h => (by cases h)⟩
  | callback n => exact inv_callback hinv h
  | finishedCallback =>
    rw [step, paStreamFinishedCallback] at h
    split at h
    · rename_i hfinishing
      obtain ⟨e, he, rfl⟩ := enqueue_cases h
      refine hinv.of_quiet rfl (fun _ => Action.noConfusion) ?_ rfl Iff.rfl
      show e.tasks.count .stop + 0 = _
      rw [he, ← hstop, hfinishing]
      simp
    · cases h

theorem inv_run {mapBuffer : List (String × Cache)} (h : Run step (new mapBuffer) tr s) :
    Inv tr s :=
  h.history (inv_new mapBuffer) fun _ _ _ _ ht hu => inv_step ht hu

/-- The last request is lost when its task finds the stream finished. -/
theorem Inv.not_noneLost (hinv : Inv tr s) (hlast : (plays tr).getLast? = some .finished) :
    ¬ NoneLost tr := by
  intro hnone
  have hpos : 1 ≤ (plays tr).length := by
    rcases hplays : plays tr with _ | ⟨st, sts⟩
    · rw [hplays] at hlast
      cases hlast
    · exact Nat.succ_le_succ (Nat.zero_le _)
  rcases hnone _ hpos le_rfl with hbegun | hlt
  · exact (hinv.lost hlast).1 hbegun
  · omega

/-- **When no request is lost.**  When nothing is left to do, every request has
been played from its first sample or superseded by a later one, exactly when the
last task of a request has not found the stream finished. -/
theorem none_lost_iff {mapBuffer : List (String × Cache)} (h : Run step (new mapBuffer) tr s)
    (hquiet : Quiescent s) : NoneLost tr ↔ (plays tr).getLast? ≠ some .finished := by
  have hinv := inv_run h
  constructor
  · intro hnone hlast
    exact hinv.not_noneLost hlast hnone
  · intro hlast k hk hle
    rcases Nat.lt_or_eq_of_le hle with hlt | rfl
    · exact Or.inr hlt
    cases hst : (plays tr).getLast? with
    | none =>
      rw [List.getLast?_eq_none_iff] at hst
      rw [hst] at hk
      cases hk
    | some st =>
      have hne : st ≠ .finished := by
        rintro rfl
        exact hlast hst
      rcases hinv.kept st hst hne with hbegun | ⟨hactive, -⟩
      · exact Or.inl hbegun
      · exact absurd hactive hquiet.2.2

/-- A file of two samples. -/
def pop : List (String × Cache) := [("pop.wav", ⟨[1, 0, 2, 0], by decide⟩)]

/-- The second request comes when the stream has been stopped. -/
theorem none_lost_of_stopped :
    ∃ tr s, Run step (new pop) tr s ∧ plays tr = [.stopped, .stopped] ∧ NoneLost tr := by
  have h : Run step (new pop) _ _ :=
    Run.of_exec [.play "pop.wav" 100, .runTask, .callback 1, .callback 4, .finishedCallback,
      .runTask, .play "pop.wav" 50, .runTask, .callback 4, .finishedCallback, .runTask] rfl
  exact ⟨_, _, h, rfl, (none_lost_iff h (by decide)).mpr (by decide)⟩

/-- **A request is lost**: its task runs between the end of the last sound and
the stop of the stream. -/
theorem lost_of_finished :
    ∃ tr s, Run step (new pop) tr s ∧ Quiescent s ∧ plays tr = [.stopped, .finished] ∧
      ¬ NoneLost tr := by
  have h : Run step (new pop) _ _ :=
    Run.of_exec [.play "pop.wav" 100, .runTask, .callback 1, .callback 4, .play "pop.wav" 50,
      .runTask, .finishedCallback, .runTask] rfl
  exact ⟨_, _, h, by decide, rfl, (inv_run h).not_noneLost rfl⟩

end PcmStream

end MicAgent
