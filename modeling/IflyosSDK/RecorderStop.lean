/-
Starting and stopping the recorder.

The worker of `m_executor` runs `readAudio`, which enqueues itself again, while
`main` starts and stops the recorder in turn.  `Recorder::stop` sets `m_quit`,
quits the pool, joins the worker and closes the device; the worker may stand
anywhere meanwhile.  Each start begins a session, and every ALSA call and every
call of an observer is logged with the session it belongs to.

* `Rounds.step` — one step of `main` or of the worker;
* `Rounds.Inv` — the queue and the worker at each moment;
* `Rounds.rank` — what the worker can still do once the pool has quit;
* `Rounds.stop_stops` — **`stop` stops**, in every round.
-/
import IflyosSDK.ReadAudio
import IflyosSDK.Recorder

namespace MicAgent

/-- What the recorder calls: ALSA, and its observers. -/
inductive RecorderCall
  | init
  | readi
  | wait
  | recover
  | uninit
  | onWakeWord
  | onAudio
  deriving DecidableEq, Repr

/-- Where the worker stands: in the pool's loop, at the start of `readAudio`, in
`snd_pcm_readi`, in front of its calls of the observers, at its `enqueue`, or
behind its end. -/
inductive Worker
  | waiting
  | entered
  | reading (rd : Reading)
  | delivering (calls : List RecorderCall)
  | reenqueue
  | exited
  deriving DecidableEq, Repr

/-- Where `main` stands: in front of `start`, in front of `stop`, or behind one
of the steps of `stop`. -/
inductive RoundPhase
  | stopped
  | started
  | quitSet
  | quitting
  | joined
  deriving DecidableEq, Repr

structure Rounds where
  recorder : Recorder
  worker : Worker
  main : RoundPhase
  session : ℕ
  chunkBytes : ℕ
  observers : ℕ
  log : List (ℕ × RecorderCall)
  deriving DecidableEq, Repr

namespace Rounds

/-- `main` starts the recorder or takes the next step of `stop`, the worker
takes its next step, or `snd_pcm_readi` returns. -/
inductive Action
  | start (alsa : AlsaInit) (chunkBytes : ℕ)
  | stop
  | worker
  | readi (r detect : Int)
  deriving DecidableEq, Repr

/-- The recorder is constructed and its observers are added. -/
def new (quit : Bool) (format : Format) (observers : ℕ) : Rounds where
  recorder := { Recorder.new quit with format := format }
  worker := .exited
  main := .stopped
  session := 0
  chunkBytes := 0
  observers := observers
  log := []

variable (s : Rounds)

/-- The recorder makes calls. -/
def record (calls : List RecorderCall) : Rounds :=
  { s with log := s.log ++ calls.map fun c => (s.session, c) }

/-- `Recorder::start`; the constructor of the pool creates the worker. -/
def start (alsa : AlsaInit) (chunkBytes : ℕ) : Rounds :=
  { record { s with session := s.session + 1 } [.init] with
    recorder := s.recorder.start alsa
    worker := if alsa.ret ≠ 0 then s.worker else .waiting
    main := .started
    chunkBytes := chunkBytes }

/-- The next step of `Recorder::stop`. -/
def stop : Option Rounds :=
  match s.main with
  | .stopped => none
  | .started => some { s with recorder := { s.recorder with quit := true }, main := .quitSet }
  | .quitSet =>
    match s.recorder.executor with
    | none => some { s with main := .joined }
    | some p =>
      let p := { p with quit := true }
      some { s with recorder := { s.recorder with executor := some p }, main := .quitting }
  | .quitting =>
    -- `join`
    if s.worker = .exited then
      some { s with recorder := { s.recorder with executor := none }, main := .joined }
    else none
  | .joined =>
    let s' := if s.recorder.handle then record s [.uninit] else s
    some { s' with recorder := { s.recorder with handle := false }, main := .stopped }

/-- The calls of the observers for a frame. -/
def calls (detect : Int) : List RecorderCall :=
  let wake := if 0 < detect then List.replicate s.observers .onWakeWord else []
  match s.recorder.format with
  | .noneOutput => []
  | .caeOutput => wake
  | .originOutput | .sonicDecode => wake ++ List.replicate s.observers .onAudio

/-- `readAudio` behind `_alsa_read_pcm`. -/
def afterRead (ret detect : Int) : Worker :=
  if alsaReadTdminPcm s.chunkBytes ret ≠ 0 then .reenqueue
  else if s.recorder.format ≠ .noneOutput ∧ s.chunkBytes ≠ caeBytes then .reenqueue
  else .delivering (s.calls detect)

/-- What `_alsa_read_pcm` calls before it reads again. -/
def recoverCalls (rd : Reading) (r : Int) : List RecorderCall :=
  if r = -eagain ∨ 0 ≤ r ∧ r < rd.count then [.wait]
  else if r = -epipe then [.recover]
  else []

/-- The worker's loop and `readAudio`, outside `snd_pcm_readi`. -/
def work : Option Rounds :=
  match s.recorder.executor with
  | none => none
  | some p =>
    match s.worker with
    | .waiting =>
      match p.take with
      | some (_, q) =>
        some { s with recorder := { s.recorder with executor := some q }, worker := .entered }
      | none => if p.quit then some { s with worker := .exited } else none
    | .entered =>
      if s.recorder.quit then some { s with worker := .waiting }
      else some { record s [.readi] with worker := .reading .start }
    | .reading _ => none
    | .delivering [] => some { s with worker := .reenqueue }
    | .delivering (c :: cs) => some { record s [c] with worker := .delivering cs }
    | .reenqueue =>
      match p.enqueue .readAudio with
      | some q =>
        some { s with recorder := { s.recorder with executor := some q }, worker := .waiting }
      -- the exception goes to the future
      | none => some { s with worker := .waiting }
    | .exited => none

/-- `snd_pcm_readi` returns. -/
def readi (r detect : Int) : Option Rounds :=
  match s.worker with
  | .reading rd =>
    if 0 ≤ r → r ≤ rd.count then
      match rd.pass r with
      | .loops rd' =>
        some { record s (recoverCalls rd r ++ [.readi]) with worker := .reading rd' }
      | .returns ret =>
        some { record s (recoverCalls rd r) with worker := s.afterRead ret detect }
    else none
  | _ => none

def step (s : Rounds) : Action → Option Rounds
  | .start alsa chunkBytes => if s.main = .stopped then some (s.start alsa chunkBytes) else none
  | .stop => s.stop
  | .worker => s.work
  | .readi r detect => s.readi r detect

/-! ### What the worker does -/

/-- The steps of the worker in its loop and in `readAudio`; `p` is its pool. -/
inductive Work (s : Rounds) (p : ThreadPool RecorderTask) : Rounds → Prop
  | take {q : ThreadPool RecorderTask} : s.worker = .waiting → p.take = some (.readAudio, q) →
      Work s p
        { s with recorder := { s.recorder with executor := some q }, worker := .entered }
  | exit : s.worker = .waiting → p.tasks = [] → p.quit = true →
      Work s p { s with worker := .exited }
  | leave : s.worker = .entered → s.recorder.quit = true → Work s p { s with worker := .waiting }
  | read : s.worker = .entered → s.recorder.quit = false →
      Work s p { record s [.readi] with worker := .reading .start }
  | call {c : RecorderCall} {cs : List RecorderCall} : s.worker = .delivering (c :: cs) →
      Work s p { record s [c] with worker := .delivering cs }
  | delivered : s.worker = .delivering [] → Work s p { s with worker := .reenqueue }
  | again {q : ThreadPool RecorderTask} : s.worker = .reenqueue →
      p.enqueue .readAudio = some q →
      Work s p
        { s with recorder := { s.recorder with executor := some q }, worker := .waiting }
  | refused : s.worker = .reenqueue → p.quit = true → Work s p { s with worker := .waiting }

variable {s u : Rounds} {a : Action} {tr : List (Rounds × Action)}

theorem work_cases (h : s.work = some u) : ∃ p, s.recorder.executor = some p ∧ Work s p u := by
  rw [work] at h
  split at h
  · cases h
  rename_i p hp
  refine ⟨p, hp, ?_⟩
  split at h
  · rename_i hworker
    split at h
    · rename_i t q htake
      rw [← Option.some.inj h]
      exact .take hworker htake
    · rename_i htake
      split at h
      · rename_i hquit
        rw [← Option.some.inj h]
        exact .exit hworker (ThreadPool.tasks_of_take_none htake) hquit
      · cases h
  · rename_i hworker
    split at h
    · rename_i hquit
      rw [← Option.some.inj h]
      exact .leave hworker hquit
    · rename_i hquit
      rw [← Option.some.inj h]
      exact .read hworker (Bool.eq_false_iff.mpr hquit)
  · cases h
  · rename_i hworker
    rw [← Option.some.inj h]
    exact .delivered hworker
  · rename_i c cs hworker
    rw [← Option.some.inj h]
    exact .call hworker
  · rename_i hworker
    split at h
    · rename_i q henqueue
      rw [← Option.some.inj h]
      exact .again hworker henqueue
    · rename_i henqueue
      rw [← Option.some.inj h]
      exact .refused hworker (ThreadPool.quit_of_enqueue_none henqueue)
  · cases h

/-- A return of `snd_pcm_readi` goes on in the loop or leaves it. -/
theorem readi_cases {r detect : Int} (h : s.readi r detect = some u) :
    ∃ rd, s.worker = .reading rd ∧
      ((∃ rd', rd.pass r = .loops rd' ∧
          u = { record s (recoverCalls rd r ++ [.readi]) with worker := .reading rd' }) ∨
        ∃ ret, rd.pass r = .returns ret ∧
          u = { record s (recoverCalls rd r) with worker := s.afterRead ret detect }) := by
  rw [readi] at h
  split at h
  · rename_i rd hworker
    refine ⟨rd, hworker, ?_⟩
    split at h
    · split at h
      · rename_i rd' hpass
        exact Or.inl ⟨rd', hpass, (Option.some.inj h).symm⟩
      · rename_i ret hpass
        exact Or.inr ⟨ret, hpass, (Option.some.inj h).symm⟩
    · cases h
  · cases h

theorem length_calls_le (s : Rounds) (detect : Int) :
    (s.calls detect).length ≤ 2 * s.observers := by
  have hwake : (if 0 < detect then List.replicate s.observers RecorderCall.onWakeWord
      else []).length ≤ s.observers := by
    split
    · rw [List.length_replicate]
    · exact Nat.zero_le _
  rw [calls]
  split
  · exact Nat.zero_le _
  · omega
  all_goals
    rw [List.length_append, List.length_replicate]
    omega

/-- Behind a read comes the `enqueue`, perhaps with the observers before it. -/
theorem afterRead_cases (s : Rounds) (ret detect : Int) :
    s.afterRead ret detect = .reenqueue ∨
      ∃ cs, s.afterRead ret detect = .delivering cs ∧ cs.length ≤ 2 * s.observers := by
  rw [afterRead]
  split
  · exact Or.inl rfl
  split
  · exact Or.inl rfl
  · exact Or.inr ⟨_, rfl, length_calls_le s detect⟩

/-! ### The invariant -/

/-- The tasks in the queue. -/
def queued (s : Rounds) : ℕ :=
  match s.recorder.executor with
  | none => 0
  | some p => p.tasks.length

/-- The worker is in a task and not behind its `enqueue`. -/
def Running (w : Worker) : Prop := w ≠ .waiting ∧ w ≠ .exited

structure Inv (s : Rounds) : Prop where
  one : queued s ≤ 1
  alone : Running s.worker → queued s = 0
  thread : s.recorder.executor = none → s.worker = .exited
  quit : s.main = .quitSet ∨ s.main = .quitting ∨ s.main = .joined → s.recorder.quit = true
  pool : s.main = .quitting → ∃ p, s.recorder.executor = some p ∧ p.quit = true
  ended : s.main = .joined ∨ s.main = .stopped → s.recorder.executor = none
  calls : ∀ cs, s.worker = .delivering cs → cs.length ≤ 2 * s.observers

theorem inv_new (quit : Bool) (format : Format) (observers : ℕ) :
    Inv (new quit format observers) where
  one := Nat.zero_le 1
  alone := fun h => absurd rfl h.2
  thread := fun _ => rfl
  quit := fun h => by rcases h with h | h | h <;> cases h
  pool := fun h => by cases h
  ended := fun _ => rfl
  calls := fun cs h => by cases h

theorem queued_of_executor {p : ThreadPool RecorderTask} (h : s.recorder.executor = some p) :
    queued s = p.tasks.length := by
  rw [queued, h]

theorem queued_of_none (h : s.recorder.executor = none) : queued s = 0 := by
  rw [queued, h]

/-- The worker moves and leaves its pool alone. -/
theorem Inv.of_worker {w : Worker} {log : List (ℕ × RecorderCall)} (hinv : Inv s)
    (hs : s.worker ≠ .exited) (halone : Running w → queued s = 0)
    (hcalls : ∀ cs, w = .delivering cs → cs.length ≤ 2 * s.observers) :
    Inv { s with worker := w, log := log } where
  one := hinv.one
  alone := halone
  thread := fun hnone => absurd (hinv.thread hnone) hs
  quit := hinv.quit
  pool := hinv.pool
  ended := hinv.ended
  calls := hcalls

/-- The worker has changed the queue of its pool. -/
theorem Inv.of_queue {p q : ThreadPool RecorderTask} {w : Worker} (hinv : Inv s)
    (hp : s.recorder.executor = some p) (hquit : q.quit = p.quit) (hone : q.tasks.length ≤ 1)
    (halone : Running w → q.tasks.length = 0) (hw : ∀ cs, w ≠ .delivering cs) :
    Inv { s with recorder := { s.recorder with executor := some q }, worker := w } where
  one := hone
  alone := halone
  thread := fun hnone => by cases hnone
  quit := hinv.quit
  pool := by
    intro hmain
    obtain ⟨p', hp', hpquit⟩ := hinv.pool hmain
    obtain rfl : p = p' := Option.some.inj (hp.symm.trans hp')
    exact ⟨q, rfl, hquit.trans hpquit⟩
  ended := fun hmain => absurd (hp.symm.trans (hinv.ended hmain)) (Option.some_ne_none p)
  calls := fun cs hcs => absurd hcs (hw cs)

/-- In front of `stop`, with a worker that delivers nothing. -/
theorem inv_of_started (hmain : u.main = .started) (hone : queued u ≤ 1)
    (halone : Running u.worker → queued u = 0)
    (hthread : u.recorder.executor = none → u.worker = .exited)
    (hworker : ∀ cs, u.worker ≠ .delivering cs) : Inv u := by
  refine ⟨hone, halone, hthread, ?_, ?_, ?_, fun cs hcs => absurd hcs (hworker cs)⟩
  · intro h
    rw [hmain] at h
    rcases h with h | h | h <;> cases h
  · intro h
    rw [hmain] at h
    cases h
  · intro h
    rw [hmain] at h
    rcases h with h | h <;> cases h

theorem inv_start {alsa : AlsaInit} {chunkBytes : ℕ} (hinv : Inv s) (hmain : s.main = .stopped) :
    Inv (s.start alsa chunkBytes) := by
  have hnone := hinv.ended (Or.inr hmain)
  have hexited := hinv.thread hnone
  by_cases hret : alsa.ret = 0
  · have hrec : (s.start alsa chunkBytes).recorder.executor = some ⟨[.readAudio], false⟩ := by
      rw [start, Recorder.start, if_neg (not_not.mpr hret)]
      rfl
    have hworker : (s.start alsa chunkBytes).worker = .waiting := if_neg (not_not.mpr hret)
    refine inv_of_started rfl ?_ ?_ ?_ ?_
    · rw [queued_of_executor hrec]
      exact le_refl 1
    · intro hrun
      exact absurd hworker hrun.1
    · intro h
      rw [hrec] at h
      cases h
    · intro cs
      rw [hworker]
      exact Worker.noConfusion
  · have hrec : (s.start alsa chunkBytes).recorder.executor = none := by
      rw [start, Recorder.start, if_pos hret]
      exact hnone
    have hworker : (s.start alsa chunkBytes).worker = .exited := (if_pos hret).trans hexited
    refine inv_of_started rfl ?_ ?_ (fun _ => hworker) ?_
    · rw [queued_of_none hrec]
      exact Nat.zero_le 1
    · intro _
      exact queued_of_none hrec
    · intro cs
      rw [hworker]
      exact Worker.noConfusion

theorem inv_stop (hinv : Inv s) (h : s.stop = some u) : Inv u := by
  rw [stop] at h
  split at h
  · cases h
  · rw [← Option.some.inj h]
    exact ⟨hinv.one, hinv.alone, hinv.thread, fun _ => rfl, fun h => (by cases h),
      fun h => (by rcases h with h | h <;> cases h), hinv.calls⟩
  · rename_i hmain
    have hquit := hinv.quit (Or.inl hmain)
    split at h
    · rename_i hnone
      rw [← Option.some.inj h]
      exact ⟨hinv.one, hinv.alone, hinv.thread, fun _ => hquit, fun h => (by cases h),
        fun _ => hnone, hinv.calls⟩
    · rename_i p hp
      rw [← Option.some.inj h]
      have hlen : queued s = p.tasks.length := queued_of_executor hp
      refine ⟨?_, ?_, fun h => (by cases h), fun _ => hquit, fun _ => ⟨_, rfl, rfl⟩,
        fun h => (by rcases h with h | h <;> cases h), hinv.calls⟩
      · exact hlen.symm.trans_le hinv.one
      · intro hrun
        exact hlen.symm.trans (hinv.alone hrun)
  · rename_i hmain
    have hquit := hinv.quit (Or.inr (Or.inl hmain))
    split at h
    · rename_i hexited
      rw [← Option.some.inj h]
      exact ⟨Nat.zero_le 1, fun _ => rfl, fun _ => hexited, fun _ => hquit,
        fun h => (by cases h), fun _ => rfl, hinv.calls⟩
    · cases h
  · rename_i hmain
    have hnone := hinv.ended (Or.inl hmain)
    have hworker : (if s.recorder.handle then record s [.uninit] else s).worker = .exited := by
      split <;> exact hinv.thread hnone
    rw [← Option.some.inj h]
    refine ⟨?_, ?_, fun _ => hworker, fun h => (by rcases h with h | h | h <;> cases h),
      fun h => (by cases h), fun _ => hnone, ?_⟩
    · exact (queued_of_none hnone).trans_le (Nat.zero_le 1)
    · intro _
      exact queued_of_none hnone
    · intro cs hcs
      rw [hworker] at hcs
      cases hcs

/-- The steps of `stop` do together what `Recorder.stop` does. -/
theorem recorder_of_joined (hinv : Inv s) (hmain : s.main = .joined) (h : s.stop = some u) :
    u.main = .stopped ∧ u.recorder = s.recorder.stop := by
  have hstop : { s.recorder with handle := false } = s.recorder.stop := by
    rw [Recorder.stop, ← hinv.ended (Or.inl hmain), ← hinv.quit (Or.inr (Or.inr hmain))]
  rw [stop, hmain] at h
  rw [← Option.some.inj h]
  exact ⟨rfl, hstop⟩

theorem inv_work {p : ThreadPool RecorderTask} (hinv : Inv s)
    (hp : s.recorder.executor = some p) (h : Work s p u) : Inv u := by
  have hqueued := queued_of_executor hp
  have hone := hinv.one
  -- in a task the queue is empty
  have hempty : ∀ w, s.worker = w → w ≠ .waiting → w ≠ .exited → queued s = 0 := by
    intro w hw hwaiting hexited
    exact hinv.alone (hw ▸ ⟨hwaiting, hexited⟩)
  have hthread : ∀ w, s.worker = w → w ≠ .exited → s.worker ≠ .exited := by
    rintro w rfl hw
    exact hw
  cases h with
  | @take q hworker htake =>
    have htasks := congrArg List.length (ThreadPool.tasks_of_take htake)
    rw [List.length_cons] at htasks
    exact hinv.of_queue hp (ThreadPool.quit_of_take htake) (by omega) (fun _ => by omega)
      fun _ => Worker.noConfusion
  | exit hworker htasks hquit =>
    exact hinv.of_worker (hthread _ hworker Worker.noConfusion) (fun hrun => absurd rfl hrun.2)
      fun _ h => by cases h
  | leave hworker hquit =>
    exact hinv.of_worker (hthread _ hworker Worker.noConfusion) (fun hrun => absurd rfl hrun.1)
      fun _ h => by cases h
  | read hworker hquit =>
    have hzero := hempty _ hworker Worker.noConfusion Worker.noConfusion
    exact hinv.of_worker (hthread _ hworker Worker.noConfusion) (fun _ => hzero)
      fun _ h => by cases h
  | @call c cs hworker =>
    have hzero := hempty _ hworker Worker.noConfusion Worker.noConfusion
    refine hinv.of_worker (hthread _ hworker Worker.noConfusion) (fun _ => hzero) fun cs' h => ?_
    obtain rfl := Worker.delivering.inj h
    have hlen := hinv.calls _ hworker
    rw [List.length_cons] at hlen
    omega
  | delivered hworker =>
    have hzero := hempty _ hworker Worker.noConfusion Worker.noConfusion
    exact hinv.of_worker (hthread _ hworker Worker.noConfusion) (fun _ => hzero)
      fun _ h => by cases h
  | @again q hworker henqueue =>
    have hzero := hempty _ hworker Worker.noConfusion Worker.noConfusion
    have htasks := congrArg List.length (ThreadPool.tasks_of_enqueue henqueue)
    rw [List.length_append, List.length_singleton] at htasks
    obtain ⟨hpquit, hquit⟩ := ThreadPool.quit_of_enqueue henqueue
    exact hinv.of_queue hp (hquit.trans hpquit.symm) (by omega) (fun hrun => absurd rfl hrun.1)
      fun _ => Worker.noConfusion
  | refused hworker hquit =>
    exact hinv.of_worker (hthread _ hworker Worker.noConfusion) (fun hrun => absurd rfl hrun.1)
      fun _ h => by cases h

theorem inv_readi {r detect : Int} (hinv : Inv s) (h : s.readi r detect = some u) : Inv u := by
  obtain ⟨rd, hworker, h⟩ := readi_cases h
  have hthread : s.worker ≠ .exited := by
    rw [hworker]
    exact Worker.noConfusion
  have hzero : queued s = 0 := by
    refine hinv.alone ⟨?_, hthread⟩
    rw [hworker]
    exact Worker.noConfusion
  rcases h with ⟨rd', -, rfl⟩ | ⟨ret, -, rfl⟩
  · exact hinv.of_worker hthread (fun _ => hzero) fun _ h => by cases h
  · refine hinv.of_worker hthread (fun _ => hzero) fun cs hcs => ?_
    rcases s.afterRead_cases ret detect with hafter | ⟨cs', hafter, hlen⟩
    · rw [hafter] at hcs
      cases hcs
    · obtain rfl := Worker.delivering.inj (hafter.symm.trans hcs)
      exact hlen

theorem inv_step (hinv : Inv s) (h : step s a = some u) : Inv u := by
  cases a with
  | start alsa chunkBytes =>
    rw [step] at h
    split at h
    · rename_i hmain
      rw [← Option.some.inj h]
      exact inv_start hinv hmain
    · cases h
  | stop => exact inv_stop hinv h
  | worker =>
    obtain ⟨p, hp, hwork⟩ := work_cases h
    exact inv_work hinv hp hwork
  | readi r detect => exact inv_readi hinv h

/-! ### Behind `safeQuit` -/

/-- A step of the worker, which `main` waits for in `join`. -/
def Works : Action → Prop
  | .worker | .readi _ _ => True
  | _ => False

/-- What the steps of the worker leave unchanged. -/
theorem works_frame (ha : Works a) (h : step s a = some u) :
    u.main = s.main ∧ u.session = s.session := by
  cases a with
  | start _ _ | stop => exact absurd ha id
  | worker =>
    obtain ⟨p, -, hwork⟩ := work_cases h
    cases hwork <;> exact ⟨rfl, rfl⟩
  | readi r detect =>
    obtain ⟨rd, -, ⟨rd', -, rfl⟩ | ⟨ret, -, rfl⟩⟩ := readi_cases h <;> exact ⟨rfl, rfl⟩

/-- What a worker can still do in its task, and in the pool's loop behind it. -/
def workerRank (observers : ℕ) : Worker → ℕ
  | .exited => 0
  | .waiting => 1
  | .entered | .reenqueue => 2
  | .delivering calls => 3 + calls.length
  | .reading _ => 4 + 2 * observers

/-- The same with the tasks in the queue. -/
def rank (s : Rounds) : ℕ := 2 * queued s + workerRank s.observers s.worker

/-- The step takes a task from the queue. -/
def Takes (p : Rounds × Action) : Bool :=
  decide (p.2 = .worker ∧ p.1.worker = .waiting ∧ 0 < queued p.1)

/-- The step begins to read. -/
def BeginsRead (p : Rounds × Action) : Prop :=
  p.2 = .worker ∧ p.1.worker = .entered ∧ p.1.recorder.quit = false

/-- Every step of the worker but a pass of the loop that reads. -/
def Advances (p : Rounds × Action) : Bool :=
  match p.2, p.1.worker with
  | .worker, _ => true
  | .readi r _, .reading rd =>
    match rd.pass r with
    | .returns _ => true
    | .loops _ => false
  | _, _ => false

/-- The worker moves on and leaves the queue alone. -/
theorem rank_lt_of_worker (hqueued : queued u = queued s)
    (hrank : workerRank u.observers u.worker < workerRank s.observers s.worker) :
    rank u < rank s := by
  rw [rank, rank, hqueued]
  omega

/-- A step adds nothing to what the worker can do, and takes away from it when
it advances the worker or takes a task. -/
structure Lowers (s : Rounds) (a : Action) (u : Rounds) : Prop where
  rank_le : rank u ≤ rank s
  rank_lt : Advances (s, a) → rank u < rank s
  queued_le : queued u ≤ queued s
  queued_lt : Takes (s, a) → queued u < queued s

/-- The worker moves on in its task, or ends with nothing in the queue. -/
theorem Lowers.of_moves (hqueued : queued u = queued s)
    (hrank : workerRank u.observers u.worker < workerRank s.observers s.worker)
    (hempty : s.worker = .waiting → queued s = 0) : Lowers s .worker u := by
  have hlt := rank_lt_of_worker hqueued hrank
  refine ⟨hlt.le, fun _ => hlt, hqueued.le, fun htakes => ?_⟩
  obtain ⟨-, hwaiting, hpos⟩ := of_decide_eq_true htakes
  exact absurd (hempty hwaiting) (Nat.pos_iff_ne_zero.mp hpos)

theorem lowers_work {p : ThreadPool RecorderTask} (hinv : Inv s) (hmain : s.main = .quitting)
    (hp : s.recorder.executor = some p) (h : Work s p u) : Lowers s .worker u := by
  obtain ⟨p', hp', hquit⟩ := hinv.pool hmain
  obtain rfl : p = p' := Option.some.inj (hp.symm.trans hp')
  have hqueued := queued_of_executor hp
  have hbusy : ∀ w, s.worker = w → w ≠ .waiting → s.worker = .waiting → queued s = 0 := by
    rintro w rfl hw hwaiting
    exact absurd hwaiting hw
  have hlt : ∀ {w : Worker} {n : ℕ}, s.worker = w → n < workerRank s.observers w →
      n < workerRank s.observers s.worker := by
    rintro w n rfl hn
    exact hn
  cases h with
  | @take q hworker htake =>
    have htasks := congrArg List.length (ThreadPool.tasks_of_take htake)
    rw [List.length_cons] at htasks
    have hs : rank s = 2 * p.tasks.length + 1 := by
      rw [rank, hqueued, hworker, workerRank]
    have hu : ∀ v : Rounds, v.recorder.executor = some q → v.worker = .entered →
        rank v = 2 * q.tasks.length + 2 := by
      intro v hv hentered
      rw [rank, queued_of_executor hv, hentered, workerRank]
    have hrank : rank s = rank { s with
        recorder := { s.recorder with executor := some q }, worker := .entered } + 1 := by
      rw [hs, hu _ rfl rfl]
      omega
    have hlt : queued { s with
        recorder := { s.recorder with executor := some q }, worker := .entered } < queued s := by
      rw [hqueued, queued_of_executor rfl]
      omega
    exact ⟨by omega, fun _ => by omega, hlt.le, fun _ => hlt⟩
  | exit hworker htasks _ =>
    have hzero : queued s = 0 := by rw [hqueued, htasks, List.length_nil]
    exact .of_moves rfl (hlt hworker (Nat.lt_succ_self _)) fun _ => hzero
  | leave hworker _ =>
    exact .of_moves rfl (hlt hworker (Nat.lt_succ_self _)) (hbusy _ hworker Worker.noConfusion)
  | read hworker hfalse =>
    rw [hinv.quit (Or.inr (Or.inl hmain))] at hfalse
    cases hfalse
  | @call c cs hworker =>
    refine .of_moves rfl ?_ (hbusy _ hworker Worker.noConfusion)
    rw [hworker, workerRank, workerRank, List.length_cons]
    omega
  | delivered hworker =>
    exact .of_moves rfl (hlt hworker (Nat.lt_succ_self _)) (hbusy _ hworker Worker.noConfusion)
  | again hworker henqueue =>
    rw [(ThreadPool.quit_of_enqueue henqueue).1] at hquit
    cases hquit
  | refused hworker _ =>
    exact .of_moves rfl (hlt hworker (Nat.lt_succ_self _)) (hbusy _ hworker Worker.noConfusion)

/-- A read that returns goes on in its loop, or advances the worker. -/
theorem lowers_readi {r detect : Int} (h : s.readi r detect = some u) :
    Lowers s (.readi r detect) u := by
  obtain ⟨rd, hworker, h⟩ := readi_cases h
  have htakes : ¬ Takes (s, .readi r detect) := fun htakes =>
    Action.noConfusion (of_decide_eq_true htakes).1
  rcases h with ⟨rd', hpass, rfl⟩ | ⟨ret, hpass, rfl⟩
  · have hadvances : ¬ Advances (s, .readi r detect) := by
      rw [Advances, hworker]
      dsimp only
      rw [hpass]
      exact Bool.noConfusion
    have hsame : rank { record s (recoverCalls rd r ++ [.readi]) with worker := .reading rd' } =
        rank s := by
      rw [rank, rank, hworker]
      rfl
    exact ⟨hsame.le, fun h => absurd h hadvances, le_refl _, fun h => absurd h htakes⟩
  · have hlt : rank { record s (recoverCalls rd r) with worker := s.afterRead ret detect } <
        rank s := by
      refine rank_lt_of_worker rfl ?_
      rw [hworker]
      rcases s.afterRead_cases ret detect with hafter | ⟨cs, hafter, hlen⟩
      · rw [hafter, workerRank, workerRank]
        omega
      · rw [hafter, workerRank, workerRank]
        omega
    exact ⟨hlt.le, fun _ => hlt, le_refl _, fun h => absurd h htakes⟩

/-- Once the pool has quit, no step adds to what the worker can do. -/
theorem lowers_step (hinv : Inv s) (hmain : s.main = .quitting) (ha : Works a)
    (h : step s a = some u) : Lowers s a u := by
  cases a with
  | start _ _ | stop => exact absurd ha id
  | worker =>
    obtain ⟨p, hp, hwork⟩ := work_cases h
    exact lowers_work hinv hmain hp hwork
  | readi r detect => exact lowers_readi h

/-- A run in which only the worker takes steps. -/
def OnlyWorks (tr : List (Rounds × Action)) : Prop := ∀ p ∈ tr, Works p.2

/-- **What can happen while `main` is in `join`.**  The worker takes at most the
task that is in the queue and begins no read.  It has at most `rank s` steps
besides the passes of a read's loop, is never stuck outside a read, and `join`
returns once it has exited. -/
structure Joins (s : Rounds) : Prop where
  takes : ∀ tr u, Run step s tr u → OnlyWorks tr → tr.countP Takes ≤ queued s
  noRead : ∀ tr u, Run step s tr u → OnlyWorks tr → ∀ p ∈ tr, ¬ BeginsRead p
  bounded : ∀ tr u, Run step s tr u → OnlyWorks tr → tr.countP Advances ≤ rank s
  moves : ∀ tr u, Run step s tr u → OnlyWorks tr →
    u.worker = .exited ∨ (∃ rd, u.worker = .reading rd) ∨ ∃ v, step u .worker = some v
  joins : ∀ tr u, Run step s tr u → OnlyWorks tr → u.worker = .exited →
    ∃ v, step u .stop = some v ∧ v.main = .joined

/-- The worker of a pool that has quit can move unless it reads. -/
theorem exists_work (hinv : Inv s) (hmain : s.main = .quitting) :
    s.worker = .exited ∨ (∃ rd, s.worker = .reading rd) ∨ ∃ v, step s .worker = some v := by
  obtain ⟨p, hp, hquit⟩ := hinv.pool hmain
  rw [← Option.isSome_iff_exists, step, work]
  simp only [hp]
  cases hworker : s.worker with
  | exited => exact Or.inl rfl
  | reading rd => exact Or.inr (Or.inl ⟨rd, rfl⟩)
  | waiting =>
    refine Or.inr (Or.inr ?_)
    cases p.take with
    | none => simp [hquit]
    | some r => rfl
  | entered =>
    refine Or.inr (Or.inr ?_)
    rw [hinv.quit (Or.inr (Or.inl hmain))]
    rfl
  | delivering calls =>
    refine Or.inr (Or.inr ?_)
    cases calls <;> rfl
  | reenqueue =>
    refine Or.inr (Or.inr ?_)
    cases p.enqueue .readAudio <;> rfl

theorem joins_of_inv (hinv : Inv s) (hmain : s.main = .quitting) : Joins s := by
  have hI : ∀ t a u, (Inv t ∧ t.main = .quitting) → Works a → step t a = some u →
      Inv u ∧ u.main = .quitting := by
    intro t a u ht ha hu
    exact ⟨inv_step ht.1 hu, (works_frame ha hu).1.trans ht.2⟩
  refine ⟨?_, ?_, ?_, ?_, ?_⟩
  · intro tr u h ha
    have hstep : ∀ t a u, (Inv t ∧ t.main = .quitting) → Works a → step t a = some u →
        (Inv u ∧ u.main = .quitting) ∧ queued u ≤ queued t ∧
          (Takes (t, a) → queued u < queued t) := by
      intro t a u ht ha hu
      have hlowers := lowers_step ht.1 ht.2 ha hu
      exact ⟨hI t a u ht ha hu, hlowers.queued_le, hlowers.queued_lt⟩
    have := h.countP_add_le (f := queued) (D := Takes) ⟨hinv, hmain⟩ hstep ha
    omega
  · intro tr u h ha p hp hbegins
    obtain ⟨hp, hmain⟩ := h.states_of ⟨hinv, hmain⟩ hI ha p hp
    have hfalse := hbegins.2.2
    rw [hp.quit (Or.inr (Or.inl hmain))] at hfalse
    cases hfalse
  · intro tr u h ha
    have hstep : ∀ t a u, (Inv t ∧ t.main = .quitting) → Works a → step t a = some u →
        (Inv u ∧ u.main = .quitting) ∧ rank u ≤ rank t ∧ (Advances (t, a) → rank u < rank t) := by
      intro t a u ht ha hu
      have hlowers := lowers_step ht.1 ht.2 ha hu
      exact ⟨hI t a u ht ha hu, hlowers.rank_le, hlowers.rank_lt⟩
    have := h.countP_add_le (f := rank) (D := Advances) ⟨hinv, hmain⟩ hstep ha
    omega
  · intro tr u h ha
    obtain ⟨hu, hmain⟩ := h.invariant_of ⟨hinv, hmain⟩ hI ha
    exact exists_work hu hmain
  · intro tr u h ha hexited
    obtain ⟨-, hmain⟩ := h.invariant_of ⟨hinv, hmain⟩ hI ha
    refine ⟨{ u with recorder := { u.recorder with executor := none }, main := .joined }, ?_, rfl⟩
    rw [step, stop, hmain]
    exact if_pos hexited

/-! ### The log -/

/-- What a step logs belongs to the session it is taken in. -/
theorem log_step (h : step s a = some u) :
    s.session ≤ u.session ∧ ∃ calls, u.log = s.log ++ calls ∧ ∀ c ∈ calls, c.1 = u.session := by
  have hnil : ∃ calls, s.log = s.log ++ calls ∧ ∀ c ∈ calls, c.1 = s.session :=
    ⟨[], (List.append_nil _).symm, by simp⟩
  have hrecord : ∀ (n : ℕ) (cs : List RecorderCall), ∃ calls,
      s.log ++ cs.map (fun c => (n, c)) = s.log ++ calls ∧ ∀ c ∈ calls, c.1 = n := by
    intro n cs
    refine ⟨_, rfl, fun c hc => ?_⟩
    obtain ⟨c', -, rfl⟩ := List.mem_map.mp hc
    rfl
  cases a with
  | start alsa chunkBytes =>
    rw [step] at h
    split at h
    · rw [← Option.some.inj h]
      exact ⟨Nat.le_succ _, hrecord _ _⟩
    · cases h
  | stop =>
    rw [step, stop] at h
    split at h
    · cases h
    · rw [← Option.some.inj h]
      exact ⟨le_refl _, hnil⟩
    · split at h
      all_goals
        rw [← Option.some.inj h]
        exact ⟨le_refl _, hnil⟩
    · split at h
      · rw [← Option.some.inj h]
        exact ⟨le_refl _, hnil⟩
      · cases h
    · rw [← Option.some.inj h]
      dsimp only
      split
      · exact ⟨le_refl _, hrecord _ _⟩
      · exact ⟨le_refl _, hnil⟩
  | worker =>
    obtain ⟨p, -, hwork⟩ := work_cases h
    cases hwork with
    | read | call => exact ⟨le_refl _, hrecord _ _⟩
    | _ => exact ⟨le_refl _, hnil⟩
  | readi r detect =>
    obtain ⟨rd, -, ⟨rd', -, rfl⟩ | ⟨ret, -, rfl⟩⟩ := readi_cases h
    · exact ⟨le_refl _, hrecord _ _⟩
    · exact ⟨le_refl _, hrecord _ _⟩

/-- Behind a stop, only the next start can happen. -/
theorem session_lt_of_stopped (hinv : Inv s) (hmain : s.main = .stopped)
    (h : step s a = some u) : s.session < u.session := by
  have hexited := hinv.thread (hinv.ended (Or.inr hmain))
  cases a with
  | start alsa chunkBytes =>
    rw [step, if_pos hmain] at h
    rw [← Option.some.inj h]
    exact Nat.lt_succ_self _
  | stop =>
    rw [step, stop, hmain] at h
    cases h
  | worker =>
    obtain ⟨p, hp, -⟩ := work_cases h
    rw [hinv.ended (Or.inr hmain)] at hp
    cases hp
  | readi r detect =>
    obtain ⟨rd, hworker, -⟩ := readi_cases h
    rw [hexited] at hworker
    cases hworker

/-- What is logged once `stop` has returned belongs to later sessions. -/
theorem log_of_stopped (hinv : Inv s) (hmain : s.main = .stopped) (h : Run step s tr u) :
    ∃ calls, u.log = s.log ++ calls ∧ ∀ c ∈ calls, s.session < c.1 := by
  have hrun : Inv u ∧ (u = s ∨ s.session < u.session) ∧
      ∃ calls, u.log = s.log ++ calls ∧ ∀ c ∈ calls, s.session < c.1 := by
    refine h.invariant (I := fun u => Inv u ∧ (u = s ∨ s.session < u.session) ∧
      ∃ calls, u.log = s.log ++ calls ∧ ∀ c ∈ calls, s.session < c.1)
      ⟨hinv, Or.inl rfl, [], (List.append_nil _).symm, by simp⟩ ?_
    rintro t a v ⟨ht, hlater, calls, hlog, hcalls⟩ hv
    obtain ⟨hle, new, hnew, hsession⟩ := log_step hv
    have hlt : s.session < v.session := by
      rcases hlater with rfl | hlater
      · exact session_lt_of_stopped ht hmain hv
      · omega
    refine ⟨inv_step ht hv, Or.inr hlt, calls ++ new, ?_, ?_⟩
    · rw [hnew, hlog, List.append_assoc]
    · intro c hc
      rcases List.mem_append.mp hc with hc | hc
      · exact hcalls c hc
      · rw [hsession c hc]
        exact hlt
  exact hrun.2.2

/-- **`stop` stops.**  At each moment at most one task is queued, and none while
one runs that has not come to its `enqueue`.  Behind `safeQuit` the worker comes
to its end, and once `stop` has returned nothing more happens in its session. -/
theorem stop_stops {quit : Bool} {format : Format} {observers : ℕ}
    (h : Run step (new quit format observers) tr s) :
    (queued s ≤ 1 ∧ (Running s.worker → queued s = 0)) ∧
      (s.main = .quitting → Joins s) ∧
      (s.main = .stopped → ∀ tr' u, Run step s tr' u →
        ∃ calls, u.log = s.log ++ calls ∧ ∀ c ∈ calls, s.session < c.1) := by
  have hinv : Inv s :=
    h.invariant (inv_new quit format observers) fun _ _ _ ht hu => inv_step ht hu
  exact ⟨⟨hinv.one, hinv.alone⟩, joins_of_inv hinv,
    fun hmain _ _ hrun => log_of_stopped hinv hmain hrun⟩

/-- Two sessions; the first one is stopped while the worker reads. -/
theorem stop_stops_two_sessions :
    ∃ tr s, Run step (new false .originOutput 1) tr s ∧ s.main = .stopped ∧ s.session = 2 ∧
      s.log = [(1, .init), (1, .readi), (1, .onAudio), (1, .uninit), (2, .init), (2, .uninit)] ∧
      ∀ tr' u, Run step s tr' u →
        ∃ calls, u.log = s.log ++ calls ∧ ∀ c ∈ calls, s.session < c.1 := by
  have h : Run step (new false .originOutput 1) _ _ :=
    Run.of_exec [.start ⟨0, true⟩ 640, .worker, .worker, .stop, .stop, .readi 320 0, .worker,
      .worker, .worker, .worker, .stop, .stop, .start ⟨-1, true⟩ 640, .stop, .stop, .stop] rfl
  exact ⟨_, _, h, rfl, rfl, rfl, (stop_stops h).2.2 rfl⟩

end Rounds

end MicAgent
