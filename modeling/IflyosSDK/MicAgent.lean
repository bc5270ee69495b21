/-
MicAgent: its shared variables, its event handlers and the tasks they enqueue.

The handlers run on the receiver thread of the IPC module, `onWakeWord` on the
recorder's, the tasks on the one worker of `executor`, and `main` reads keys.
In `step` each handler call and each task is one step.  `State` holds the static
variables of MicAgent.cpp together with what the kernel keeps for the process:
the bytes in the restart pipe and the open descriptors of the audio FIFO.

* `stopCapture`, `tokenExpired`, `authError`, … — the handlers;
* `onWakeWord` — the recorder's wake word;
* `closeFifoTask`, `startForwardTask`, `restartDialogTask` — the tasks;
* `step` — one step of any thread.
-/
import IflyosSDK.ThreadPool
import IflyosSDK.Runs

namespace MicAgent

/-- `IFLYOSReadyState`. -/
inductive ReadyState
  | notStart
  | started
  deriving DecidableEq, Repr

/-- The lambdas enqueued on `executor`: the one of `stopCapture` and
`iflyosAppExited`, and the two of `onWakeWord`. -/
inductive Task
  | closeFifo
  | startForward
  | restartDialog
  deriving DecidableEq, Repr

/-- What is sent with `IFLYOS_InterfaceSendEvent`. -/
inductive Message
  | doStart
  | doStop
  | doClearDataThenQuit
  | doDialogStart (path : String)
  | doSetDnd (on : Bool)
  | doKeypressVolDown
  | doKeypressVolUp
  | doKeypressPlayPause
  deriving DecidableEq, Repr

/-- `FIFO_PATH`. -/
def fifoPath : String := "/tmp/iflyos_inputaudio"

/-- `NET_CONFIG`. -/
def netConfig : UInt8 := 1

/-- `NO_NET_CONFIG`. -/
def noNetConfig : UInt8 := 0

/-- The process.  `restartPipe` holds the bytes written to `restartChannel` and
not read, `fifos` the descriptors of the FIFO that are open, and `sent` every
message sent so far. -/
structure State where
  forwarding : Bool
  fdAudio : Int
  executor : ThreadPool Task
  hasNetwork : Bool
  micOn : Bool
  inThinking : Bool
  firstDialogState : ReadyState
  stopAuthCodePlayer : Bool
  restartPipe : List UInt8
  fifos : List Int
  sent : List Message
  deriving DecidableEq, Repr

/-- The initial values of the variables. -/
def init : State where
  forwarding := false
  fdAudio := -1
  executor := .new
  hasNetwork := false
  micOn := true
  inThinking := false
  firstDialogState := .notStart
  stopAuthCodePlayer := false
  restartPipe := []
  fifos := []
  sent := []

variable (s : State)

/-- `executor->enqueue`. -/
def enqueue (t : Task) : Option State :=
  (s.executor.enqueue t).map fun e => { s with executor := e }

/-- `IFLYOS_InterfaceSendEvent`. -/
def send (m : Message) : State := { s with sent := s.sent ++ [m] }

/-- `write(restartChannel, &b, 1)`. -/
def writeRestart (b : UInt8) : State := { s with restartPipe := s.restartPipe ++ [b] }

/-! ### Event handlers

Four handlers end in a `write` to the restart pipe; their definitions go up to
it. -/

def onSpeaking : State := { s with inThinking := false }

def onThinking : State := { s with inThinking := true }

/-- DIALOG_END.  The first one says that the app is ready. -/
def stopCapture : Option State :=
  match s.firstDialogState with
  | .notStart => some { s with inThinking := false, firstDialogState := .started }
  | .started => enqueue { s with inThinking := false } .closeFifo

/-- STOPPED. -/
def iflyosAppExited : Option State := enqueue s .closeFifo

/-- REVOKE_AUTHORIZATION. -/
def revokeAuth : State := s

/-- AUTH_TOKEN_EXPIRED.  The `write` comes a second later. -/
def tokenExpired : State := { s with firstDialogState := .started }

/-- AUTH_REQUIRED. -/
def playAuthCode : State := { s with stopAuthCodePlayer := false }

/-- AUTH_OK. -/
def authOK : State := { s with stopAuthCodePlayer := true }

/-- AUTH_SERVER_ERROR. -/
def authError : State := send { s with stopAuthCodePlayer := true } .doStop

/-- FACTORY_RESET, registered as a lambda.  The `write` comes five seconds
later. -/
def factoryReset : State := send s .doClearDataThenQuit

/-- The events whose handlers touch the state. -/
inductive Event
  | dialogEnd
  | dialogThinking
  | dialogSpeaking
  | stopped
  | authRequired
  | authOk
  | authServerError
  | authTokenExpired
  | revokeAuthorization
  | factoryReset
  deriving DecidableEq, Repr

/-- The handlers as `main` registers them, up to the `write`. -/
def untilWrite : Event → Option State
  | .dialogEnd => stopCapture s
  | .dialogThinking => some (onThinking s)
  | .dialogSpeaking => some (onSpeaking s)
  | .stopped => iflyosAppExited s
  | .authRequired => some (playAuthCode s)
  | .authOk => some (authOK s)
  | .authServerError => some (authError s)
  | .authTokenExpired => some (tokenExpired s)
  | .revokeAuthorization => some (revokeAuth s)
  | .factoryReset => some (factoryReset s)

/-- The byte that a handler writes to the restart pipe. -/
def restartByte : Event → Option UInt8
  | .revokeAuthorization => some noNetConfig
  | .authTokenExpired | .authServerError | .factoryReset => some netConfig
  | _ => none

/-- A whole call of a handler. -/
def handle (e : Event) : Option State :=
  match restartByte e with
  | none => untilWrite s e
  | some b => (untilWrite s e).map (writeRestart · b)

/-- `NetworkStatusMonitor::onNetworkStatusChanged`. -/
def onNetworkStatusChanged (ok : Bool) : State :=
  if ok then send { s with hasNetwork := true } .doStart
  else send { s with hasNetwork := false } .doStop

/-! ### The wake word -/

/-- `OrgAudioObserver::onWakeWord`. -/
def onWakeWord : Option State :=
  if s.firstDialogState = .notStart then some s
  else if ¬ s.micOn then some s
  else if ¬ s.hasNetwork then some s
  else if s.forwarding then
    -- ignored while thinking
    if s.inThinking then some s else enqueue s .restartDialog
  else enqueue { s with forwarding := true } .startForward

/-! ### The tasks -/

/-- The task of `stopCapture` and `iflyosAppExited`. -/
def closeFifoTask : State :=
  if ¬ s.forwarding then s
  else { s with forwarding := false, fifos := s.fifos.erase s.fdAudio, fdAudio := -1 }

/-- What `open` may return: `-1`, or a descriptor that is not open. -/
def OpenResult (fd : Int) : Prop := fd = -1 ∨ 0 ≤ fd ∧ fd ∉ s.fifos

instance (fd : Int) : Decidable (OpenResult s fd) := inferInstanceAs (Decidable (_ ∨ _))

/-- The task of a wake word that starts forwarding; `open` returns `fd`. -/
def startForwardTask (fd : Int) : Option State :=
  if OpenResult s fd then
    let s := send s (.doDialogStart fifoPath)
    if fd < 0 then some { s with fdAudio := fd, forwarding := false }
    else some { s with fdAudio := fd, fifos := fd :: s.fifos }
  else none

/-- The task of a wake word while forwarding. -/
def restartDialogTask : State := send s (.doDialogStart fifoPath)

/-- The worker runs the front task; `fd` is what `open` returns if it is
called. -/
def runTask (fd : Int) : Option State :=
  match s.executor.take with
  | none => none
  | some (.closeFifo, e) => some (closeFifoTask { s with executor := e })
  | some (.startForward, e) => startForwardTask { s with executor := e } fd
  | some (.restartDialog, e) => some (restartDialogTask { s with executor := e })

/-! ### Steps -/

/-- What can happen next: an event is handled, the wake word is heard, the
worker runs a task, the network status changes, or `main` mutes the microphone,
restarts the app, or comes to WAIT_START. -/
inductive Action
  | event (e : Event)
  | wakeWord
  | runTask (fd : Int)
  | network (ok : Bool)
  | micMute
  | restart
  | waitStart
  deriving DecidableEq, Repr

def step (s : State) : Action → Option State
  | .event e => handle s e
  | .wakeWord => onWakeWord s
  | .runTask fd => runTask s fd
  | .network ok => some (onNetworkStatusChanged s ok)
  | .micMute => some { s with micOn := !s.micOn }
  | .restart => some { s with firstDialogState := .notStart }
  | .waitStart => some { s with inThinking := false }

/-! ### What the handlers and tasks leave unchanged -/

section Frame

variable {s u : State}

/-- A task joins the queue and nothing else changes. -/
theorem enqueue_cases {t : Task} (h : enqueue s t = some u) :
    ∃ e, e.tasks = s.executor.tasks ++ [t] ∧ u = { s with executor := e } := by
  obtain ⟨e, he, rfl⟩ := Option.map_eq_some_iff.mp h
  exact ⟨e, ThreadPool.tasks_of_enqueue he, rfl⟩

/-- The wake word is not ignored: the app is ready, the microphone is on and
there is a network. -/
def Listening (s : State) : Prop :=
  s.firstDialogState = .started ∧ s.micOn ∧ s.hasNetwork

instance (s : State) : Decidable (Listening s) := inferInstanceAs (Decidable (_ ∧ _))

/-- The wake word is ignored, or answered with one of the two tasks. -/
theorem onWakeWord_cases (h : onWakeWord s = some u) :
    u = s ∨ Listening s ∧
      ((s.forwarding = true ∧ s.inThinking = false ∧ enqueue s .restartDialog = some u) ∨
        s.forwarding = false ∧ enqueue { s with forwarding := true } .startForward = some u) := by
  rw [onWakeWord] at h
  by_cases hready : s.firstDialogState = .notStart
  · rw [if_pos hready] at h
    exact Or.inl (Option.some.inj h).symm
  rw [if_neg hready] at h
  by_cases hmic : ¬ s.micOn = true
  · rw [if_pos hmic] at h
    exact Or.inl (Option.some.inj h).symm
  rw [if_neg hmic] at h
  by_cases hnet : ¬ s.hasNetwork = true
  · rw [if_pos hnet] at h
    exact Or.inl (Option.some.inj h).symm
  rw [if_neg hnet] at h
  have hs : Listening s := by
    refine ⟨?_, not_not.mp hmic, not_not.mp hnet⟩
    cases hstate : s.firstDialogState with
    | notStart => exact absurd hstate hready
    | started => rfl
  by_cases hf : s.forwarding = true
  · rw [if_pos hf] at h
    by_cases ht : s.inThinking = true
    · rw [if_pos ht] at h
      exact Or.inl (Option.some.inj h).symm
    · rw [if_neg ht] at h
      exact Or.inr ⟨hs, Or.inl ⟨hf, Bool.eq_false_iff.mpr ht, h⟩⟩
  · rw [if_neg hf] at h
    exact Or.inr ⟨hs, Or.inr ⟨Bool.eq_false_iff.mpr hf, h⟩⟩

/-- What the handler of an event sends. -/
def sends : Event → List Message
  | .authServerError => [.doStop]
  | .factoryReset => [.doClearDataThenQuit]
  | _ => []

theorem doDialogStart_not_mem_sends (e : Event) : .doDialogStart fifoPath ∉ sends e := by
  cases e <;> simp [sends]

@[simp] theorem handle_dialogEnd (s : State) : handle s .dialogEnd = stopCapture s := rfl

/-- What a handler does up to its `write`.  It leaves the pipe alone. -/
theorem untilWrite_frame {e : Event} (h : untilWrite s e = some u) :
    u.sent = s.sent ++ sends e ∧ u.restartPipe = s.restartPipe ∧
      u.firstDialogState =
        if e = .dialogEnd ∨ e = .authTokenExpired then .started else s.firstDialogState := by
  cases e with
  | dialogEnd =>
    rw [untilWrite, stopCapture] at h
    split at h
    · rw [← Option.some.inj h]
      exact ⟨(List.append_nil _).symm, rfl, rfl⟩
    · rename_i hstate
      obtain ⟨e, -, rfl⟩ := enqueue_cases h
      exact ⟨(List.append_nil _).symm, rfl, hstate⟩
  | stopped =>
    obtain ⟨e, -, rfl⟩ := enqueue_cases h
    exact ⟨(List.append_nil _).symm, rfl, rfl⟩
  | authServerError | factoryReset =>
    rw [← Option.some.inj h]
    exact ⟨rfl, rfl, rfl⟩
  | _ =>
    rw [← Option.some.inj h]
    exact ⟨(List.append_nil _).symm, rfl, rfl⟩

/-- A call is what comes before the `write`, and the `write`. -/
theorem handle_cases {e : Event} (h : handle s e = some u) :
    ∃ v, untilWrite s e = some v ∧
      u = { v with restartPipe := v.restartPipe ++ (restartByte e).toList } := by
  rw [handle] at h
  split at h
  · rename_i hbyte
    refine ⟨u, h, ?_⟩
    rw [hbyte, Option.toList_none, List.append_nil]
  · rename_i b hbyte
    obtain ⟨v, hv, rfl⟩ := Option.map_eq_some_iff.mp h
    refine ⟨v, hv, ?_⟩
    rw [hbyte]
    rfl

theorem sent_handle {e : Event} (h : handle s e = some u) : u.sent = s.sent ++ sends e := by
  obtain ⟨v, hv, rfl⟩ := handle_cases h
  exact (untilWrite_frame hv).1

/-- The wake word sends nothing and leaves `main`'s variables alone. -/
theorem onWakeWord_frame (h : onWakeWord s = some u) :
    u.sent = s.sent ∧ u.firstDialogState = s.firstDialogState ∧
      u.restartPipe = s.restartPipe := by
  rcases onWakeWord_cases h with rfl | ⟨-, ⟨-, -, h⟩ | ⟨-, h⟩⟩
  · exact ⟨rfl, rfl, rfl⟩
  · obtain ⟨e, -, rfl⟩ := enqueue_cases h
    exact ⟨rfl, rfl, rfl⟩
  · obtain ⟨e, -, rfl⟩ := enqueue_cases h
    exact ⟨rfl, rfl, rfl⟩

/-- The worker has taken the front task `t` and runs it. -/
theorem runTask_cases {fd : Int} (h : runTask s fd = some u) :
    ∃ t e, s.executor.tasks = t :: e.tasks ∧
      match t with
      | .closeFifo => u = closeFifoTask { s with executor := e }
      | .startForward => startForwardTask { s with executor := e } fd = some u
      | .restartDialog => u = restartDialogTask { s with executor := e } := by
  rw [runTask] at h
  split at h
  · cases h
  all_goals
    rename_i e he
    exact ⟨_, e, ThreadPool.tasks_of_take he, by simpa [eq_comm] using h⟩

/-- What a start task does: `open` fails, or returns a fresh descriptor. -/
theorem startForwardTask_cases {fd : Int} (h : startForwardTask s fd = some u) :
    u.sent = s.sent ++ [.doDialogStart fifoPath] ∧
      u.firstDialogState = s.firstDialogState ∧ u.restartPipe = s.restartPipe ∧
      u.executor = s.executor ∧
      ((fd = -1 ∧ u.forwarding = false ∧ u.fdAudio = -1 ∧ u.fifos = s.fifos) ∨
        (0 ≤ fd ∧ fd ∉ s.fifos ∧ u.forwarding = s.forwarding ∧ u.fdAudio = fd ∧
          u.fifos = fd :: s.fifos)) := by
  rw [startForwardTask] at h
  by_cases hopen : OpenResult s fd
  · rw [if_pos hopen] at h
    rcases hopen with rfl | ⟨hpos, hfresh⟩
    · simp only [show (-1 : Int) < 0 by decide, if_true, Option.some.injEq] at h
      rw [← h]
      exact ⟨rfl, rfl, rfl, rfl, Or.inl ⟨rfl, rfl, rfl, rfl⟩⟩
    · simp only [show ¬ fd < 0 by omega, if_false, Option.some.injEq] at h
      rw [← h]
      exact ⟨rfl, rfl, rfl, rfl, Or.inr ⟨hpos, hfresh, rfl, rfl, rfl⟩⟩
  · rw [if_neg hopen] at h
    cases h

@[simp] theorem sent_closeFifoTask (s : State) : (closeFifoTask s).sent = s.sent := by
  rw [closeFifoTask]
  split <;> rfl

@[simp] theorem executor_closeFifoTask (s : State) : (closeFifoTask s).executor = s.executor := by
  rw [closeFifoTask]
  split <;> rfl

/-- The tasks touch the capture state and what is sent, and nothing else. -/
theorem runTask_eq {fd : Int} (h : runTask s fd = some u) :
    u = { s with
      forwarding := u.forwarding
      fdAudio := u.fdAudio
      executor := u.executor
      fifos := u.fifos
      sent := u.sent } := by
  obtain ⟨t, e, -, ht⟩ := runTask_cases h
  cases t with
  | closeFifo =>
    obtain rfl : u = _ := ht
    rw [closeFifoTask]
    split <;> rfl
  | startForward =>
    have ht : startForwardTask { s with executor := e } fd = some u := ht
    rw [startForwardTask] at ht
    split at ht
    · split at ht
      all_goals
        rw [← Option.some.inj ht]
        rfl
    · cases ht
  | restartDialog =>
    obtain rfl : u = _ := ht
    rfl

/-- A task sends DO_DIALOG_START or nothing, and leaves `main`'s variables
alone. -/
theorem runTask_frame {fd : Int} (h : runTask s fd = some u) :
    (u.sent = s.sent ∨ u.sent = s.sent ++ [.doDialogStart fifoPath]) ∧
      u.firstDialogState = s.firstDialogState ∧ u.restartPipe = s.restartPipe := by
  have hstate := congrArg State.firstDialogState (runTask_eq h)
  have hpipe := congrArg State.restartPipe (runTask_eq h)
  refine ⟨?_, hstate, hpipe⟩
  obtain ⟨t, e, -, ht⟩ := runTask_cases h
  cases t with
  | closeFifo =>
    obtain rfl : u = _ := ht
    exact Or.inl (sent_closeFifoTask _)
  | startForward => exact Or.inr (startForwardTask_cases ht).1
  | restartDialog =>
    obtain rfl : u = _ := ht
    exact Or.inr rfl

/-- `stopAuthCodePlayer` after a step. -/
def stopAuthCode (stop : Bool) : Action → Bool
  | .event .authRequired => false
  | .event .authOk | .event .authServerError => true
  | _ => stop

/-- What a step does to the variables that few steps touch. -/
structure StepFrame (s : State) (a : Action) (u : State) : Prop where
  micOn : a ≠ .micMute → u.micOn = s.micOn
  fdAudio : (∀ fd, a ≠ .runTask fd) → u.fdAudio = s.fdAudio
  fifos : (∀ fd, a ≠ .runTask fd) → u.fifos = s.fifos
  stopAuthCodePlayer : u.stopAuthCodePlayer = stopAuthCode s.stopAuthCodePlayer a

theorem step_frame {a : Action} (h : step s a = some u) : StepFrame s a u := by
  cases a with
  | event e =>
    cases e with
    | dialogEnd =>
      rw [step, handle_dialogEnd, stopCapture] at h
      split at h
      · rw [← Option.some.inj h]
        exact ⟨fun _ => rfl, fun _ => rfl, fun _ => rfl, rfl⟩
      · obtain ⟨e, -, rfl⟩ := enqueue_cases h
        exact ⟨fun _ => rfl, fun _ => rfl, fun _ => rfl, rfl⟩
    | stopped =>
      obtain ⟨e, -, rfl⟩ := enqueue_cases h
      exact ⟨fun _ => rfl, fun _ => rfl, fun _ => rfl, rfl⟩
    | _ =>
      rw [← Option.some.inj h]
      exact ⟨fun _ => rfl, fun _ => rfl, fun _ => rfl, rfl⟩
  | wakeWord =>
    rcases onWakeWord_cases h with rfl | ⟨-, ⟨-, -, h⟩ | ⟨-, h⟩⟩
    · exact ⟨fun _ => rfl, fun _ => rfl, fun _ => rfl, rfl⟩
    · obtain ⟨e, -, rfl⟩ := enqueue_cases h
      exact ⟨fun _ => rfl, fun _ => rfl, fun _ => rfl, rfl⟩
    · obtain ⟨e, -, rfl⟩ := enqueue_cases h
      exact ⟨fun _ => rfl, fun _ => rfl, fun _ => rfl, rfl⟩
  | runTask fd =>
    have hmicOn := congrArg State.micOn (runTask_eq h)
    have hstop := congrArg State.stopAuthCodePlayer (runTask_eq h)
    exact ⟨fun _ => hmicOn, fun hfd => absurd rfl (hfd fd), fun hfd => absurd rfl (hfd fd), hstop⟩
  | network ok =>
    rw [← Option.some.inj h, onNetworkStatusChanged]
    split
    · exact ⟨fun _ => rfl, fun _ => rfl, fun _ => rfl, rfl⟩
    · exact ⟨fun _ => rfl, fun _ => rfl, fun _ => rfl, rfl⟩
  | micMute =>
    rw [← Option.some.inj h]
    exact ⟨fun hne => absurd rfl hne, fun _ => rfl, fun _ => rfl, rfl⟩
  | restart | waitStart =>
    rw [← Option.some.inj h]
    exact ⟨fun _ => rfl, fun _ => rfl, fun _ => rfl, rfl⟩

end Frame

end MicAgent
