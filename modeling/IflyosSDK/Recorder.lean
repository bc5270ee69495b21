/-
The recorder, and what the restarts of `main` do to it.

`main` starts the recorder once, in front of the label WAIT_START; both restart
keys stop it and go back to the label.  `Device` is the system of main thread,
handlers and app together with its recorder.

* `Recorder.start`, `Recorder.stop` — the recorder;
* `Device.step` — one step of the device;
* `Device.started_iff` — the recorder is started until the first restart;
* `Device.records_in_key_loop_iff` — **the microphone in the key loop**.
-/
import IflyosSDK.MicAgentMain

namespace MicAgent

/-- `Recorder::Format`. -/
inductive Format
  | noneOutput
  | caeOutput
  | originOutput
  | sonicDecode
  deriving DecidableEq, Repr

/-- The task that reads a frame and enqueues itself again. -/
inductive RecorderTask
  | readAudio
  deriving DecidableEq, Repr

/-- The recorder.  `handle` says whether `m_pcmParams.handle` is set. -/
structure Recorder where
  executor : Option (ThreadPool RecorderTask)
  quit : Bool
  handle : Bool
  format : Format
  deriving DecidableEq, Repr

/-- What `alsa_tdmin_init` returns, and whether it has opened the device. -/
structure AlsaInit where
  ret : Int
  opened : Bool
  deriving DecidableEq, Repr

namespace Recorder

/-- A constructed recorder, in the format that `main` sets.  The constructor
leaves `m_quit` as it is. -/
def new (quit : Bool) : Recorder := ⟨none, quit, false, .originOutput⟩

/-- `Recorder::start`. -/
def start (alsa : AlsaInit) (r : Recorder) : Recorder :=
  let r := { r with handle := r.handle || alsa.opened }
  if alsa.ret ≠ 0 then r
  else { r with quit := false, executor := ThreadPool.new.enqueue .readAudio }

/-- `Recorder::stop`. -/
def stop (r : Recorder) : Recorder := { r with quit := true, executor := none, handle := false }

/-- The recorder reads audio. -/
def Started (r : Recorder) : Prop := r.executor.isSome ∧ r.quit = false

instance (r : Recorder) : Decidable r.Started := inferInstanceAs (Decidable (_ ∧ _))

/-- What the key loop does to the recorder. -/
def onKey (r : Recorder) : SysKey → Recorder
  | .restartIflyos | .netConfig => r.stop
  | _ => r

theorem started_start {alsa : AlsaInit} (halsa : alsa.ret = 0) (r : Recorder) :
    (r.start alsa).Started := by
  rw [start, if_neg (not_not.mpr halsa)]
  exact ⟨rfl, rfl⟩

theorem not_started_stop (r : Recorder) : ¬ r.stop.Started := by
  rintro ⟨-, hquit⟩
  cases hquit

end Recorder

structure Device where
  system : System
  recorder : Recorder
  deriving DecidableEq, Repr

namespace Device

/-- `main` has started the recorder and come to WAIT_START. -/
def start (s : System) (quit : Bool) (alsa : AlsaInit) : Device :=
  ⟨{ s with toCore := s.arrived }, (Recorder.new quit).start alsa⟩

/-- The key that a step handles, from the keys or from the restart pipe. -/
def handledKey (s : System) : System.Action → Option SysKey
  | .key c => some (keyOfChar c)
  | .main =>
    match s.main, s.agent.restartPipe with
    | .keyLoop, b :: _ => some (keyOfRestart b)
    | _, _ => none
  | _ => none

/-- One step.  The wake word comes from the recorder. -/
def step (s : Device) (a : System.Action) : Option Device :=
  if a = .wakeWord ∧ ¬ s.recorder.Started then none
  else
    (s.system.step a).map fun u =>
      ⟨u, match handledKey s.system a with
        | some k => s.recorder.onKey k
        | none => s.recorder⟩

/-- The step handles KEY_RESTART_IFLYOS or KEY_NET_CONFIG. -/
def Restarts (s : Device) (a : System.Action) : Prop :=
  handledKey s.system a = some .restartIflyos ∨ handledKey s.system a = some .netConfig

instance (s : Device) (a : System.Action) : Decidable (Restarts s a) :=
  inferInstanceAs (Decidable (_ ∨ _))

variable {s u : Device} {a : System.Action} {tr : List (Device × System.Action)}

/-- A step stops the recorder exactly when it is a restart. -/
theorem started_step_iff (h : step s a = some u) :
    u.recorder.Started ↔ s.recorder.Started ∧ ¬ Restarts s a := by
  rw [step] at h
  split at h
  · cases h
  · obtain ⟨v, -, rfl⟩ := Option.map_eq_some_iff.mp h
    rw [Restarts]
    cases hkey : handledKey s.system a with
    | none => simp
    | some k =>
      have hstop : ¬ s.recorder.stop.Started := s.recorder.not_started_stop
      cases k with
      | restartIflyos | netConfig => simpa [Recorder.onKey] using hstop
      | _ => simp [Recorder.onKey]

variable {s₀ : System} {quit : Bool} {alsa : AlsaInit}

/-- The recorder is started until the first restart. -/
theorem started_iff (halsa : alsa.ret = 0) (h : Run step (start s₀ quit alsa) tr s) :
    s.recorder.Started ↔ ∀ p ∈ tr, ¬ Restarts p.1 p.2 := by
  have h0 : (start s₀ quit alsa).recorder.Started := Recorder.started_start halsa _
  exact Run.iff_forall (I := fun s => s.recorder.Started) (C := fun s a => ¬ Restarts s a) h0
    (fun _ _ _ hu => started_step_iff hu) h

/-- **The microphone in the key loop.**  Whenever `main` is in the key loop, the
recorder is started exactly when no restart key has been handled before. -/
theorem records_in_key_loop_iff (halsa : alsa.ret = 0)
    (h : Run step (start s₀ quit alsa) tr s) :
    (s.system.main = .keyLoop → s.recorder.Started) ↔
      (s.system.main = .keyLoop → ∀ p ∈ tr, ¬ Restarts p.1 p.2) := by
  rw [started_iff halsa h]

/-- The device of `System.online`. -/
def online : Device := start System.online false ⟨0, true⟩

/-- The app becomes ready, and keys are handled. -/
theorem records_before_restart :
    ∃ tr s, Run step online tr s ∧ s.system.main = .keyLoop ∧ s.recorder.Started := by
  have h : Run step online _ _ :=
    Run.of_exec [.umbrella true, .send .dialogEnd, .deliver 0, .main, .key 'u', .key 'm'] rfl
  exact ⟨_, _, h, rfl, (records_in_key_loop_iff rfl h).mpr (fun _ => by decide) rfl⟩

/-- **After a restart the microphone stays off**: the app becomes ready again,
and the keys are handled without the recorder. -/
theorem deaf_after_restart :
    ∃ tr s, Run step online tr s ∧ s.system.main = .keyLoop ∧ ¬ s.recorder.Started := by
  have h : Run step online _ _ :=
    Run.of_exec [.umbrella true, .send .dialogEnd, .deliver 0, .main, .key 'n', .main,
      .umbrella true, .appExits, .main, .umbrella true, .send .dialogEnd, .deliver 0, .main] rfl
  exact ⟨_, _, h, rfl, by decide⟩

end Device

end MicAgent
