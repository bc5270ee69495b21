/-
MicAgent's main thread, the restart pipe and the IFLYOS app.

`main` makes the restart pipe, and a little later waits in WAIT_START until
`firstDialogState` is STARTED.  It reads the pipe and the keys only in the key
loop behind it; a restart sets NOT_START again and goes back.  The app is taken
as the interface header specifies it: it sends events only while it runs, exits
some time after it has sent AUTH_SERVER_ERROR or AUTH_TOKEN_EXPIRED or been given
DO_STOP or DO_CLEAR_DATA_THEN_QUIT, and runs again only after a DO_START.  The
umbrella obeys these commands in their order, some time after they have been
sent.  What the app has sent is handled at any time, also when it has exited.  The
network status does not change.

* `Core` — the handlers' variables, `main` and the app;
* `System.step` — one step of the handlers, of `main` or of the app; the `write`
  of a handler is a step of its own;
* `System.Stuck` — `main` waits for an app that nobody starts, with a request
  unread;
* `System.stuck_step_iff` — the steps that lead there;
* `System.not_stuck_iff` — **the runs without a stuck state**.
-/
import IflyosSDK.MicAgent

namespace MicAgent

/-! ### Keys -/

/-- `SYSKEY_Value`. -/
inductive SysKey
  | volDown
  | volUp
  | playPause
  | micMute
  | volDownLongPress
  | volUpLongPress
  | playPauseLongPress
  | netConfig
  | restartIflyos
  | setDndOn
  | setDndOff
  | none
  | error
  deriving DecidableEq, Repr

/-- `C2KMap`. -/
def keyOfChar : Char → SysKey
  | 'u' => .volUp
  | 'U' => .volUpLongPress
  | 'd' => .volDown
  | 'D' => .volDownLongPress
  | 'm' => .micMute
  | 'p' => .playPause
  | 'P' => .playPauseLongPress
  | 'n' => .netConfig
  | 'O' => .setDndOn
  | 'o' => .setDndOff
  | _ => .none

/-- The key that a byte of the restart pipe stands for. -/
def keyOfRestart (b : UInt8) : SysKey := if b ≠ 0 then .netConfig else .restartIflyos

/-! ### The app -/

/-- The app: whether it runs, whether it is to exit, whether a DO_START has been
sent since it stopped, and the commands that the umbrella has still to obey. -/
structure App where
  running : Bool
  exiting : Bool
  startSent : Bool
  wire : List Message
  deriving DecidableEq, Repr

namespace App

/-- A message is sent to the umbrella. -/
def receive (app : App) : Message → App
  | .doStart => { app with startSent := true, wire := app.wire ++ [.doStart] }
  | .doStop => { app with wire := app.wire ++ [.doStop] }
  | .doClearDataThenQuit => { app with wire := app.wire ++ [.doClearDataThenQuit] }
  | _ => app

/-- The umbrella obeys a command.  A DO_START does nothing when there is an app,
or one that has exited and has not been `reaped`. -/
def obey (app : App) (reaped : Bool) : Option App :=
  match app.wire with
  | [] => none
  | .doStart :: wire => some { app with running := app.running || reaped, wire := wire }
  | _ :: wire => some { app with exiting := app.running, wire := wire }

def exit (app : App) : App := ⟨false, false, false, app.wire⟩

/-- The app is to exit when it has sent the events that say so. -/
def afterSending (app : App) : Event → App
  | .authServerError | .authTokenExpired => { app with exiting := true }
  | _ => app

/-- The app does not run, and nobody has started it since it stopped. -/
def Down (app : App) : Prop := app.running = false ∧ app.startSent = false

instance (app : App) : Decidable app.Down := inferInstanceAs (Decidable (_ ∧ _))

end App

/-! ### The main thread -/

/-- Where `main` is: between `pipe` and WAIT_START, there, in the key loop, or
before one of the two sends of a restart.  What it does between these (`sleep`,
`setNetwork`) is left out. -/
inductive Main
  | starting
  | waitStart
  | keyLoop
  | sendStop
  | sendStart
  deriving DecidableEq, Repr

/-- The handlers' variables, `main` and the app. -/
structure Core where
  agent : State
  main : Main
  app : App
  deriving DecidableEq, Repr

namespace Core

variable (s : Core)

/-- The agent has become `u`, and what it has sent on the way arrives. -/
def afterAgent (u : State) : Core :=
  { s with agent := u, app := (u.sent.drop s.agent.sent.length).foldl App.receive s.app }

/-- The key loop's `switch`.  A restart ends in `goto WAIT_START`. -/
def onKey : SysKey → Core
  | .setDndOn => s.afterAgent (send s.agent (.doSetDnd true))
  | .setDndOff => s.afterAgent (send s.agent (.doSetDnd false))
  | .restartIflyos | .netConfig =>
    { s with agent := { s.agent with firstDialogState := .notStart }, main := .sendStop }
  | .volDown => s.afterAgent (send s.agent .doKeypressVolDown)
  | .volUp => s.afterAgent (send s.agent .doKeypressVolUp)
  | .playPause => s.afterAgent (send s.agent .doKeypressPlayPause)
  | .micMute => { s with agent := { s.agent with micOn := !s.agent.micOn } }
  | .volDownLongPress | .volUpLongPress | .playPauseLongPress | .none | .error => s

/-- `main` comes to WAIT_START. -/
def arrived : Core :=
  { s with agent := { s.agent with inThinking := false }, main := .waitStart }

/-- A step of the main thread without a key: it comes to WAIT_START, tests the
loop's condition there, reads the restart pipe, or sends. -/
def mainStep : Option Core :=
  match s.main with
  | .starting => some s.arrived
  | .waitStart =>
    match s.agent.firstDialogState with
    | .notStart => some s
    | .started => some { s with main := .keyLoop }
  | .keyLoop =>
    match s.agent.restartPipe with
    | [] => none
    | b :: pipe =>
      some (onKey { s with agent := { s.agent with restartPipe := pipe } } (keyOfRestart b))
  | .sendStop => some { s.afterAgent (send s.agent .doStop) with main := .sendStart }
  | .sendStart =>
    -- goto WAIT_START
    some { s.afterAgent { send s.agent .doStart with inThinking := false } with
      main := .waitStart }

/-- A key is read.  A byte in the restart pipe comes first. -/
def readKey (c : Char) : Option Core :=
  if s.main = .keyLoop ∧ s.agent.restartPipe = [] then some (s.onKey (keyOfChar c)) else none

/-- The recorder hears the wake word. -/
def wakeWord : Option Core := (onWakeWord s.agent).map s.afterAgent

/-- The executor's worker runs a task. -/
def runTask (fd : Int) : Option Core := (MicAgent.runTask s.agent fd).map s.afterAgent

/-- `main` is in the WAIT_START loop. -/
def Waiting (s : Core) : Prop :=
  s.main = .waitStart ∧ s.agent.firstDialogState = .notStart

/-- `main` waits for an app that does not run and has not been started since it
stopped, and a restart request is unread. -/
def Stuck (s : Core) : Prop := s.Waiting ∧ s.agent.restartPipe ≠ [] ∧ s.app.Down

instance (s : Core) : Decidable s.Waiting := inferInstanceAs (Decidable (_ ∧ _))

instance (s : Core) : Decidable s.Stuck := inferInstanceAs (Decidable (_ ∧ _))

end Core

/-- All of it, with the events on their way to the receiver thread, and the byte
that the handler it runs has still to write. -/
structure System extends Core where
  inFlight : List Event
  writing : Option UInt8
  deriving DecidableEq, Repr

namespace System

/-- `main` has just made the restart pipe, and everything else is as it may be
by then. -/
def start (s : System) : System :=
  { s with agent := { s.agent with restartPipe := [] }, main := .starting }

/-- What can happen next.  The app sends an event, the receiver thread handles
one up to the `write`, or comes to the `write`; the umbrella obeys a command. -/
inductive Action
  | send (e : Event)
  | deliver (i : ℕ)
  | write
  | key (c : Char)
  | main
  | wakeWord
  | runTask (fd : Int)
  | umbrella (reaped : Bool)
  | appExits
  deriving DecidableEq, Repr

def step (s : System) : Action → Option System
  | .send e =>
    -- STOPPED comes from the umbrella
    if e = .stopped ∨ s.app.running then
      some { s with app := s.app.afterSending e, inFlight := s.inFlight ++ [e] }
    else none
  | .deliver i =>
    -- one handler at a time
    match s.writing with
    | some _ => none
    | none =>
      s.inFlight[i]?.bind fun e =>
        (untilWrite s.agent e).map fun u =>
          { toCore := s.afterAgent u
            inFlight := s.inFlight.eraseIdx i
            writing := restartByte e }
  | .write => s.writing.map fun b => { s with agent := writeRestart s.agent b, writing := none }
  | .key c => (s.readKey c).map fun t => { s with toCore := t }
  | .main => s.mainStep.map fun t => { s with toCore := t }
  | .wakeWord => s.wakeWord.map fun t => { s with toCore := t }
  | .runTask fd => (s.runTask fd).map fun t => { s with toCore := t }
  | .umbrella reaped => (s.app.obey reaped).map fun app => { s with app := app }
  | .appExits =>
    if s.app.running ∧ s.app.exiting then some { s with app := s.app.exit } else none

/-- The step leaves a request with `main` in WAIT_START and no app: a handler
writes it when the app is down, the app exits when it is unread, or `main` comes
to WAIT_START when both are so. -/
def Strands (s : System) : Action → Prop
  | .write => s.Waiting ∧ s.app.Down
  | .appExits => s.Waiting ∧ s.agent.restartPipe ≠ []
  | .main =>
    s.main = .starting ∧ s.agent.firstDialogState = .notStart ∧ s.agent.restartPipe ≠ [] ∧
      s.app.Down
  | _ => False

instance (s : System) : (a : Action) → Decidable (s.Strands a)
  | .write | .appExits | .main => inferInstanceAs (Decidable (_ ∧ _))
  | .send _ | .deliver _ | .key _ | .wakeWord | .runTask _ | .umbrella _ => isFalse id

end System

/-! ### One step -/

namespace Core

variable {s u : Core}

/-- A message other than DO_START leaves the app down if it is. -/
theorem down_receive_iff {app : App} {m : Message} (hm : m ≠ .doStart) :
    (app.receive m).Down ↔ app.Down := by
  cases m with
  | doStart => exact absurd rfl hm
  | _ => exact Iff.rfl

theorem down_foldl_receive_iff {ms : List Message} (hms : .doStart ∉ ms) (app : App) :
    (ms.foldl App.receive app).Down ↔ app.Down := by
  induction ms generalizing app with
  | nil => exact Iff.rfl
  | cons m ms ih =>
    rw [List.foldl_cons, ih (List.not_mem_of_not_mem_cons hms)]
    exact down_receive_iff (Ne.symm (List.ne_of_not_mem_cons hms))

/-- An app that is down behind a command was down before. -/
theorem down_of_obey {app v : App} {reaped : Bool} (h : app.obey reaped = some v)
    (hv : v.Down) : app.Down := by
  rw [App.obey] at h
  split at h
  · cases h
  · obtain rfl := Option.some.inj h
    exact ⟨(Bool.or_eq_false_iff.mp hv.1).1, hv.2⟩
  · obtain rfl := Option.some.inj h
    exact hv

/-- What is sent arrives. -/
theorem app_afterAgent {v : State} {l : List Message} (h : v.sent = s.agent.sent ++ l) :
    (s.afterAgent v).app = l.foldl App.receive s.app := by
  rw [afterAgent, h, List.drop_left]

theorem not_stuck_of_main (h : u.main ≠ .waitStart) : ¬ u.Stuck := fun hu => h hu.1.1

/-- A step that sends no DO_START and leaves the pipe and `firstDialogState`
alone. -/
theorem stuck_afterAgent_iff {v : State} {l : List Message}
    (hsent : v.sent = s.agent.sent ++ l) (hl : .doStart ∉ l)
    (hstate : v.firstDialogState = s.agent.firstDialogState)
    (hpipe : v.restartPipe = s.agent.restartPipe) : (s.afterAgent v).Stuck ↔ s.Stuck := by
  rw [Stuck, Waiting, app_afterAgent hsent, down_foldl_receive_iff hl, Stuck, Waiting]
  show (s.main = _ ∧ v.firstDialogState = _) ∧ v.restartPipe ≠ [] ∧ _ ↔ _
  rw [hstate, hpipe]

theorem main_onKey_ne (k : SysKey) (h : s.main ≠ .waitStart) : (s.onKey k).main ≠ .waitStart := by
  cases k with
  | restartIflyos | netConfig => exact Main.noConfusion
  | _ => exact h

/-- What `main` does without a key. -/
theorem stuck_mainStep_iff (hs : ¬ s.Stuck) (h : s.mainStep = some u) :
    u.Stuck ↔ s.main = .starting ∧ s.agent.firstDialogState = .notStart ∧
      s.agent.restartPipe ≠ [] ∧ s.app.Down := by
  rw [mainStep] at h
  split at h
  · rename_i hmain
    rw [← Option.some.inj h]
    exact ⟨fun hu => ⟨hmain, hu.1.2, hu.2⟩, fun hu => ⟨⟨rfl, hu.2.1⟩, hu.2.2⟩⟩
  all_goals
    rename_i hmain
    refine iff_of_false ?_ fun hu => Main.noConfusion (hmain.symm.trans hu.1)
  · split at h
    · rw [← Option.some.inj h]
      exact hs
    · rw [← Option.some.inj h]
      exact not_stuck_of_main Main.noConfusion
  · -- a byte is read; a key never leads to WAIT_START at once
    split at h
    · cases h
    · rw [← Option.some.inj h]
      refine not_stuck_of_main (main_onKey_ne _ ?_)
      rw [hmain]
      exact Main.noConfusion
  · rw [← Option.some.inj h]
    exact not_stuck_of_main Main.noConfusion
  · -- the DO_START has just been sent
    rw [← Option.some.inj h]
    rintro ⟨-, -, -, hsent⟩
    have happ := app_afterAgent (s := s) (v := { send s.agent .doStart with inThinking := false })
      (l := [.doStart]) rfl
    have hstart := congrArg App.startSent happ
    exact absurd (hstart.symm.trans hsent) (by simp [App.receive])

theorem not_stuck_readKey {c : Char} (h : s.readKey c = some u) : ¬ u.Stuck := by
  rw [readKey] at h
  split at h
  · rename_i hloop
    rw [← Option.some.inj h]
    refine not_stuck_of_main (main_onKey_ne _ ?_)
    rw [hloop.1]
    exact Main.noConfusion
  · cases h

theorem stuck_wakeWord_iff (h : s.wakeWord = some u) : u.Stuck ↔ s.Stuck := by
  obtain ⟨v, hv, rfl⟩ := Option.map_eq_some_iff.mp h
  obtain ⟨hsent, hstate, hpipe⟩ := onWakeWord_frame hv
  exact stuck_afterAgent_iff (l := []) (by rw [hsent, List.append_nil]) List.not_mem_nil hstate
    hpipe

theorem stuck_runTask_iff {fd : Int} (h : s.runTask fd = some u) : u.Stuck ↔ s.Stuck := by
  obtain ⟨v, hv, rfl⟩ := Option.map_eq_some_iff.mp h
  obtain ⟨hsent, hstate, hpipe⟩ := runTask_frame hv
  rcases hsent with hsent | hsent
  · exact stuck_afterAgent_iff (l := []) (by rw [hsent, List.append_nil]) List.not_mem_nil hstate
      hpipe
  · exact stuck_afterAgent_iff hsent (by simp) hstate hpipe

theorem doStart_not_mem_sends (e : Event) : .doStart ∉ sends e := by
  cases e <;> simp [sends]

/-- A handler does not get `main` stuck before it writes. -/
theorem not_stuck_untilWrite {v : State} {e : Event} (hs : ¬ s.Stuck)
    (h : untilWrite s.agent e = some v) : ¬ (s.afterAgent v).Stuck := by
  obtain ⟨hsent, hpipe, hstate⟩ := untilWrite_frame h
  by_cases hsets : e = .dialogEnd ∨ e = .authTokenExpired
  · -- `firstDialogState` is STARTED
    rw [if_pos hsets] at hstate
    rintro ⟨⟨-, hnot⟩, -⟩
    exact ReadyState.noConfusion (hstate.symm.trans hnot)
  · rw [if_neg hsets] at hstate
    rwa [stuck_afterAgent_iff hsent (doStart_not_mem_sends e) hstate hpipe]

end Core

namespace System

variable {s u : System} {a : Action} {tr : List (System × Action)}

/-- **The steps that lead to a stuck state.** -/
theorem stuck_step_iff (hs : ¬ s.Stuck) (h : s.step a = some u) : u.Stuck ↔ s.Strands a := by
  cases a with
  | send e =>
    rw [step] at h
    split at h
    · rw [← Option.some.inj h]
      refine iff_of_false (fun hu => hs ⟨hu.1, hu.2.1, ?_⟩) id
      have hdown := hu.2.2
      cases e <;> exact hdown
    · cases h
  | deliver i =>
    rw [step] at h
    split at h
    · cases h
    · obtain ⟨e, -, h⟩ := Option.bind_eq_some_iff.mp h
      obtain ⟨v, hv, rfl⟩ := Option.map_eq_some_iff.mp h
      exact iff_of_false (Core.not_stuck_untilWrite hs hv) id
  | write =>
    obtain ⟨b, -, rfl⟩ := Option.map_eq_some_iff.mp h
    have hpipe : s.agent.restartPipe ++ [b] ≠ [] := by simp
    exact ⟨fun hu => ⟨hu.1, hu.2.2⟩, fun hu => ⟨hu.1, hpipe, hu.2⟩⟩
  | key c =>
    obtain ⟨t, ht, rfl⟩ := Option.map_eq_some_iff.mp h
    exact iff_of_false (Core.not_stuck_readKey ht) id
  | main =>
    obtain ⟨t, ht, rfl⟩ := Option.map_eq_some_iff.mp h
    exact Core.stuck_mainStep_iff hs ht
  | wakeWord =>
    obtain ⟨t, ht, rfl⟩ := Option.map_eq_some_iff.mp h
    exact iff_of_false ((Core.stuck_wakeWord_iff ht).not.mpr hs) id
  | runTask fd =>
    obtain ⟨t, ht, rfl⟩ := Option.map_eq_some_iff.mp h
    exact iff_of_false ((Core.stuck_runTask_iff ht).not.mpr hs) id
  | umbrella reaped =>
    obtain ⟨app, happ, rfl⟩ := Option.map_eq_some_iff.mp h
    exact iff_of_false (fun hu => hs ⟨hu.1, hu.2.1, Core.down_of_obey happ hu.2.2⟩) id
  | appExits =>
    rw [step] at h
    split at h
    · rw [← Option.some.inj h]
      exact ⟨fun hu => ⟨hu.1, hu.2.1⟩, fun hu => ⟨hu.1, hu.2, rfl, rfl⟩⟩
    · cases h

/-! ### Whole runs -/

/-- **No state of a run is stuck exactly when none of its steps strands
`main`.** -/
theorem not_stuck_iff {s₀ : System} (h : Run step (start s₀) tr s) :
    ((∀ p ∈ tr, ¬ p.1.Stuck) ∧ ¬ s.Stuck) ↔ ∀ p ∈ tr, ¬ p.1.Strands p.2 := by
  have h0 : ¬ (start s₀).Stuck := Core.not_stuck_of_main Main.noConfusion
  have hstep : ∀ t a u, ¬ t.Stuck → step t a = some u → (¬ u.Stuck ↔ ¬ t.Strands a) :=
    fun t a u ht hu => not_congr (stuck_step_iff ht hu)
  exact Run.states_iff (I := fun s => ¬ s.Stuck) (C := fun s a => ¬ s.Strands a) h0 hstep h

/-- There is a network and DO_START has been sent. -/
def online : System where
  agent := { init with hasNetwork := true }
  main := .starting
  app := ⟨false, false, true, [.doStart]⟩
  inFlight := []
  writing := none

/-- The app starts, reports that it is ready, and then AUTH_SERVER_ERROR; `main`
reads the request and the app runs again. -/
theorem not_stuck_after_ready :
    ∃ tr s, Run step (start online) tr s ∧ tr.length = 15 ∧ s.app.running = true ∧
      (∀ p ∈ tr, ¬ p.1.Stuck) ∧ ¬ s.Stuck := by
  have h : Run step (start online) _ _ :=
    Run.of_exec [.main, .umbrella true, .send .dialogEnd, .deliver 0, .main, .send .authServerError,
      .appExits, .deliver 0, .write, .main, .main, .main, .umbrella true, .umbrella true,
      .umbrella true] rfl
  exact ⟨_, _, h, rfl, rfl, (not_stuck_iff h).mpr (by decide)⟩

/-- **AUTH_SERVER_ERROR before the first DIALOG_END leaves `main` stuck**: the
request is written, but `main` waits for an app that has exited. -/
theorem stuck_after_auth_server_error :
    ∃ tr s, Run step (start online) tr s ∧ s.Stuck := by
  have h : Run step (start online) _ _ :=
    Run.of_exec [.main, .umbrella true, .send .authServerError, .appExits, .deliver 0, .write] rfl
  exact ⟨_, _, h, by decide⟩

end System

end MicAgent
