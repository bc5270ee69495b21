/-
MicAgent's handlers and the start of `main`.

The handlers run on the receiver thread from the moment IFLYOS_InterfaceInit
returns, while `main` goes on: it waits for the network, makes the restart pipe,
constructs the player and starts the recorder.  `accesses` lists what a handler
does with these resources and with the lines of its payload.

* `accesses` — the accesses of each handler;
* `Process.step` — a step of `main`, or of the receiver thread;
* `Process.handler_safe_iff` — the calls of a handler that are safe;
* `Process.handlers_safe_iff` — **the runs in which every call is safe**.
-/
import IflyosSDK.Lines
import IflyosSDK.Memory
import IflyosSDK.MicAgent

namespace MicAgent

/-- The events registered in `main`: those whose handlers touch MicAgent's
variables, and the others. -/
inductive Registered
  | event (e : Event)
  | volChanged
  | swUpdate
  | swUpdateCheck
  | setWakeword
  | reboot
  deriving DecidableEq, Repr

/-- `pcmPlayer->play`, a `write` to `restartChannel`, and `lines[i]`. -/
inductive Access
  | play (vol : Option Int)
  | restart (b : UInt8)
  | line (lines : List Bytes) (i : ℕ)
  deriving DecidableEq, Repr

/-- `IFLYOS_InterfaceGetLines(msg, lines)`. -/
def linesOf (msg : CString) : List Bytes := (interfaceGetLines msg.bytes).getD []

/-- `volChanged`. -/
def volChanged (msg : CString) : List Access :=
  let lines := linesOf msg
  if lines.length ≠ 2 then []
  else [.line lines 0, .play (atoi (lines.headD [] ++ [0]))]

/-- What a handler does with the player, the restart pipe and the lines of its
payload. -/
def accesses : Registered → CString → List Access
  | .event e, _ => (restartByte e).toList.map .restart
  | .volChanged, msg => volChanged msg
  | .setWakeword, msg => [.line (linesOf msg) 1]
  | .swUpdate, _ | .swUpdateCheck, _ | .reboot, _ => []

/-- Where `main` stands behind IFLYOS_InterfaceInit. -/
inductive Startup
  | waitNetwork (count : ℕ)
  | makePipe
  | makePlayer
  | startRecorder
  | started
  deriving DecidableEq, Repr

/-- `restartChannel` has been set. -/
def Startup.HasPipe : Startup → Prop
  | .waitNetwork _ | .makePipe => False
  | .makePlayer | .startRecorder | .started => True

/-- `pcmPlayer` has been constructed. -/
def Startup.HasPlayer : Startup → Prop
  | .waitNetwork _ | .makePipe | .makePlayer => False
  | .startRecorder | .started => True

instance : (m : Startup) → Decidable m.HasPipe
  | .waitNetwork _ | .makePipe => isFalse id
  | .makePlayer | .startRecorder | .started => isTrue trivial

instance : (m : Startup) → Decidable m.HasPlayer
  | .waitNetwork _ | .makePipe | .makePlayer => isFalse id
  | .startRecorder | .started => isTrue trivial

/-- The process: what its handlers and `main` share, and the handler that is
running.  An access with no defined behaviour ends it. -/
structure Process where
  agent : State
  main : Startup
  restartChannel : Int
  pcmPlayer : Bool
  handling : Option (Registered × CString)
  crashed : Bool
  deriving DecidableEq

namespace Process

/-- IFLYOS_InterfaceInit has returned. -/
def start : Process := ⟨init, .waitNetwork 0, -1, false, none, false⟩

/-- `main` takes its next step (`fd` is what `pipe` makes), the network status
changes, or the receiver thread calls a handler, and the handler comes to its
accesses. -/
inductive Action
  | main (fd : ℕ)
  | network (ok : Bool)
  | call (e : Registered) (msg : CString)
  | access
  deriving DecidableEq

variable (s : Process)

/-- `main` up to its key loop. -/
def mainStep (fd : ℕ) : Option Process :=
  match s.main with
  | .waitNetwork count =>
    if s.agent.hasNetwork then some { s with main := .makePipe }
    -- `setNetwork`
    else if 60 < count + 5 then some { s with main := .makePipe }
    else some { s with main := .waitNetwork (count + 5) }
  | .makePipe => some { s with main := .makePlayer, restartChannel := fd }
  | .makePlayer => some { s with main := .startRecorder, pcmPlayer := true }
  | .startRecorder => some { s with main := .started }
  | .started => none

/-- The access touches nothing that is not there. -/
def Safe : Access → Prop
  | .play _ => s.pcmPlayer = true
  | .restart _ => s.restartChannel ≠ -1
  | .line lines i => i < lines.length

instance : (x : Access) → Decidable (s.Safe x)
  | .play _ => inferInstanceAs (Decidable (_ = _))
  | .restart _ => inferInstanceAs (Decidable (_ ≠ _))
  | .line lines i => inferInstanceAs (Decidable (i < lines.length))

/-- The access has a defined behaviour; what is written to no pipe is lost. -/
def Defined : Access → Prop
  | .restart _ => True
  | x => s.Safe x

instance : (x : Access) → Decidable (s.Defined x)
  | .restart _ => isTrue trivial
  | .play vol => inferInstanceAs (Decidable (s.Safe (.play vol)))
  | .line lines i => inferInstanceAs (Decidable (s.Safe (.line lines i)))

/-- What is left of the handler's effect when `restartChannel` is no pipe. -/
def afterWrite (u : State) : State :=
  if s.restartChannel = -1 then { u with restartPipe := s.agent.restartPipe } else u

/-- The handler runs to its end. -/
def access : Option Process :=
  match s.handling with
  | none => none
  | some (e, msg) =>
    if ∀ x ∈ accesses e msg, s.Defined x then
      match e with
      | .event e =>
        (handle s.agent e).map fun u => { s with agent := s.afterWrite u, handling := none }
      | _ => some { s with handling := none }
    else some { s with crashed := true }

def act (s : Process) : Action → Option Process
  | .main fd => s.mainStep fd
  | .network ok => some { s with agent := onNetworkStatusChanged s.agent ok }
  | .call e msg =>
    match s.handling with
    | none => some { s with handling := some (e, msg) }
    | some _ => none
  | .access => s.access

def step (s : Process) (a : Action) : Option Process := if s.crashed then none else s.act a

/-- A handler that comes to its accesses finds what it needs. -/
def HandlerSafe (p : Process × Action) : Prop :=
  p.2 = .access → ∀ c ∈ p.1.handling, ∀ x ∈ accesses c.1 c.2, p.1.Safe x

/-- What each handler takes for granted: VOL_CHANGED with two lines that the
player is there, an event that asks for a restart that the pipe is there, and
SET_WAKEWORD that its payload has a second line. -/
def Expects (m : Startup) : Registered → CString → Prop
  | .event e, _ => restartByte e ≠ none → m.HasPipe
  | .volChanged, msg => msg.bytes.count newline = 1 → m.HasPlayer
  | .setWakeword, msg => newline ∈ msg.bytes
  | .swUpdate, _ | .swUpdateCheck, _ | .reboot, _ => True

/-- A handler comes to its accesses when what it takes for granted is so. -/
def Timely (p : Process × Action) : Prop :=
  p.2 = .access → ∀ c ∈ p.1.handling, Expects p.1.main c.1 c.2

instance (m : Startup) : (e : Registered) → (msg : CString) → Decidable (Expects m e msg)
  | .event e, _ => inferInstanceAs (Decidable (restartByte e ≠ none → m.HasPipe))
  | .volChanged, msg => inferInstanceAs (Decidable (msg.bytes.count newline = 1 → m.HasPlayer))
  | .setWakeword, msg => inferInstanceAs (Decidable (newline ∈ msg.bytes))
  | .swUpdate, _ | .swUpdateCheck, _ | .reboot, _ => isTrue trivial

instance (p : Process × Action) : Decidable (HandlerSafe p) :=
  inferInstanceAs (Decidable (_ → _))

instance (p : Process × Action) : Decidable (Timely p) := inferInstanceAs (Decidable (_ → _))

/-! ### What `main` has made -/

structure Inv (s : Process) : Prop where
  pipe : s.restartChannel ≠ -1 ↔ s.main.HasPipe
  player : s.pcmPlayer = true ↔ s.main.HasPlayer

variable {s} {u : Process} {a : Action} {tr : List (Process × Action)}

theorem inv_start : Inv start where
  pipe := iff_of_false (not_not.mpr rfl) id
  player := iff_of_false Bool.noConfusion id

theorem act_of_step (h : step s a = some u) : s.act a = some u := by
  rw [step] at h
  split at h
  · cases h
  · exact h

/-- `main` makes the resources one after the other. -/
theorem inv_mainStep {fd : ℕ} (hinv : Inv s) (h : s.mainStep fd = some u) : Inv u := by
  obtain ⟨hpipe, hplayer⟩ := hinv
  rw [mainStep] at h
  split at h
  · rename_i hmain
    rw [hmain] at hpipe hplayer
    split at h
    · rw [← Option.some.inj h]
      exact ⟨hpipe, hplayer⟩
    split at h
    · rw [← Option.some.inj h]
      exact ⟨hpipe, hplayer⟩
    · rw [← Option.some.inj h]
      exact ⟨hpipe, hplayer⟩
  · rename_i hmain
    rw [hmain] at hplayer
    rw [← Option.some.inj h]
    have hfd : (fd : Int) ≠ -1 := by omega
    exact ⟨iff_of_true hfd trivial, hplayer⟩
  · rename_i hmain
    rw [hmain] at hpipe
    rw [← Option.some.inj h]
    exact ⟨hpipe, iff_of_true rfl trivial⟩
  · rename_i hmain
    rw [hmain] at hpipe hplayer
    rw [← Option.some.inj h]
    exact ⟨hpipe, hplayer⟩
  · cases h

theorem inv_step (hinv : Inv s) (h : step s a = some u) : Inv u := by
  have h := act_of_step h
  cases a with
  | main fd => exact inv_mainStep hinv h
  | network ok =>
    rw [← Option.some.inj h]
    exact ⟨hinv.pipe, hinv.player⟩
  | call e msg =>
    rw [act] at h
    split at h
    · rw [← Option.some.inj h]
      exact ⟨hinv.pipe, hinv.player⟩
    · cases h
  | access =>
    rw [act, access] at h
    split at h
    · cases h
    split at h
    · split at h
      · obtain ⟨v, -, rfl⟩ := Option.map_eq_some_iff.mp h
        exact ⟨hinv.pipe, hinv.player⟩
      · rw [← Option.some.inj h]
        exact ⟨hinv.pipe, hinv.player⟩
    · rw [← Option.some.inj h]
      exact ⟨hinv.pipe, hinv.player⟩

/-! ### The calls that are safe -/

theorem length_linesOf (msg : CString) : (linesOf msg).length = msg.bytes.count newline + 1 := by
  rw [linesOf, interfaceGetLines_eq, Option.getD_some, length_splitOn]

/-- **The calls of a handler that are safe.** -/
theorem handler_safe_iff (hinv : Inv s) (e : Registered) (msg : CString) :
    (∀ x ∈ accesses e msg, s.Safe x) ↔ Expects s.main e msg := by
  have hlen := length_linesOf msg
  cases e with
  | event e =>
    rw [accesses, Expects, ← hinv.pipe]
    cases hbyte : restartByte e with
    | none => simp
    | some b => simp [Safe]
  | volChanged =>
    rw [accesses, volChanged, Expects, ← hinv.player]
    by_cases htwo : msg.bytes.count newline = 1
    · rw [if_neg (by omega), List.forall_mem_cons, List.forall_mem_singleton]
      have hline : s.Safe (.line (linesOf msg) 0) := by
        show 0 < (linesOf msg).length
        omega
      exact ⟨fun h _ => h.2, fun h => ⟨hline, h htwo⟩⟩
    · rw [if_pos (by omega)]
      exact iff_of_true (by simp) fun h => absurd h htwo
  | setWakeword =>
    rw [accesses, List.forall_mem_singleton, Expects, ← List.count_pos_iff]
    show 1 < (linesOf msg).length ↔ _
    omega
  | swUpdate | swUpdateCheck | reboot =>
    rw [accesses, Expects]
    simp

/-- **The runs in which every call of a handler is safe**: those in which it
finds what it takes for granted. -/
theorem handlers_safe_iff (h : Run step start tr s) :
    (∀ p ∈ tr, HandlerSafe p) ↔ ∀ p ∈ tr, Timely p := by
  have hinv : ∀ p ∈ tr, Inv p.1 := h.states inv_start fun _ _ _ ht hu => inv_step ht hu
  refine forall₂_congr fun p hp => ?_
  rw [HandlerSafe, Timely]
  refine forall_congr' fun _ => forall₂_congr fun c _ => ?_
  exact handler_safe_iff (hinv p hp) c.1 c.2

/-- The payload of a VOL_CHANGED with two lines. -/
def twoLines : CString := ⟨[53, 48, newline, 97], by decide⟩

/-- The payload of a SET_WAKEWORD with one line. -/
def oneLine : CString := ⟨[97], by decide⟩

/-- Each resource is there when its first handler is called. -/
theorem handlers_safe_in_order :
    ∃ tr s, Run step start tr s ∧ s.main = .started ∧ ∀ p ∈ tr, HandlerSafe p := by
  have h : Run step start _ _ :=
    Run.of_exec [.call .setWakeword twoLines, .access, .network true, .main 5, .main 7,
      .call (.event .authServerError) oneLine, .access, .main 5, .call .volChanged twoLines,
      .access, .main 5] rfl
  exact ⟨_, _, h, rfl, (handlers_safe_iff h).mpr (by decide)⟩

/-- **Handlers that are called too early**, or with one line only: the first
request is lost, and the other two accesses have no result. -/
theorem handlers_unsafe :
    (∃ tr s, Run step start tr s ∧ (¬ ∀ p ∈ tr, HandlerSafe p) ∧ s.agent.sent = [.doStop] ∧
        s.agent.restartPipe = []) ∧
      (∃ tr s, Run step start tr s ∧ (¬ ∀ p ∈ tr, HandlerSafe p) ∧ s.main = .makePlayer ∧
        s.crashed) ∧
      ∃ tr s, Run step start tr s ∧ (¬ ∀ p ∈ tr, HandlerSafe p) ∧ s.main = .started ∧
        s.crashed := by
  have h₁ : Run step start _ _ :=
    Run.of_exec [.call (.event .authServerError) oneLine, .access] rfl
  have h₂ : Run step start _ _ :=
    Run.of_exec [.network true, .main 5, .main 7, .call .volChanged twoLines, .access] rfl
  have h₃ : Run step start _ _ :=
    Run.of_exec [.network true, .main 5, .main 7, .main 5, .main 5, .call .setWakeword oneLine,
      .access] rfl
  exact ⟨⟨_, _, h₁, by decide, rfl, rfl⟩, ⟨_, _, h₂, by decide, rfl, rfl⟩,
    _, _, h₃, by decide, rfl, rfl⟩

end Process

end MicAgent
