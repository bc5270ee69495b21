/-
`main` with the pipes that its keys and its restart requests come through.

In `System` a key is an action of the environment, and in `Syskey` nobody acts
on a key.  Here `main` reads both pipes as the source does: it calls
`SysKey_Init` whenever it leaves WAIT_START, polls the pipes in its key loop,
and the handlers write to the restart pipe at any time since it has been made.

* `MainPipes.step` — a byte is written to a key pipe, `main` takes a step, or
  something else happens in `System`;
* `MainPipes.simulates_system` — `main` takes steps of `System`;
* `MainPipes.simulates_syskey` — the pipes take steps of `Syskey`;
* `MainPipes.serves_requests` — **the restart requests are served in order**,
  none twice, each with one DO_STOP and one DO_START.
-/
import IflyosSDK.MicAgentHandlers
import IflyosSDK.Simulation
import IflyosSDK.Syskey

namespace MicAgent

theorem Syskey.unread_read_self (s : Syskey) (p : Pipe) (n : ℕ) :
    (s.read p n).2.unread p = (s.unread p).drop n := by
  show Function.update s.unread p ((s.unread p).drop n) p = _
  rw [Function.update_self]

theorem Syskey.unread_read_of_ne (s : Syskey) {p q : Pipe} (h : q ≠ p) (n : ℕ) :
    (s.read p n).2.unread q = s.unread q := by
  show Function.update s.unread p ((s.unread p).drop n) q = _
  rw [Function.update_of_ne h]

theorem Syskey.inits_write {s u : Syskey} {p : Pipe} {b : UInt8} (h : s.write p b = some u) :
    u.inits = s.inits := by
  rw [Syskey.write] at h
  split_ifs at h
  rw [← Option.some.inj h]

theorem Syskey.inits_sysKeyGetKeyVaule (s : Syskey) :
    s.sysKeyGetKeyVaule.2.inits = s.inits := by
  rcases hready : s.ready with _ | ⟨p, n⟩
  · rw [sysKeyGetKeyVaule_of_not_ready hready]
  · rw [sysKeyGetKeyVaule_of_ready hready]
    rfl

/-- In the key loop a request is read. -/
theorem Core.mainStep_of_request {s : Core} {b : UInt8} {pipe : List UInt8}
    (hmain : s.main = .keyLoop) (hpipe : s.agent.restartPipe = b :: pipe) :
    s.mainStep =
      some (onKey { s with agent := { s.agent with restartPipe := pipe } } (keyOfRestart b)) := by
  obtain ⟨agent, main, app⟩ := s
  obtain rfl : main = .keyLoop := hmain
  have hpipe : agent.restartPipe = b :: pipe := hpipe
  rw [mainStep]
  simp only [hpipe]

/-- `main` and the key pipes; the restart pipe is the agent's. -/
structure MainPipes where
  system : System
  keys : ℕ → List UInt8
  inits : ℕ

namespace MainPipes

section Definitions

variable (s : MainPipes)

/-- The pipes as `SYSKey_getKeyVaule` finds them. -/
def syskey : Syskey where
  unread
    | .restart => s.system.agent.restartPipe
    | .key k => s.keys k
  inits := s.inits

/-- The pipes have become `pipes`. -/
def withPipes (pipes : Syskey) : MainPipes where
  system := { s.system with
    agent := { s.system.agent with restartPipe := pipes.unread .restart } }
  keys := fun k => pipes.unread (.key k)
  inits := pipes.inits

/-- `main` has made the restart pipe, and no key pipe yet. -/
def start (s : System) : MainPipes := ⟨s.start, fun _ => [], 0⟩

/-- `press` is a byte written to the write end of a key pipe. -/
inductive Action
  | press (k : ℕ) (b : UInt8)
  | main
  | other (a : System.Action)
  deriving DecidableEq, Repr

/-- The step is one of `main`. -/
def ByMain (a : System.Action) : Prop :=
  match a with
  | .key _ | .main => True
  | _ => False

instance : DecidablePred ByMain
  | .key _ | .main => isTrue trivial
  | .send _ | .deliver _ | .write | .wakeWord | .runTask _ | .umbrella _ | .appExits => isFalse id

/-- An iteration of the key loop. -/
def getKey : MainPipes :=
  let u := s.withPipes s.syskey.sysKeyGetKeyVaule.2
  { u with system := { u.system with
    toCore := u.system.onKey s.syskey.sysKeyGetKeyVaule.1 } }

def mainStep : Option MainPipes :=
  match s.system.main with
  | .keyLoop => some s.getKey
  | .starting | .waitStart | .sendStop | .sendStart =>
    s.system.mainStep.map fun core =>
      -- `SysKey_Init` stands in front of the key loop
      { s with
        system := { s.system with toCore := core }
        inits := if core.main = .keyLoop then s.inits + 1 else s.inits }

def step (s : MainPipes) : Action → Option MainPipes
  | .press k b => (s.syskey.write (.key k) b).map s.withPipes
  | .main => s.mainStep
  | .other a =>
    if ByMain a then none else (s.system.step a).map fun system => { s with system := system }

end Definitions

@[simp] theorem syskey_withPipes (s : MainPipes) (pipes : Syskey) :
    (s.withPipes pipes).syskey = pipes := by
  obtain ⟨unread, inits⟩ := pipes
  rw [syskey, withPipes]
  congr
  funext p
  cases p <;> rfl

/-! ### What a step does -/

section Steps

variable {s u : MainPipes} {a : Action}

inductive Step (s : MainPipes) : Action → MainPipes → Prop
  | press {k : ℕ} {b : UInt8} {pipes : Syskey}
    (hwrite : s.syskey.write (.key k) b = some pipes) :
    Step s (.press k b) (s.withPipes pipes)
  | getKey (hmain : s.system.main = .keyLoop) : Step s .main s.getKey
  | main {core : Core} (hmain : s.system.main ≠ .keyLoop)
    (hstep : s.system.mainStep = some core) :
    Step s .main { s with
      system := { s.system with toCore := core }
      inits := if core.main = .keyLoop then s.inits + 1 else s.inits }
  | other {a : System.Action} {system : System} (ha : ¬ ByMain a)
    (hstep : s.system.step a = some system) : Step s (.other a) { s with system := system }

theorem step_cases (h : step s a = some u) : Step s a u := by
  cases a with
  | press k b =>
    obtain ⟨pipes, hwrite, rfl⟩ := Option.map_eq_some_iff.mp h
    exact .press hwrite
  | main =>
    rw [step, mainStep] at h
    cases hmain : s.system.main with
    | keyLoop =>
      rw [hmain] at h
      rw [← Option.some.inj h]
      exact .getKey hmain
    | starting | waitStart | sendStop | sendStart =>
      rw [hmain] at h
      obtain ⟨core, hstep, rfl⟩ := Option.map_eq_some_iff.mp h
      exact .main (by rw [hmain]; exact Main.noConfusion) hstep
  | other a =>
    rw [step] at h
    split_ifs at h with ha
    obtain ⟨system, hstep, rfl⟩ := Option.map_eq_some_iff.mp h
    exact .other ha hstep

/-- What a step of another thread writes to the restart pipe. -/
def asks : System × System.Action → Option UInt8
  | (s, .write) => s.writing
  | _ => none

/-- The other threads leave `main` where it is. -/
theorem other_cases {t v : System} {a : System.Action} (ha : ¬ ByMain a)
    (h : t.step a = some v) :
    v.main = t.main ∧ v.agent.restartPipe = t.agent.restartPipe ++ (asks (t, a)).toList := by
  cases a with
  | key c | main => exact absurd trivial ha
  | deliver i =>
    rw [System.step] at h
    split at h
    · cases h
    · obtain ⟨e, -, h⟩ := Option.bind_eq_some_iff.mp h
      obtain ⟨w, hw, rfl⟩ := Option.map_eq_some_iff.mp h
      exact ⟨rfl, (untilWrite_frame hw).2.1.trans (List.append_nil _).symm⟩
  | write =>
    obtain ⟨b, hb, rfl⟩ := Option.map_eq_some_iff.mp h
    refine ⟨rfl, ?_⟩
    rw [asks, hb]
    rfl
  | wakeWord =>
    obtain ⟨c, hc, rfl⟩ := Option.map_eq_some_iff.mp h
    obtain ⟨w, hw, rfl⟩ := Option.map_eq_some_iff.mp hc
    exact ⟨rfl, (onWakeWord_frame hw).2.2.trans (List.append_nil _).symm⟩
  | runTask fd =>
    obtain ⟨c, hc, rfl⟩ := Option.map_eq_some_iff.mp h
    obtain ⟨w, hw, rfl⟩ := Option.map_eq_some_iff.mp hc
    exact ⟨rfl, (runTask_frame hw).2.2.trans (List.append_nil _).symm⟩
  | umbrella reaped =>
    obtain ⟨app, -, rfl⟩ := Option.map_eq_some_iff.mp h
    exact ⟨rfl, (List.append_nil _).symm⟩
  | send e | appExits =>
    rw [System.step] at h
    split_ifs at h
    rw [← Option.some.inj h]
    exact ⟨rfl, (List.append_nil _).symm⟩

/-- What the key loop sends for a key. -/
def keySends : SysKey → List Message
  | .setDndOn => [.doSetDnd true]
  | .setDndOff => [.doSetDnd false]
  | .volDown => [.doKeypressVolDown]
  | .volUp => [.doKeypressVolUp]
  | .playPause => [.doKeypressPlayPause]
  | _ => []

/-- The key begins a restart. -/
def Restarts (k : SysKey) : Prop := k = .restartIflyos ∨ k = .netConfig

instance : DecidablePred Restarts := fun _ => inferInstanceAs (Decidable (_ ∨ _))

theorem onKey_cases (t : Core) (k : SysKey) :
    (t.onKey k).agent.restartPipe = t.agent.restartPipe ∧
    (t.onKey k).agent.sent = t.agent.sent ++ keySends k ∧
    (t.onKey k).main = if Restarts k then .sendStop else t.main := by
  cases k with
  | setDndOn | setDndOff | volDown | volUp | playPause => exact ⟨rfl, rfl, rfl⟩
  | _ => exact ⟨rfl, (List.append_nil _).symm, rfl⟩

end Steps

/-! ### The two views -/

/-- What a step is in `System`: an iteration of the key loop is a key, or the
read of a request, or nothing. -/
def label : MainPipes × Action → Option System.Action
  | (_, .press _ _) => none
  | (_, .other a) => some a
  | (s, .main) =>
    if s.system.main ≠ .keyLoop then some .main
    else
      match s.syskey.ready with
      | none => none
      | some (.restart, _) => some .main
      | some (.key k, n) => some (.key (Char.ofNat (((s.keys k).take n).headD 0).toNat))

/-- What a step is for the pipes. -/
def pipeLabel : MainPipes × Action → Option Syskey.Action
  | (_, .press k b) => some (.write (.key k) b)
  | (s, .main) =>
    if s.system.main = .keyLoop then some .getKey
    else if s.system.main = .waitStart ∧ s.system.agent.firstDialogState = .started then
      some .init
    else none
  | (s, .other a) => (asks (s.system, a)).map (.write .restart)

section Views

variable {s : MainPipes}

/-- The restart pipe is read first. -/
theorem ready_restart (hne : s.system.agent.restartPipe ≠ []) (hinits : s.inits ≠ 0) :
    s.syskey.ready = some (.restart, 1) :=
  (if_neg hinits).trans (if_pos hne)

theorem restartPipe_of_ready_key {k n : ℕ} (h : s.syskey.ready = some (.key k, n)) :
    s.system.agent.restartPipe = [] := by
  rw [Syskey.ready] at h
  split_ifs at h with hinits hrestart
  · cases h
  · exact not_not.mp hrestart

/-- A key does not touch the restart pipe. -/
theorem restart_of_write_key {pipes : Syskey} {k : ℕ} {b : UInt8}
    (h : s.syskey.write (.key k) b = some pipes) :
    pipes.unread .restart = s.system.agent.restartPipe := by
  rw [Syskey.write] at h
  split_ifs at h
  rw [← Option.some.inj h]
  show Function.update s.syskey.unread (.key k) (s.syskey.unread (.key k) ++ [b]) .restart = _
  rw [Function.update_of_ne Pipe.noConfusion]
  rfl

/-- An iteration without a byte to read changes nothing. -/
theorem getKey_of_not_ready (h : s.syskey.ready = none) : s.getKey = s := by
  rw [getKey, Syskey.sysKeyGetKeyVaule_of_not_ready h]
  rfl

theorem withPipes_read_restart {b : UInt8} {pipe : List UInt8}
    (h : s.system.agent.restartPipe = b :: pipe) :
    s.withPipes (s.syskey.read .restart 1).2 =
      { s with system := { s.system with
        agent := { s.system.agent with restartPipe := pipe } } } := by
  have hdrop : (s.syskey.read .restart 1).2.unread .restart = pipe := by
    rw [Syskey.unread_read_self]
    exact congrArg (List.drop 1) h
  have hkeys : ∀ k, (s.syskey.read .restart 1).2.unread (.key k) = s.keys k := fun k =>
    s.syskey.unread_read_of_ne Pipe.noConfusion 1
  rw [withPipes, hdrop]
  simp only [hkeys]
  rfl

/-- An iteration with a request reads it. -/
theorem getKey_of_restart {n : ℕ} (h : s.syskey.ready = some (.restart, n)) :
    ∃ b pipe, s.system.agent.restartPipe = b :: pipe ∧
      s.syskey.sysKeyGetKeyVaule.1 = keyOfRestart b ∧
      s.getKey.system = { s.system with
        toCore := Core.onKey { s.system.toCore with
          agent := { s.system.agent with restartPipe := pipe } } (keyOfRestart b) } := by
  obtain ⟨hne, ⟨-, rfl⟩ | ⟨hkey, -⟩⟩ := Syskey.ready_cases h
  · obtain ⟨b, pipe, hpipe⟩ := List.exists_cons_of_ne_nil hne
    have hpipe : s.system.agent.restartPipe = b :: pipe := hpipe
    have hvalue : s.syskey.sysKeyGetKeyVaule.1 = keyOfRestart b := by
      rw [Syskey.sysKeyGetKeyVaule_of_ready h]
      show keyOfRestart ((s.system.agent.restartPipe.take 1).headD 0) = _
      rw [hpipe]
      rfl
    have hpipes : s.syskey.sysKeyGetKeyVaule.2 = (s.syskey.read .restart 1).2 := by
      rw [Syskey.sysKeyGetKeyVaule_of_ready h]
    refine ⟨b, pipe, hpipe, hvalue, ?_⟩
    rw [getKey, hvalue, hpipes, withPipes_read_restart hpipe]
  · exact absurd rfl hkey

/-- An iteration with a key and without a request reads the key. -/
theorem getKey_of_key {k n : ℕ} (h : s.syskey.ready = some (.key k, n)) :
    s.getKey.system = { s.system with
      toCore := s.system.onKey (keyOfChar (Char.ofNat (((s.keys k).take n).headD 0).toNat)) } := by
  have hrestart : (s.syskey.read (.key k) n).2.unread .restart = s.system.agent.restartPipe :=
    s.syskey.unread_read_of_ne Pipe.noConfusion n
  rw [getKey, Syskey.sysKeyGetKeyVaule_of_ready h, withPipes, hrestart]
  rfl

theorem simulates_system :
    Simulates step System.step (fun _ => True) MainPipes.system label where
  kept _ _ _ _ _ := trivial
  matched s a u _ h := by
    cases step_cases h with
    | press hwrite =>
      refine Or.inl ⟨rfl, ?_⟩
      rw [withPipes, restart_of_write_key hwrite]
    | other _ hstep => exact Or.inr ⟨_, rfl, hstep⟩
    | main hmain hstep =>
      refine Or.inr ⟨.main, by rw [label, if_pos hmain], ?_⟩
      rw [System.step, hstep]
      rfl
    | getKey hmain =>
      rw [label, if_neg (not_not.mpr hmain)]
      rcases hready : s.syskey.ready with _ | ⟨_ | k, n⟩
      · exact Or.inl ⟨rfl, by rw [getKey_of_not_ready hready]⟩
      · refine Or.inr ⟨.main, rfl, ?_⟩
        obtain ⟨b, pipe, hpipe, -, hu⟩ := getKey_of_restart hready
        rw [hu, System.step, Core.mainStep_of_request hmain hpipe]
        rfl
      · refine Or.inr ⟨.key _, rfl, ?_⟩
        rw [getKey_of_key hready, System.step, Core.readKey,
          if_pos ⟨hmain, restartPipe_of_ready_key hready⟩]
        rfl

/-- A step of `main` outside its key loop. -/
theorem mainStep_cases {t v : Core} (hmain : t.main ≠ .keyLoop) (h : t.mainStep = some v) :
    t.main = .starting ∧ v = t.arrived ∨
    t.main = .waitStart ∧ t.agent.firstDialogState = .notStart ∧ v = t ∨
    t.main = .waitStart ∧ t.agent.firstDialogState = .started ∧
      v = { t with main := .keyLoop } ∨
    t.main = .sendStop ∧ v = { t.afterAgent (send t.agent .doStop) with main := .sendStart } ∨
    t.main = .sendStart ∧ v = { t.afterAgent { send t.agent .doStart with inThinking := false } with
      main := .waitStart } := by
  rw [Core.mainStep] at h
  split at h
  · rename_i hstarting
    exact Or.inl ⟨hstarting, (Option.some.inj h).symm⟩
  · rename_i hwait
    refine Or.inr ?_
    split at h
    · rename_i hstate
      exact Or.inl ⟨hwait, hstate, (Option.some.inj h).symm⟩
    · rename_i hstate
      exact Or.inr (Or.inl ⟨hwait, hstate, (Option.some.inj h).symm⟩)
  · rename_i hloop
    exact absurd hloop hmain
  · rename_i hstop
    exact Or.inr (Or.inr (Or.inr (Or.inl ⟨hstop, (Option.some.inj h).symm⟩)))
  · rename_i hstart
    exact Or.inr (Or.inr (Or.inr (Or.inr ⟨hstart, (Option.some.inj h).symm⟩)))

theorem syskey_getKey (s : MainPipes) : s.getKey.syskey = s.syskey.sysKeyGetKeyVaule.2 := by
  have hpipe := (onKey_cases (s.withPipes s.syskey.sysKeyGetKeyVaule.2).system.toCore
    s.syskey.sysKeyGetKeyVaule.1).1
  rw [← syskey_withPipes s s.syskey.sysKeyGetKeyVaule.2, getKey, syskey, hpipe]
  rfl

/-- A handler writes to the restart pipe. -/
theorem write_restart {u : MainPipes} {b : UInt8}
    (hpipe : u.system.agent.restartPipe = s.system.agent.restartPipe ++ [b])
    (hkeys : u.keys = s.keys) (hinits : u.inits = s.inits) :
    s.syskey.write .restart b = some u.syskey := by
  have hmade : s.syskey.Made .restart := trivial
  rw [Syskey.write, if_pos hmade, syskey, syskey, hpipe, hkeys, hinits]
  congr
  funext p
  cases p with
  | restart => rw [Function.update_self]
  | key k => rw [Function.update_of_ne Pipe.noConfusion]

theorem simulates_syskey :
    Simulates step Syskey.step (fun _ => True) syskey pipeLabel where
  kept _ _ _ _ _ := trivial
  matched s a u _ h := by
    cases step_cases h with
    | @press k b pipes hwrite =>
      refine Or.inr ⟨.write (.key k) b, rfl, ?_⟩
      rw [syskey_withPipes]
      exact hwrite
    | getKey hmain =>
      refine Or.inr ⟨.getKey, by rw [pipeLabel, if_pos hmain], ?_⟩
      rw [syskey_getKey]
      rfl
    | main hmain hstep =>
      rw [pipeLabel, if_neg hmain]
      rcases mainStep_cases hmain hstep with ⟨hstarting, rfl⟩ | ⟨-, hstate, rfl⟩ |
        ⟨hwait, hstate, rfl⟩ | ⟨hstop, rfl⟩ | ⟨hstart, rfl⟩
      · refine Or.inl ⟨if_neg ?_, rfl⟩
        rw [hstarting]
        simp
      · refine Or.inl ⟨if_neg ?_, ?_⟩
        · rw [hstate]
          simp
        · rw [if_neg hmain]
      · exact Or.inr ⟨.init, if_pos ⟨hwait, hstate⟩, rfl⟩
      · refine Or.inl ⟨if_neg ?_, rfl⟩
        rw [hstop]
        simp
      · refine Or.inl ⟨if_neg ?_, rfl⟩
        rw [hstart]
        simp
    | @other a system ha hstep =>
      have hpipe := (other_cases ha hstep).2
      rw [pipeLabel]
      cases hasks : asks (s.system, a) with
      | none =>
        rw [hasks] at hpipe
        refine Or.inl ⟨rfl, ?_⟩
        rw [syskey, syskey, hpipe.trans (List.append_nil _)]
      | some b =>
        rw [hasks] at hpipe
        exact Or.inr ⟨.write .restart b, rfl, write_restart hpipe rfl rfl⟩

end Views

/-! ### Requests and restarts -/

section Law

variable {s₀ : System} {s : MainPipes} {tr : List (MainPipes × Action)}
  {p : MainPipes × Action}

/-- The requests: what the handlers have written to the restart pipe. -/
def requests (tr : List (MainPipes × Action)) : List UInt8 :=
  tr.flatMap fun p =>
    match p.2 with
    | .other a => (asks (p.1.system, a)).toList
    | _ => []

/-- `main` reads the restart pipe. -/
def Serves (p : MainPipes × Action) : Prop :=
  p.2 = .main ∧ p.1.system.main = .keyLoop ∧ p.1.syskey.ready.map Prod.fst = some .restart

/-- `main` polls, and there is no request. -/
def Types (p : MainPipes × Action) : Prop :=
  p.2 = .main ∧ p.1.system.main = .keyLoop ∧ p.1.syskey.ready.map Prod.fst ≠ some .restart

instance : DecidablePred Serves := fun _ => inferInstanceAs (Decidable (_ ∧ _ ∧ _))

instance : DecidablePred Types := fun _ => inferInstanceAs (Decidable (_ ∧ _ ∧ _))

/-- The keys that the steps with `P` have got. -/
def got (P : MainPipes × Action → Prop) [DecidablePred P] (tr : List (MainPipes × Action)) :
    List SysKey :=
  tr.flatMap fun p => if P p then [p.1.syskey.sysKeyGetKeyVaule.1] else []

/-- What a step of `main` sends. -/
def sentByMain : MainPipes × Action → List Message
  | (s, .main) =>
    match s.mainStep with
    | none => []
    | some u => u.system.agent.sent.drop s.system.agent.sent.length
  | _ => []

/-- DO_STOP or DO_START. -/
def IsCommand (m : Message) : Prop := m = .doStop ∨ m = .doStart

instance : DecidablePred IsCommand := fun _ => inferInstanceAs (Decidable (_ ∨ _))

/-- The commands that `main` has sent. -/
def commands (tr : List (MainPipes × Action)) : List Message :=
  (tr.flatMap sentByMain).filter IsCommand

/-- The commands that `main` has still to send before it is back. -/
def owed (s : MainPipes) : List Message :=
  match s.system.main with
  | .starting | .waitStart | .keyLoop => []
  | .sendStop => [.doStop, .doStart]
  | .sendStart => [.doStart]

/-- The pipes that `main` reads keep what is written to them. -/
theorem pipes_inv (p : Pipe) (h : Run step (start s₀) tr s) :
    Syskey.Inv p (view syskey pipeLabel tr) s.syskey := by
  have hrun := simulates_syskey.run trivial h
  have hnew : (start s₀).syskey = Syskey.new := by
    rw [syskey, Syskey.new]
    congr
    funext p
    cases p <;> rfl
  rw [hnew] at hrun
  exact hrun.history (Syskey.inv_new p) fun _ _ _ _ ht hu => Syskey.inv_step ht hu

theorem requests_append (tr tr' : List (MainPipes × Action)) :
    requests (tr ++ tr') = requests tr ++ requests tr' :=
  List.flatMap_append

theorem got_append (P : MainPipes × Action → Prop) [DecidablePred P]
    (tr tr' : List (MainPipes × Action)) : got P (tr ++ tr') = got P tr ++ got P tr' :=
  List.flatMap_append

theorem got_of {P : MainPipes × Action → Prop} [DecidablePred P] (h : P p) :
    got P [p] = [p.1.syskey.sysKeyGetKeyVaule.1] := by
  rw [got, List.flatMap_singleton, if_pos h]

theorem got_of_not {P : MainPipes × Action → Prop} [DecidablePred P] (h : ¬ P p) :
    got P [p] = [] := by
  rw [got, List.flatMap_singleton, if_neg h]

theorem written_view (tr : List (MainPipes × Action)) :
    Syskey.written .restart (view syskey pipeLabel tr) = requests tr := by
  induction tr with
  | nil => rfl
  | cons p tr ih =>
    obtain ⟨t, a⟩ := p
    rw [← List.singleton_append, view_append, requests_append, ← ih, Syskey.written,
      List.flatMap_append]
    congr 1
    cases a with
    | press k b => rfl
    | main =>
      rw [view, List.filterMap_cons, pipeLabel]
      split_ifs <;> rfl
    | other a =>
      rw [view, List.filterMap_cons, pipeLabel]
      cases hasks : asks (t.system, a) <;> simp [hasks, requests, Syskey.writes]

theorem values_view (tr : List (MainPipes × Action)) :
    Syskey.values .restart (view syskey pipeLabel tr) = got Serves tr := by
  induction tr with
  | nil => rfl
  | cons p tr ih =>
    obtain ⟨t, a⟩ := p
    rw [← List.singleton_append, view_append, got_append, ← ih, Syskey.values,
      List.flatMap_append]
    congr 1
    cases a with
    | press k b => simp [view, pipeLabel, got, Serves, Syskey.returned, Syskey.ReadsFrom]
    | main =>
      rw [view, List.filterMap_cons, pipeLabel]
      by_cases hmain : t.system.main = .keyLoop
      · have hiff : Syskey.ReadsFrom .restart (t.syskey, .getKey) ↔ Serves (t, .main) :=
          ⟨fun h => ⟨rfl, hmain, h.2⟩, fun h => ⟨rfl, h.2.2⟩⟩
        simp [hmain, got, Syskey.returned, hiff]
      · split_ifs <;> simp [hmain, got, Serves, Syskey.returned, Syskey.ReadsFrom]
    | other a =>
      rw [view, List.filterMap_cons, pipeLabel]
      cases hasks : asks (t.system, a) <;> simp [got, Serves, Syskey.returned, Syskey.ReadsFrom]

/-- A request begins a restart. -/
theorem restarts_keyOfRestart (b : UInt8) : Restarts (keyOfRestart b) := by
  rw [keyOfRestart]
  split
  · exact Or.inr rfl
  · exact Or.inl rfl

theorem keyOfChar_ne_restartIflyos (c : Char) : keyOfChar c ≠ .restartIflyos := by
  unfold keyOfChar
  split <;> exact SysKey.noConfusion

/-- Nothing typed is KEY_RESTART_IFLYOS. -/
theorem ne_restartIflyos_of_typed (h : s.syskey.ready.map Prod.fst ≠ some .restart) :
    s.syskey.sysKeyGetKeyVaule.1 ≠ .restartIflyos := by
  rcases hready : s.syskey.ready with _ | ⟨_ | k, n⟩
  · rw [Syskey.sysKeyGetKeyVaule_of_not_ready hready]
    exact SysKey.noConfusion
  · rw [hready] at h
    exact absurd rfl h
  · rw [Syskey.sysKeyGetKeyVaule_of_ready hready]
    exact keyOfChar_ne_restartIflyos _

theorem commands_snoc :
    commands (tr ++ [p]) = commands tr ++ (sentByMain p).filter IsCommand := by
  rw [commands, List.flatMap_append, List.filter_append, List.flatMap_singleton]
  rfl

/-- The restarts that have been begun. -/
def restarts (tr : List (MainPipes × Action)) : ℕ :=
  (got Serves tr).length + (got Types tr).count .netConfig

/-- An iteration of the key loop begins a restart when its key does. -/
theorem restarts_getKey (hmain : s.system.main = .keyLoop) :
    restarts (tr ++ [(s, .main)]) =
      restarts tr + if Restarts s.syskey.sysKeyGetKeyVaule.1 then 1 else 0 := by
  rw [restarts, restarts, got_append, got_append, List.length_append, List.count_append]
  by_cases hready : s.syskey.ready.map Prod.fst = some .restart
  · have hserves : Serves (s, .main) := ⟨rfl, hmain, hready⟩
    have htypes : ¬ Types (s, .main) := fun h => h.2.2 hready
    obtain ⟨r, hr, hp⟩ := Option.map_eq_some_iff.mp hready
    obtain ⟨b, -, -, hvalue, -⟩ := getKey_of_restart (n := r.2) (hr.trans (by rw [← hp]))
    have hrestarts : Restarts s.syskey.sysKeyGetKeyVaule.1 := hvalue ▸ restarts_keyOfRestart b
    rw [got_of hserves, got_of_not htypes, if_pos hrestarts, List.length_singleton,
      List.count_nil]
    omega
  · have hserves : ¬ Serves (s, .main) := fun h => hready h.2.2
    have htypes : Types (s, .main) := ⟨rfl, hmain, hready⟩
    have hrestarts : Restarts s.syskey.sysKeyGetKeyVaule.1 ↔
        s.syskey.sysKeyGetKeyVaule.1 = .netConfig :=
      or_iff_right (ne_restartIflyos_of_typed hready)
    rw [got_of_not hserves, got_of htypes, List.length_nil, List.count_singleton]
    by_cases hkey : s.syskey.sysKeyGetKeyVaule.1 = .netConfig
    · rw [if_pos (hrestarts.mpr hkey), if_pos (beq_iff_eq.mpr hkey)]
      omega
    · rw [if_neg fun h => hkey (hrestarts.mp h), if_neg fun h => hkey (beq_iff_eq.mp h)]
      omega

theorem restarts_other {a : Action} (h : a ≠ .main ∨ s.system.main ≠ .keyLoop) :
    restarts (tr ++ [(s, a)]) = restarts tr := by
  have hserves : ¬ Serves (s, a) := fun hs => h.elim (absurd hs.1) (absurd hs.2.1)
  have htypes : ¬ Types (s, a) := fun hs => h.elim (absurd hs.1) (absurd hs.2.1)
  rw [restarts, got_append, got_append, got_of_not hserves, got_of_not htypes, List.append_nil,
    List.append_nil]
  rfl

theorem sentByMain_of {u : MainPipes} (h : step s .main = some u) :
    sentByMain (s, .main) = u.system.agent.sent.drop s.system.agent.sent.length := by
  rw [step] at h
  rw [sentByMain, h]

/-- The key loop itself sends no command. -/
theorem filter_keySends (k : SysKey) : (keySends k).filter IsCommand = [] := by
  cases k <;> rfl

/-- `main` sends one DO_STOP and one DO_START for each restart it has begun. -/
theorem commands_run (h : Run step (start s₀) tr s) :
    commands tr ++ s.owed =
      (List.replicate (restarts tr) [Message.doStop, Message.doStart]).flatten := by
  refine h.history (I := fun tr s => commands tr ++ s.owed =
    (List.replicate (restarts tr) [Message.doStop, Message.doStart]).flatten) rfl ?_
  intro tr t a u ih hu
  rw [commands_snoc]
  cases step_cases hu with
  | press hwrite =>
    rw [restarts_other (Or.inl Action.noConfusion), ← ih]
    exact congrArg (· ++ t.owed) (List.append_nil _)
  | other ha hstep =>
    rw [restarts_other (Or.inl Action.noConfusion), ← ih, owed, (other_cases ha hstep).1, ← owed]
    exact congrArg (· ++ t.owed) (List.append_nil _)
  | getKey hmain =>
    obtain ⟨-, hsent, hafter⟩ :=
      onKey_cases (t.withPipes t.syskey.sysKeyGetKeyVaule.2).system.toCore
        t.syskey.sysKeyGetKeyVaule.1
    have hnone : (sentByMain (t, .main)).filter IsCommand = [] := by
      rw [sentByMain_of hu, getKey, hsent]
      exact (congrArg _ List.drop_left).trans (filter_keySends _)
    have hhome : t.owed = [] := by rw [owed, hmain]
    rw [hhome, List.append_nil] at ih
    rw [hnone, List.append_nil, ih, restarts_getKey hmain, owed, getKey, hafter]
    by_cases hk : Restarts t.syskey.sysKeyGetKeyVaule.1
    · rw [if_pos hk, if_pos hk, List.replicate_succ', List.flatten_append]
      rfl
    · have hstay : (t.withPipes t.syskey.sysKeyGetKeyVaule.2).system.main = .keyLoop := hmain
      rw [if_neg hk, if_neg hk, hstay]
      exact List.append_nil _
  | main hmain hstep =>
    rw [restarts_other (Or.inr hmain), ← ih, sentByMain_of hu, List.append_assoc]
    congr 1
    rcases mainStep_cases hmain hstep with ⟨hstarting, rfl⟩ | ⟨hwait, -, rfl⟩ |
      ⟨hwait, -, rfl⟩ | ⟨hstop, rfl⟩ | ⟨hstart, rfl⟩
    · show (t.system.agent.sent.drop _).filter IsCommand ++ [] = _
      rw [List.drop_length, owed, hstarting]
      rfl
    · rw [List.drop_length]
      rfl
    · rw [List.drop_length, owed, owed, hwait]
      rfl
    · have hsent : (send t.system.agent .doStop).sent = t.system.agent.sent ++ [.doStop] := rfl
      rw [owed, owed, hstop]
      show ((send t.system.agent .doStop).sent.drop _).filter IsCommand ++ _ = _
      rw [hsent, List.drop_left]
      rfl
    · have hsent : (send t.system.agent .doStart).sent = t.system.agent.sent ++ [.doStart] := rfl
      rw [owed, owed, hstart]
      show ((send t.system.agent .doStart).sent.drop _).filter IsCommand ++ _ = _
      rw [hsent, List.drop_left]
      rfl

/-- In the key loop there is a key pipe. -/
theorem inits_pos (h : Run step (start s₀) tr s) :
    s.system.main = .keyLoop → s.inits ≠ 0 := by
  refine h.invariant (I := fun s => s.system.main = .keyLoop → s.inits ≠ 0) ?_ ?_
  · intro hmain
    cases hmain
  intro t a u ih hu hloop
  cases step_cases hu with
  | press hwrite =>
    rw [withPipes, Syskey.inits_write hwrite]
    exact ih hloop
  | other ha hstep => exact ih ((other_cases ha hstep).1.symm.trans hloop)
  | getKey hmain =>
    rw [getKey, withPipes, Syskey.inits_sysKeyGetKeyVaule]
    exact ih hmain
  | main hmain hstep =>
    have hloop : _ = Main.keyLoop := hloop
    show (if _ = Main.keyLoop then _ else _) ≠ 0
    rw [if_pos hloop]
    exact Nat.succ_ne_zero _

/-- What was written to the restart pipe has been served or is still there. -/
theorem requests_run (h : Run step (start s₀) tr s) :
    (requests tr).map keyOfRestart =
      got Serves tr ++ s.system.agent.restartPipe.map keyOfRestart := by
  have hinv := pipes_inv .restart h
  have hone := hinv.one.mpr fun q _ _ hne => absurd rfl hne
  rw [← written_view, ← values_view, hinv.written, hinv.values, List.map_append,
    Syskey.map_flatten_of_one hone]
  rfl

/-- **The restart requests are served in their order, and none twice**: those
that are not served yet are unread.  Whatever else happens, each has `main` send
one DO_STOP and one DO_START; nothing but a request and KEY_NET_CONFIG has it
send the two; and in its key loop `main` can always serve a request that is
there. -/
theorem serves_requests (h : Run step (start s₀) tr s) :
    (requests tr).map keyOfRestart =
      got Serves tr ++ s.system.agent.restartPipe.map keyOfRestart ∧
    commands tr ++ s.owed = (List.replicate
      ((got Serves tr).length + (got Types tr).count .netConfig)
      [Message.doStop, Message.doStart]).flatten ∧
    (s.system.main = .keyLoop → s.system.agent.restartPipe ≠ [] →
      ∃ u, step s .main = some u ∧ u.system.main = .sendStop) := by
  refine ⟨requests_run h, commands_run h, fun hmain hne => ⟨s.getKey, ?_, ?_⟩⟩
  · rw [step, mainStep, hmain]
  · obtain ⟨b, pipe, -, -, hu⟩ := getKey_of_restart (ready_restart hne (inits_pos h hmain))
    rw [hu, (onKey_cases _ _).2.2, if_pos (restarts_keyOfRestart b)]

/-- A request is served before a key, and the key is in the old pipe afterwards. -/
theorem serves_requests_first :
    ∃ tr s, Run step (start System.online) tr s ∧
      requests tr = [noNetConfig] ∧ s.inits = 2 ∧ s.keys 0 = [110] ∧
      (requests tr).map keyOfRestart =
        got Serves tr ++ s.system.agent.restartPipe.map keyOfRestart ∧
      commands tr ++ s.owed = (List.replicate
        ((got Serves tr).length + (got Types tr).count .netConfig)
        [Message.doStop, Message.doStart]).flatten ∧
      (s.system.main = .keyLoop → s.system.agent.restartPipe ≠ [] →
        ∃ u, step s .main = some u ∧ u.system.main = .sendStop) := by
  have h : Run step (start System.online) _ _ :=
    Run.of_exec [.other (.umbrella true), .main, .other (.send .dialogEnd), .other (.deliver 0), .main,
      .press 0 110, .other (.send .revokeAuthorization), .other (.deliver 0), .other .write,
      .main, .main, .main, .other (.send .dialogEnd), .other (.deliver 0), .main] rfl
  exact ⟨_, _, h, rfl, rfl, rfl, serves_requests h⟩

end Law

end MainPipes

end MicAgent
