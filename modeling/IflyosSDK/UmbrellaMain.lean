/-
The umbrella's `main`: its environment and its console.

`main` reads its environment, starts the bus and then obeys the characters of
the standard input.  `std::cin >> c` skips white space, and when the input has
ended it leaves `c` as it is; nothing in the loop looks at the stream's state.
What a command sends waits in `sendto` while the socket of the app is full.
Meanwhile the worker, the monitors and the handlers go on as in `Umbrella`.

* `UmbrellaMain.startUp_eq_ok_iff` — the environments with which the console is
  reached;
* `UmbrellaMain.step` — one iteration of the console, or another step of the
  umbrella;
* `UmbrellaMain.simulates` — the umbrella takes steps of `Umbrella`;
* `UmbrellaMain.forks_of_doStart` — the version check of a start never fails;
* `UmbrellaMain.console_law` — **what the console executes**;
* `UmbrellaMain.repeats_last` — an input that ends without a `q` has its last
  command executed over and over.
-/
import Mathlib.Data.List.GetD
import IflyosSDK.Net
import IflyosSDK.Simulation
import IflyosSDK.UmbrellaCommands

namespace UmbrellaMain

/-! ### The environment -/

structure Config where
  exePath : CString
  logLevel : CString
  configPath : CString
  micFIFOPath : CString
  deriving DecidableEq

/-- `main` up to its console: what it returns, or what it has read. `ret` is the
result of `IFLYOS_InterfaceUmberllaInit`. -/
def startUp (getenv : CString → Option CString) (ret : Int) : Except Int Config :=
  match getenv (.ofString "IFLYOS_ENV_IPC_VERSION") with
  | none => .error 0
  | some intfVerStr =>
    let logLevel := (getenv (.ofString "IFLYOS_ENV_LOG_LEVEL")).getD (.ofString "DEBUG5")
    match getenv (.ofString "IFLYOS_ENV_EXE_PATH") with
    | none => .error 0
    | some exePath =>
      match getenv (.ofString "IFLYOS_ENV_CONFIG_PATH") with
      | none => .error 0
      | some configPath =>
        match getenv (.ofString "IFLYOS_ENV_MIC_FIFO_PATH") with
        | none => .error 0
        | some micFIFOPath =>
          if atoi (intfVerStr.bytes ++ [0]) ≠ some iflyosInterfaceCurrentVersion then .error 0
          else if ret ≠ 0 then .error ret
          else .ok ⟨exePath, logLevel, configPath, micFIFOPath⟩

/-- The console is reached when all but the log level is there, the version is
the current one and the bus has started. -/
theorem startUp_eq_ok_iff {getenv : CString → Option CString} {ret : Int} {c : Config} :
    startUp getenv ret = .ok c ↔
      (∃ v, getenv (.ofString "IFLYOS_ENV_IPC_VERSION") = some v ∧
        atoi (v.bytes ++ [0]) = some iflyosInterfaceCurrentVersion) ∧
      getenv (.ofString "IFLYOS_ENV_EXE_PATH") = some c.exePath ∧
      getenv (.ofString "IFLYOS_ENV_CONFIG_PATH") = some c.configPath ∧
      getenv (.ofString "IFLYOS_ENV_MIC_FIFO_PATH") = some c.micFIFOPath ∧
      (getenv (.ofString "IFLYOS_ENV_LOG_LEVEL")).getD (.ofString "DEBUG5") = c.logLevel ∧
      ret = 0 := by
  obtain ⟨exePath, logLevel, configPath, micFIFOPath⟩ := c
  rw [startUp]
  cases getenv (.ofString "IFLYOS_ENV_IPC_VERSION") with
  | none => simp
  | some v =>
    cases getenv (.ofString "IFLYOS_ENV_EXE_PATH") with
    | none => simp
    | some exe =>
      cases getenv (.ofString "IFLYOS_ENV_CONFIG_PATH") with
      | none => simp
      | some cfg =>
        cases getenv (.ofString "IFLYOS_ENV_MIC_FIFO_PATH") with
        | none => simp
        | some fifo =>
          by_cases hver : atoi (v.bytes ++ [0]) = some iflyosInterfaceCurrentVersion
          · by_cases hret : ret = 0
            · simp [hver, hret]
              tauto
            · simp [hver, hret]
          · simp [hver]

/-! ### The console -/

/-- What a character of the console stands for. -/
inductive Command
  | doStart
  | doStop
  | send (o : OwnSend)

def command (c : UInt8) : Option Command :=
  if c = 's'.toUInt8 then some .doStart
  else if c = 't'.toUInt8 then some .doStop
  else if c = 'r'.toUInt8 then some (.send .clearDataThenQuit)
  else if c = 'c'.toUInt8 then some (.send .customContext)
  else if c = 'e'.toUInt8 then some (.send .customEvent)
  else none

/-- The handler that a command calls. -/
def Command.action : Command → Option Umbrella.Action
  | .doStart => some .onDoStart
  | .doStop => some .onDoStop
  | .send _ => none

/-- What a command sends. -/
def Command.ownSend : Command → Option OwnSend
  | .doStart | .doStop => none
  | .send o => some o

/-- The character that ends the console. -/
def quitChar : UInt8 := 'q'.toUInt8

/-- The rest of the standard input, the variable `c`, whether the loop has been
left, and what has been executed. -/
structure Console where
  input : Bytes
  c : UInt8
  quit : Bool
  done : List Command

/-- `std::cin >> c`. -/
def Console.read (s : Console) : UInt8 × Bytes :=
  match s.input.dropWhile isSpace with
  | [] => (s.c, [])
  | b :: input => (b, input)

/-- One iteration of the loop. -/
def Console.iterate (s : Console) : Console :=
  let c := s.read.1
  let input := s.read.2
  if c = quitChar then { s with input := input, c := c, quit := true }
  else { s with input := input, c := c, done := s.done ++ (command c).toList }

/-- The console and the rest of the umbrella; `sending` is what the console waits
for in `sendto`, and `sent` what it has sent. -/
structure State where
  console : Console
  umbrella : Umbrella.State
  sending : Option OwnSend
  sent : List OwnSend

/-- The console is reached; `c` has not been initialised. -/
def start (input : Bytes) (c : UInt8) : State :=
  ⟨⟨input, c, false, []⟩, Umbrella.init iflyosInterfaceCurrentVersion, none, []⟩

/-- `sendto` is the return of that call, which comes when the app's socket has
room, or nobody has bound it. -/
inductive Action
  | console
  | sendto
  | other (a : Umbrella.Action)
  deriving DecidableEq

/-- A command is obeyed; one that sends goes into `sendto`. -/
def obey (s : State) : Command → Option State
  | .doStart => (Umbrella.step s.umbrella .onDoStart).map fun u => { s with umbrella := u }
  | .doStop => (Umbrella.step s.umbrella .onDoStop).map fun u => { s with umbrella := u }
  | .send o => some { s with sending := some o }

/-- The step enqueues a task. -/
def Enqueues (a : Umbrella.Action) : Prop :=
  a = .onDoStart ∨ a = .onDoStop ∨ a = .monitorEnqueues

instance : DecidablePred Enqueues := fun _ => inferInstanceAs (Decidable (_ ∨ _ ∨ _))

def step (s : State) : Action → Option State
  | .console =>
    if s.console.quit ∨ s.sending.isSome then none
    else
      let console := s.console.iterate
      match if console.quit then none else command console.c with
      | none => some { s with console := console }
      | some c => obey { s with console := console } c
  | .sendto => s.sending.map fun o => { s with sending := none, sent := s.sent ++ [o] }
  | .other a =>
    -- behind the loop `exector.safeQuit()` has been called
    if s.console.quit ∧ Enqueues a then none
    else (Umbrella.step s.umbrella a).map fun u => { s with umbrella := u }

/-! ### What a step does -/

section Steps

variable {s u : State} {a : Action}

/-- What the console's next iteration executes. -/
def nextCommand (s : State) : Option Command :=
  if s.console.iterate.quit then none else command s.console.iterate.c

inductive Step (s : State) : Action → State → Prop
  | skip (hquit : s.console.quit = false) (hfree : s.sending = none)
    (hnone : nextCommand s = none) :
    Step s .console { s with console := s.console.iterate }
  | command {c : Command} {umbrella : Umbrella.State} (a : Umbrella.Action)
    (hquit : s.console.quit = false) (hfree : s.sending = none)
    (hcommand : nextCommand s = some c)
    (ha : c = .doStart ∧ a = .onDoStart ∨ c = .doStop ∧ a = .onDoStop)
    (humbrella : Umbrella.step s.umbrella a = some umbrella) :
    Step s .console { s with console := s.console.iterate, umbrella := umbrella }
  | send {o : OwnSend} (hquit : s.console.quit = false) (hfree : s.sending = none)
    (hcommand : nextCommand s = some (.send o)) :
    Step s .console { s with console := s.console.iterate, sending := some o }
  | sendto {o : OwnSend} (hsending : s.sending = some o) :
    Step s .sendto { s with sending := none, sent := s.sent ++ [o] }
  | other {a : Umbrella.Action} {umbrella : Umbrella.State}
    (humbrella : Umbrella.step s.umbrella a = some umbrella) :
    Step s (.other a) { s with umbrella := umbrella }

theorem step_cases (h : step s a = some u) : Step s a u := by
  cases a with
  | console =>
    rw [step] at h
    split_ifs at h with hwaits
    rw [not_or, Bool.not_eq_true, Option.not_isSome_iff_eq_none] at hwaits
    obtain ⟨hquit, hfree⟩ := hwaits
    change (match nextCommand s with
      | none => some { s with console := s.console.iterate }
      | some c => obey { s with console := s.console.iterate } c) = some u at h
    cases hcommand : nextCommand s with
    | none =>
      rw [hcommand] at h
      rw [← Option.some.inj h]
      exact .skip hquit hfree hcommand
    | some c =>
      rw [hcommand] at h
      cases c with
      | doStart =>
        obtain ⟨umbrella, humbrella, rfl⟩ := Option.map_eq_some_iff.mp h
        exact .command .onDoStart hquit hfree hcommand (Or.inl ⟨rfl, rfl⟩) humbrella
      | doStop =>
        obtain ⟨umbrella, humbrella, rfl⟩ := Option.map_eq_some_iff.mp h
        exact .command .onDoStop hquit hfree hcommand (Or.inr ⟨rfl, rfl⟩) humbrella
      | send o =>
        rw [← Option.some.inj h]
        exact .send hquit hfree hcommand
  | sendto =>
    obtain ⟨o, hsending, rfl⟩ := Option.map_eq_some_iff.mp h
    exact .sendto hsending
  | other a =>
    rw [step] at h
    split_ifs at h
    obtain ⟨umbrella, humbrella, rfl⟩ := Option.map_eq_some_iff.mp h
    exact .other humbrella

/-- The umbrella's part in a step. -/
def label : State × Action → Option Umbrella.Action
  | (_, .other a) => some a
  | (s, .console) => (nextCommand s).bind Command.action
  | (_, .sendto) => none

/-- The umbrella takes steps of `Umbrella`, whose executor is open. -/
theorem simulates : Simulates step Umbrella.step
    (fun s => s.umbrella.exector.quit = false ∧
      s.umbrella.ipcVersion = iflyosInterfaceCurrentVersion) State.umbrella label where
  kept s a u hs h := by
    have humbrella : ∀ {b umbrella}, Umbrella.step s.umbrella b = some umbrella →
        umbrella.exector.quit = false ∧ umbrella.ipcVersion = iflyosInterfaceCurrentVersion :=
      fun hb => ⟨(Umbrella.quit_step hb).trans hs.1, (Umbrella.ipcVersion_step hb).trans hs.2⟩
    cases step_cases h with
    | skip _ _ _ | send _ _ _ | sendto _ => exact hs
    | command b _ _ _ _ hb => exact humbrella hb
    | other hb => exact humbrella hb
  matched s a u _ h := by
    cases step_cases h with
    | skip _ _ hnone => exact Or.inl ⟨by rw [label, hnone, Option.bind_none], rfl⟩
    | send _ _ hcommand => exact Or.inl ⟨by rw [label, hcommand, Option.bind_some]; rfl, rfl⟩
    | sendto _ => exact Or.inl ⟨rfl, rfl⟩
    | @command c umbrella b _ _ hcommand ha hb =>
      refine Or.inr ⟨b, ?_, hb⟩
      rcases ha with ⟨rfl, rfl⟩ | ⟨rfl, rfl⟩ <;> rw [label, hcommand, Option.bind_some] <;> rfl
    | @other b umbrella hb => exact Or.inr ⟨b, rfl, hb⟩

/-- The version has been checked: a start that finds no app forks. -/
theorem forks_of_doStart {input : Bytes} {c : UInt8} {tr : List (State × Action)}
    {e : ThreadPool Umbrella.Task} {pid : Int} (h : Run step (start input c) tr s)
    (htask : s.umbrella.exector.take = some (.doStart, e)) (hpid : s.umbrella.iflyosPid = 0)
    (hu : step s (.other (.runTask pid)) = some u) :
    u.umbrella.forks = s.umbrella.forks + 1 := by
  have hs := h.invariant ⟨rfl, rfl⟩ simulates.kept
  cases step_cases hu with
  | @other a umbrella hb =>
    rw [Umbrella.step, Umbrella.runTask, htask] at hb
    rcases Umbrella.doStartTask_cases hb with ⟨hskip, -⟩ | ⟨-, -, -, rfl⟩
    · rcases hskip with hskip | hskip
      · exact absurd hpid hskip
      · exact absurd hs.2 hskip
    · rfl

end Steps

/-! ### What is typed -/

section Law

variable {input : Bytes} {c : UInt8}

/-- The characters that are not skipped. -/
def shown (input : Bytes) : Bytes := input.filter fun b => !isSpace b

/-- What `c` is after each of `n` iterations. -/
def typed (input : Bytes) (c : UInt8) (n : ℕ) : List UInt8 :=
  (List.range n).map fun i => (shown input).getD i ((shown input).getLastD c)

theorem typed_succ (n : ℕ) : typed input c (n + 1) =
    typed input c n ++ [(shown input).getD n ((shown input).getLastD c)] := by
  rw [typed, List.range_succ, List.map_append]
  rfl

theorem shown_dropWhile (input : Bytes) :
    shown input = match input.dropWhile isSpace with
      | [] => []
      | b :: rest => b :: shown rest := by
  induction input with
  | nil => rfl
  | cons b rest ih =>
    by_cases hb : isSpace b = true
    · rw [List.dropWhile_cons_of_pos hb, ← ih, shown, shown, List.filter_cons_of_neg (by simp [hb])]
    · rw [List.dropWhile_cons_of_neg hb, shown, List.filter_cons_of_pos (by simp [hb])]
      rfl

/-- The console after `n` iterations. -/
structure Held (input : Bytes) (c : UInt8) (n : ℕ) (k : Console) : Prop where
  rest : shown k.input = (shown input).drop n
  last : (shown input).drop n = [] → k.c = (shown input).getLastD c
  done : k.done = ((typed input c n).takeWhile (· ≠ quitChar)).filterMap command
  quit : k.quit = true ↔ quitChar ∈ typed input c n

/-- What the next iteration reads. -/
theorem Held.read {n : ℕ} {k : Console} (h : Held input c n k) :
    k.read.1 = (shown input).getD n ((shown input).getLastD c) ∧
    shown k.read.2 = (shown input).drop (n + 1) ∧
    ((shown input).drop (n + 1) = [] → k.read.1 = (shown input).getLastD c) := by
  have hrest := h.rest
  rw [shown_dropWhile, eq_comm] at hrest
  rw [Console.read]
  cases hinput : k.input.dropWhile isSpace with
  | nil =>
    rw [hinput] at hrest
    have hlen : (shown input).length ≤ n := List.drop_eq_nil_iff.mp hrest
    have hnext : (shown input).drop (n + 1) = [] := List.drop_eq_nil_iff.mpr (by omega)
    have hlast := h.last hrest
    refine ⟨?_, hnext.symm, fun _ => hlast⟩
    rw [List.getD_eq_default _ _ hlen]
    exact hlast
  | cons b rest =>
    rw [hinput] at hrest
    have hlt : n < (shown input).length := by
      rw [← not_le, ← List.drop_eq_nil_iff, hrest]
      exact List.cons_ne_nil b _
    rw [List.drop_eq_getElem_cons hlt] at hrest
    obtain ⟨hb, hnext⟩ := List.cons.inj hrest
    refine ⟨?_, hnext.symm, fun hnil => ?_⟩
    · rw [List.getD_eq_getElem _ _ hlt, hb]
    · have hlen : (shown input).length = n + 1 := by
        have := List.drop_eq_nil_iff.mp hnil
        omega
      have hne : shown input ≠ [] := List.length_pos_iff.mp (by omega)
      rw [List.getLastD_eq_getLast?, List.getLast?_eq_some_getLast hne, Option.getD_some,
        List.getLast_eq_getElem, ← hb]
      simp only [hlen, Nat.add_sub_cancel]

theorem Held.iterate {n : ℕ} {k : Console} (h : Held input c n k) (hquit : k.quit = false) :
    Held input c (n + 1) k.iterate := by
  obtain ⟨hread, hrest, hlast⟩ := h.read
  have hnot : quitChar ∉ typed input c n := by
    rw [← h.quit, hquit]
    exact Bool.false_ne_true
  have htyped : typed input c (n + 1) = typed input c n ++ [k.read.1] := by
    rw [typed_succ, hread]
  have hbefore : ∀ x ∈ typed input c n, decide (x ≠ quitChar) = true := fun x hx =>
    decide_eq_true fun hq => hnot (hq ▸ hx)
  have hdone := h.done
  rw [List.takeWhile_eq_self_iff.mpr hbefore] at hdone
  unfold Console.iterate
  by_cases hq : k.read.1 = quitChar
  · rw [if_pos hq]
    refine ⟨hrest, hlast, ?_, ?_⟩
    · rw [htyped, List.takeWhile_append_of_pos hbefore, hq,
        List.takeWhile_cons_of_neg (by simp), List.append_nil]
      exact hdone
    · rw [htyped, hq]
      simp
  · rw [if_neg hq]
    refine ⟨hrest, hlast, ?_, ?_⟩
    · rw [htyped, List.takeWhile_append_of_pos hbefore,
        List.takeWhile_cons_of_pos (by simpa using hq), List.filterMap_append, ← hdone]
      cases hc : command k.read.1 <;> simp [hc]
    · rw [htyped, List.mem_append, List.mem_singleton, ← h.quit, hquit]
      simp [Ne.symm hq]

/-- How often the console has gone round. -/
def iterations (tr : List (State × Action)) : ℕ := tr.countP fun p => p.2 = .console

variable {tr : List (State × Action)} {s : State}

theorem held_run (h : Run step (start input c) tr s) :
    Held input c (iterations tr) s.console := by
  induction h with
  | nil =>
    refine ⟨rfl, fun hnil => ?_, rfl, ?_⟩
    · rw [show shown input = [] from hnil]
      rfl
    · simp [start, iterations, typed]
  | @snoc tr t a u hrun hu ih =>
    rw [iterations, List.countP_append]
    cases step_cases hu with
    | skip hquit _ _ | command _ hquit _ _ _ _ | send hquit _ _ => exact ih.iterate hquit
    | sendto _ | other _ => exact ih

/-- The console goes on, when it does not wait in `sendto`. -/
theorem goes_on (h : Run step (start input c) tr s) (hquit : s.console.quit = false)
    (hfree : s.sending = none) : ∃ u, step s .console = some u := by
  have hexector := (h.invariant ⟨rfl, rfl⟩ simulates.kept).1
  rw [step, if_neg (by simp [hquit, hfree])]
  change ∃ u, (match nextCommand s with
    | none => some { s with console := s.console.iterate }
    | some c => obey { s with console := s.console.iterate } c) = some u
  cases nextCommand s with
  | none => exact ⟨_, rfl⟩
  | some c =>
    cases c with
    | doStart => simp [obey, Umbrella.step, Umbrella.enqueue, ThreadPool.enqueue, hexector]
    | doStop => simp [obey, Umbrella.step, Umbrella.enqueue, ThreadPool.enqueue, hexector]
    | send o => exact ⟨_, rfl⟩

/-- The handlers that the console has called. -/
def called (tr : List (State × Action)) : List Umbrella.Action :=
  tr.filterMap fun p => if p.2 = .console then label p else none

theorem iterate_done (hquit : s.console.quit = false) :
    s.console.iterate.done = s.console.done ++ (nextCommand s).toList := by
  unfold nextCommand Console.iterate
  by_cases hq : s.console.read.1 = quitChar
  · simp [hq]
  · simp [hq, hquit]

theorem called_console (t : State) : called (tr ++ [(t, .console)]) =
    called tr ++ ((nextCommand t).bind Command.action).toList := by
  rw [called, List.filterMap_append]
  rfl

theorem called_other (t : State) (a : Umbrella.Action) :
    called (tr ++ [(t, .other a)]) = called tr := by
  rw [called, List.filterMap_append]
  simp [called]

theorem called_sendto (t : State) : called (tr ++ [(t, .sendto)]) = called tr := by
  rw [called, List.filterMap_append]
  simp [called]

/-- What has been executed has been obeyed. -/
theorem obeyed (h : Run step (start input c) tr s) :
    called tr = s.console.done.filterMap Command.action ∧
    s.sent ++ s.sending.toList = s.console.done.filterMap Command.ownSend := by
  induction h with
  | nil => exact ⟨rfl, rfl⟩
  | @snoc tr t a u hrun hu ih =>
    obtain ⟨hcalled, hsent⟩ := ih
    cases step_cases hu with
    | skip hquit _ hnone =>
      rw [iterate_done hquit, called_console, hnone, List.filterMap_append, List.filterMap_append,
        ← hcalled, ← hsent]
      exact ⟨rfl, (List.append_nil _).symm⟩
    | send hquit hfree hcommand =>
      rw [iterate_done hquit, called_console, hcommand, List.filterMap_append,
        List.filterMap_append, ← hcalled, ← hsent, hfree, Option.toList_none, List.append_nil]
      exact ⟨rfl, rfl⟩
    | sendto hsending =>
      rw [called_sendto, ← hcalled, ← hsent, hsending]
      exact ⟨rfl, List.append_nil _⟩
    | @command k umbrella b hquit _ hcommand hb _ =>
      rw [iterate_done hquit, called_console, hcommand, List.filterMap_append,
        List.filterMap_append, ← hcalled, ← hsent]
      rcases hb with ⟨rfl, -⟩ | ⟨rfl, -⟩
      · exact ⟨rfl, (List.append_nil _).symm⟩
      · exact ⟨rfl, (List.append_nil _).symm⟩
    | other _ =>
      rw [called_other]
      exact ⟨hcalled, hsent⟩

/-- **What the console executes**: after `n` iterations, the commands among the
first `n` typed characters up to the first `q`, the last character being typed
again and again when the input has ended. It is left at the `q`, and until then
there is a next iteration whenever it does not wait in `sendto`. -/
theorem console_law (h : Run step (start input c) tr s) :
    s.console.done =
      ((typed input c (iterations tr)).takeWhile (· ≠ quitChar)).filterMap command ∧
    called tr = s.console.done.filterMap Command.action ∧
    s.sent ++ s.sending.toList = s.console.done.filterMap Command.ownSend ∧
    (s.console.quit = true ↔ quitChar ∈ typed input c (iterations tr)) ∧
    (s.console.quit = false → s.sending = none → ∃ u, step s .console = some u) :=
  have hheld := held_run h
  have hobeyed := obeyed h
  ⟨hheld.done, hobeyed.1, hobeyed.2, hheld.quit, goes_on h⟩

/-- A start, and a message that waits in `sendto` before it is typed again: there is
no `q`. -/
theorem console_law_ended :
    ∃ tr s, Run step (start [115, 10, 99] 0) tr s ∧ iterations tr = 3 ∧
      called tr = [.onDoStart] ∧ s.sent = [.customContext] ∧ s.sending = some .customContext ∧
      s.console.done =
        ((typed [115, 10, 99] 0 (iterations tr)).takeWhile (· ≠ quitChar)).filterMap command ∧
      (s.console.quit = true ↔ quitChar ∈ typed [115, 10, 99] 0 (iterations tr)) := by
  have h : Run step (start [115, 10, 99] 0) _ _ := Run.of_exec
    [.console, .other (.runTask 7), .console, .sendto, .console] rfl
  obtain ⟨hdone, -, -, hquit, -⟩ := console_law h
  exact ⟨_, _, h, by decide, by decide, rfl, rfl, hdone, hquit⟩

theorem typed_of_length_le {n : ℕ} (hn : (shown input).length ≤ n) :
    typed input c n = shown input ++
      List.replicate (n - (shown input).length) ((shown input).getLastD c) := by
  apply List.ext_getElem
  · simp [typed, hn]
  · intro i hi _
    rw [List.getElem_append]
    split_ifs with hlt
    · simp [typed, hlt]
    · have hlast : (shown input).getD i ((shown input).getLastD c) = (shown input).getLastD c :=
        List.getD_eq_default _ _ (not_lt.mp hlt)
      rw [List.getElem_replicate, ← hlast]
      simp [typed]

/-- An input without a `q` is executed to its end, and its last character over
and over. -/
theorem repeats_last (h : Run step (start input c) tr s) (hq : quitChar ∉ shown input)
    (hne : shown input ≠ []) (hn : (shown input).length ≤ iterations tr) :
    s.console.done = (shown input ++ List.replicate (iterations tr - (shown input).length)
      ((shown input).getLast hne)).filterMap command ∧
    s.console.quit = false ∧ (s.sending = none → ∃ u, step s .console = some u) := by
  have hheld := held_run h
  have htyped := typed_of_length_le (c := c) hn
  rw [List.getLastD_eq_getLast?, List.getLast?_eq_some_getLast hne, Option.getD_some] at htyped
  have hnot : quitChar ∉ typed input c (iterations tr) := by
    rw [htyped, List.mem_append, not_or]
    refine ⟨hq, fun hmem => hq ?_⟩
    rw [List.eq_of_mem_replicate hmem]
    exact List.getLast_mem hne
  have hquit : s.console.quit = false := by
    rw [← Bool.not_eq_true, hheld.quit]
    exact hnot
  refine ⟨?_, hquit, goes_on h hquit⟩
  rw [hheld.done, List.takeWhile_eq_self_iff.mpr, htyped]
  intro x hx
  exact decide_eq_true fun hxq => hnot (hxq ▸ hx)

end Law

end UmbrellaMain
