/-
The start-up of a process that uses the interface.

`IFLYOS_InterfaceInit` binds the socket and starts the receiver thread before
any handler is installed, and datagrams arrive from the bind on.  `Endpoint` is
such a process: the steps its main thread has done and those it has still to
do, its socket, and its receiver worker, which takes a datagram in one step
and looks it up in another.

* `initSteps`, `umbrellaMain` — the steps of the app and of the umbrella;
* `Endpoint.step` — one step of the main thread, a sender or the worker;
* `Endpoint.dispatches_iff` — which lookups find a handler;
* `Endpoint.no_command_lost_iff` — **the start-ups in which the umbrella loses
  no command**.
-/
import IflyosSDK.UmbrellaBus

/-- A step of `IFLYOS_InterfaceInit`, or of the main function behind it. -/
inductive InitStep (H : Type*)
  | bind
  | startReceiver
  | registerHandler (evt : CString) (handler : H)
  | bindEvents

section InitSteps

variable {H : Type*}

/-- What the steps install. -/
def registrations (steps : List (InitStep H)) : List (CString × H) :=
  steps.filterMap fun
    | .registerHandler evt handler => some (evt, handler)
    | _ => none

/-- The steps that install a list of handlers. -/
def registerHandlers (regs : List (CString × H)) : List (InitStep H) :=
  regs.map fun reg => .registerHandler reg.1 reg.2

/-- `IFLYOS_InterfaceInit`. -/
def initSteps (regs : List (CString × H)) : List (InitStep H) :=
  [.bind, .startReceiver] ++ registerHandlers regs ++
    if regs.length > 0 then [.bindEvents] else []

/-- `main` of the umbrella: `IFLYOS_InterfaceUmberllaInit`, and the handlers
behind it. -/
def umbrellaMain : List (InitStep Bus.UmbrellaHandler) :=
  initSteps [] ++ registerHandlers Bus.umbrellaRegs

theorem registrations_append (steps steps' : List (InitStep H)) :
    registrations (steps ++ steps') = registrations steps ++ registrations steps' :=
  List.filterMap_append

theorem registrations_registerHandlers (regs : List (CString × H)) :
    registrations (registerHandlers regs) = regs := by
  rw [registrations, registerHandlers, List.filterMap_map]
  exact List.filterMap_some

theorem registrations_initSteps (regs : List (CString × H)) :
    registrations (initSteps regs) = regs := by
  have hlast : registrations (if regs.length > 0 then [InitStep.bindEvents (H := H)] else []) =
      [] := by
    split <;> rfl
  rw [initSteps, registrations_append, registrations_append, registrations_registerHandlers, hlast,
    List.append_nil]
  rfl

theorem registrations_umbrellaMain : registrations umbrellaMain = Bus.umbrellaRegs := by
  rw [umbrellaMain, registrations_append, registrations_initSteps, registrations_registerHandlers]
  rfl

end InitSteps

/-- A process: the steps of its main thread, its socket (`queue` holds what has
arrived), the receiver thread and the datagram it has taken. -/
structure Endpoint (H : Type*) where
  done : List (InitStep H)
  todo : List (InitStep H)
  bound : Bool
  receiver : Bool
  queue : List Bytes
  taken : Option Bytes
  bus : Bus H

namespace Endpoint

variable {H : Type*}

/-- A process that has just started. -/
def start (todo : List (InitStep H)) : Endpoint H :=
  ⟨[], todo, false, false, [], none, .new fun _ => none⟩

/-- What a step of the main thread does to the process itself. -/
def perform (p : Endpoint H) : InitStep H → Endpoint H
  | .bind => { p with bound := true }
  | .startReceiver => { p with receiver := true }
  | .registerHandler evt handler =>
    { p with
      bus := { p.bus with
        handlers := Bus.interfaceRegisterHandler p.bus.handlers (some handler) evt } }
  | .bindEvents => p

/-- The next step of the main thread. -/
def init (p : Endpoint H) : Option (Endpoint H) :=
  match p.todo with
  | [] => none
  | s :: todo => some (perform { p with done := p.done ++ [s], todo := todo } s)

/-- A datagram arrives at the socket. -/
def arrive (d : Bytes) (p : Endpoint H) : Option (Endpoint H) :=
  if p.bound then some { p with queue := p.queue ++ [d] } else none

/-- The worker takes a datagram. -/
def take (p : Endpoint H) : Option (Endpoint H) :=
  match p.queue with
  | [] => none
  | d :: queue =>
    if p.receiver ∧ p.bus.inLoop ∧ p.taken = none then
      some { p with queue := queue, taken := some d }
    else none

/-- The worker looks up the datagram it has taken, and dispatches or relays
it. -/
def lookup (worker : Worker) (onCall : H → CString → CString → Receivers → Receivers)
    (sendto : Datagram → SendResult) (p : Endpoint H) : Option (Endpoint H) :=
  match p.taken with
  | none => none
  | some d =>
    (p.bus.step worker onCall ⟨d, sendto⟩).map fun b => { p with taken := none, bus := b }

inductive Action
  | init
  | arrive (d : Bytes)
  | take
  | lookup (sendto : Datagram → SendResult)

def step (worker : Worker) (onCall : H → CString → CString → Receivers → Receivers)
    (p : Endpoint H) : Action → Option (Endpoint H)
  | .init => p.init
  | .arrive d => p.arrive d
  | .take => p.take
  | .lookup sendto => p.lookup worker onCall sendto

/-- The message that the worker is about to look up. -/
def pending (p : Endpoint H) : Option (CString × CString) :=
  p.taken.bind fun d => readMessage (recvfrom d)

/-- The worker looks up one of the names before a handler for it has been
installed. -/
def Early (names : List CString) (p : Endpoint H) : Prop :=
  ∃ evt msg, p.pending = some (evt, msg) ∧ evt ∈ names ∧
    evt ∉ (registrations p.done).map Prod.fst

/-- A message with one of the names has been dispatched to a handler that the
list has for it, and not relayed. -/
def Dispatches (names : List CString) (regs : List (CString × H)) (p u : Endpoint H) : Prop :=
  ∀ evt msg, p.pending = some (evt, msg) → evt ∈ names →
    ∃ handler, (evt, handler) ∈ regs ∧ u.bus.calls = p.bus.calls ++ [(handler, evt, msg)] ∧
      u.bus.sends = p.bus.sends

/-! ### The handlers that are installed -/

/-- The table holds what the main thread has installed so far. -/
structure Inv (steps : List (InitStep H)) (p : Endpoint H) : Prop where
  split : p.done ++ p.todo = steps
  handlers : p.bus.handlers = Bus.handlersOf (registrations p.done)

section Inv

variable {worker : Worker} {onCall : H → CString → CString → Receivers → Receivers}
  {steps : List (InitStep H)} {p u : Endpoint H} {a : Action} {sendto : Datagram → SendResult}

theorem inv_start : Inv steps (start steps) := ⟨rfl, rfl⟩

theorem init_cases (h : p.init = some u) :
    ∃ s todo, p.todo = s :: todo ∧
      u = perform { p with done := p.done ++ [s], todo := todo } s := by
  rw [init] at h
  split at h
  · cases h
  · rename_i s todo htodo
    exact ⟨s, todo, htodo, (Option.some.inj h).symm⟩

theorem inv_init (hinv : Inv steps p) (h : p.init = some u) : Inv steps u := by
  obtain ⟨s, todo, htodo, rfl⟩ := init_cases h
  have hsplit : p.done ++ [s] ++ todo = steps := by
    rw [← hinv.split, htodo, List.append_assoc, List.singleton_append]
  cases s with
  | registerHandler evt handler =>
    refine ⟨hsplit, ?_⟩
    show _ = Bus.handlersOf (registrations (p.done ++ [.registerHandler evt handler]))
    rw [registrations_append]
    show _ = Bus.handlersOf (registrations p.done ++ [(evt, handler)])
    rw [Bus.handlersOf_append_singleton, ← hinv.handlers]
    rfl
  | _ =>
    refine ⟨hsplit, hinv.handlers.trans ?_⟩
    show _ = Bus.handlersOf (registrations (p.done ++ [_]))
    rw [registrations_append]
    exact congrArg _ (List.append_nil _).symm

theorem lookup_cases (h : p.lookup worker onCall sendto = some u) :
    ∃ d b, p.taken = some d ∧ p.bus.step worker onCall ⟨d, sendto⟩ = some b ∧
      u = { p with taken := none, bus := b } := by
  rw [lookup] at h
  split at h
  · cases h
  · rename_i d hd
    obtain ⟨b, hb, rfl⟩ := Option.map_eq_some_iff.mp h
    exact ⟨d, b, hd, hb, rfl⟩

theorem take_cases (h : p.take = some u) :
    ∃ d queue, p.queue = d :: queue ∧ u = { p with queue := queue, taken := some d } := by
  rw [take] at h
  split at h
  · cases h
  · rename_i d queue hqueue
    split at h
    · exact ⟨d, queue, hqueue, (Option.some.inj h).symm⟩
    · cases h

theorem inv_step (hinv : Inv steps p) (h : step worker onCall p a = some u) : Inv steps u := by
  cases a with
  | init => exact inv_init hinv h
  | arrive d =>
    rw [step, arrive] at h
    split at h
    · rw [← Option.some.inj h]
      exact ⟨hinv.split, hinv.handlers⟩
    · cases h
  | take =>
    obtain ⟨d, queue, -, rfl⟩ := take_cases h
    exact ⟨hinv.split, hinv.handlers⟩
  | lookup sendto =>
    obtain ⟨d, b, -, hb, rfl⟩ := lookup_cases h
    exact ⟨hinv.split, (Bus.handlers_step hb).trans hinv.handlers⟩

/-- **A lookup finds a handler exactly when one has been installed.** -/
theorem dispatches_iff (names : List CString) (hinv : Inv steps p)
    (h : p.lookup worker onCall sendto = some u) :
    Dispatches names (registrations steps) p u ↔ ¬ Early names p := by
  obtain ⟨d, b, hd, hb, rfl⟩ := lookup_cases h
  have hread : p.pending = readMessage (recvfrom d) := by
    rw [pending, hd, Option.bind_some]
  constructor
  · rintro hdisp ⟨evt, msg, hpend, hname, hnot⟩
    obtain ⟨handler, -, hcalls, -⟩ := hdisp evt msg hpend hname
    -- nothing is called
    have hnone : p.bus.handlers evt = none := by
      rw [hinv.handlers, Bus.handlersOf_eq_none_iff]
      exact fun handler hmem => hnot (List.mem_map_of_mem hmem)
    have hsame := Bus.calls_of_noHandler hb (hread ▸ hpend) hnone
    exact absurd (hsame.symm.trans hcalls) (by simp)
  · intro hnot evt msg hpend hname
    have hmem : evt ∈ (registrations p.done).map Prod.fst := by
      by_contra hmem
      exact hnot ⟨evt, msg, hpend, hname, hmem⟩
    cases hh : p.bus.handlers evt with
    | none =>
      obtain ⟨reg, hreg, rfl⟩ := List.mem_map.mp hmem
      rw [hinv.handlers, Bus.handlersOf_eq_none_iff] at hh
      exact absurd hreg (hh reg.2)
    | some handler =>
      obtain ⟨hcalls, hsends⟩ := Bus.step_of_handler hb (hread ▸ hpend) hh
      refine ⟨handler, ?_, hcalls, hsends⟩
      rw [hinv.handlers] at hh
      rw [← hinv.split, registrations_append]
      exact List.mem_append_left _ (Bus.mem_of_handlersOf hh)

/-- The same over a run. -/
theorem dispatches_run_iff (names : List CString) {tr : List (Endpoint H × Action)}
    (h : Run (step worker onCall) (start steps) tr u) :
    (∀ p ∈ tr, ∀ sendto v, p.2 = .lookup sendto → step worker onCall p.1 p.2 = some v →
        Dispatches names (registrations steps) p.1 v) ↔
      ∀ p ∈ tr, ∀ sendto, p.2 = .lookup sendto → ¬ Early names p.1 := by
  have hinv : ∀ p ∈ tr, Inv steps p.1 :=
    h.states (I := Inv steps) inv_start fun _ _ _ hp hu => inv_step hp hu
  constructor
  · intro hdisp p hp sendto hlookup
    obtain ⟨v, hv, -⟩ := h.exists_next hp
    have hdisp := hdisp p hp sendto v hlookup hv
    rw [hlookup] at hv
    exact (dispatches_iff names (hinv p hp) hv).mp hdisp
  · intro hnot p hp sendto v hlookup hv
    have hnot := hnot p hp sendto hlookup
    rw [hlookup] at hv
    exact (dispatches_iff names (hinv p hp) hv).mpr hnot

end Inv

/-! ### The umbrella -/

section Umbrella

variable {tr : List (Endpoint Bus.UmbrellaHandler × Action)} {s : Endpoint Bus.UmbrellaHandler}

/-- The commands that the umbrella handles itself. -/
def umbrellaCommands : List CString :=
  [iflyosDoRegisterEvtReceiver, Bus.iflyosDoStart, Bus.iflyosDoStop]

/-- **The start-ups in which the umbrella loses no command**: those in which no
command is looked up before `main` has installed its handler. -/
theorem no_command_lost_iff
    (h : Run (step .umbrella Bus.umbrellaOnCall) (start umbrellaMain) tr s) :
    (∀ p ∈ tr, ∀ sendto u, p.2 = .lookup sendto →
        step .umbrella Bus.umbrellaOnCall p.1 p.2 = some u →
        Dispatches umbrellaCommands Bus.umbrellaRegs p.1 u) ↔
      ∀ p ∈ tr, ∀ sendto, p.2 = .lookup sendto → ¬ Early umbrellaCommands p.1 := by
  have hiff := dispatches_run_iff umbrellaCommands h
  rw [registrations_umbrellaMain] at hiff
  exact hiff

/-- The registration of MicAgent, as the umbrella's socket gets it. -/
def micDatagram : Bytes := message iflyosDoRegisterEvtReceiver micRegistration.payload

theorem readMessage_micDatagram :
    readMessage (recvfrom micDatagram) =
      some (iflyosDoRegisterEvtReceiver, micRegistration.payload) := by
  have hfits := micRegistration.length_le
  rw [length_message] at hfits
  exact (readMessage_recvfrom_iff space_not_mem_doRegister).mpr hfits

/-- Behind the start-up of the umbrella a registration is dispatched. -/
theorem no_command_lost_behind_start_up :
    ∃ tr p s, Run (step .umbrella Bus.umbrellaOnCall) (start umbrellaMain) tr s ∧
      p.pending = some (iflyosDoRegisterEvtReceiver, micRegistration.payload) ∧
      (p, .lookup sendAll) ∈ tr ∧
      ∀ q ∈ tr, ∀ sendto u, q.2 = .lookup sendto →
        step .umbrella Bus.umbrellaOnCall q.1 q.2 = some u →
        Dispatches umbrellaCommands Bus.umbrellaRegs q.1 u := by
  obtain ⟨tr, p, h, hlabels, hdone, htaken, hloop⟩ :
      ∃ tr p, Run (step .umbrella Bus.umbrellaOnCall) (start umbrellaMain) tr p ∧
        tr.map Prod.snd = [.init, .init, .init, .init, .init, .init, .arrive micDatagram, .take] ∧
        p.done = umbrellaMain ∧ p.taken = some micDatagram ∧ p.bus.inLoop = true :=
    ⟨_, _, Run.of_exec [.init, .init, .init, .init, .init, .init, .arrive micDatagram, .take] rfl,
      rfl, rfl, rfl, rfl⟩
  obtain ⟨b, hb⟩ : ∃ b, p.bus.step .umbrella Bus.umbrellaOnCall ⟨micDatagram, sendAll⟩ = some b :=
    Bus.step_of_inLoop hloop
  have hstep : step .umbrella Bus.umbrellaOnCall p (.lookup sendAll) =
      some { p with taken := none, bus := b } := by
    rw [step, lookup, htaken]
    simp only [hb, Option.map_some]
  refine ⟨tr ++ [(p, .lookup sendAll)], p, _, h.snoc hstep, ?_, by simp,
    (no_command_lost_iff (h.snoc hstep)).mpr ?_⟩
  · rw [pending, htaken, Option.bind_some, readMessage_micDatagram]
  · rintro q hq sendto hlookup ⟨evt, msg, -, hname, hnot⟩
    rcases List.mem_append.mp hq with hq | hq
    · -- no lookup has been made before
      have hmem : q.2 ∈ tr.map Prod.snd := List.mem_map_of_mem hq
      rw [hlabels, hlookup] at hmem
      simp at hmem
    · rw [List.mem_singleton.mp hq] at hnot
      refine hnot ?_
      rw [hdone, registrations_umbrellaMain]
      simp only [umbrellaCommands, List.mem_cons, List.not_mem_nil, or_false] at hname
      rcases hname with rfl | rfl | rfl
      · simp [Bus.umbrellaRegs]
      · simp [Bus.umbrellaRegs]
      · simp [Bus.umbrellaRegs]

/-- **A registration that arrives during the start-up is relayed to the OS
address**, where nobody takes registrations. -/
theorem registration_relayed_during_start_up :
    ∃ tr p s, Run (step .umbrella Bus.umbrellaOnCall) (start umbrellaMain) tr p ∧
      p.pending = some (iflyosDoRegisterEvtReceiver, micRegistration.payload) ∧
      step .umbrella Bus.umbrellaOnCall p (.lookup sendAll) = some s ∧
      s.bus.calls = [] ∧ s.bus.sends.map Sent.datagrams = [[⟨osAddr, micDatagram⟩]] := by
  obtain ⟨tr, p, h, htaken, hbus⟩ : ∃ tr p, Run (step .umbrella Bus.umbrellaOnCall)
      (start umbrellaMain) tr p ∧ p.taken = some micDatagram ∧ p.bus = .new fun _ => none :=
    ⟨_, _, Run.of_exec [.init, .arrive micDatagram, .init, .take] rfl, rfl, rfl⟩
  obtain ⟨b, hb⟩ : ∃ b, p.bus.step .umbrella Bus.umbrellaOnCall ⟨micDatagram, sendAll⟩ = some b :=
    Bus.step_of_inLoop (congrArg Bus.inLoop hbus)
  have hpending : p.pending = some (iflyosDoRegisterEvtReceiver, micRegistration.payload) := by
    rw [pending, htaken, Option.bind_some, readMessage_micDatagram]
  have hstep : step .umbrella Bus.umbrellaOnCall p (.lookup sendAll) =
      some { p with taken := none, bus := b } := by
    rw [step, lookup, htaken]
    simp only [hb, Option.map_some]
  refine ⟨tr, p, _, h, hpending, hstep, ?_⟩
  have hfits : ¬ tooLong iflyosDoRegisterEvtReceiver micRegistration.payload := by decide +kernel
  rw [Bus.eq_of_action hb rfl space_not_mem_doRegister micRegistration.length_le
    (by rw [hbus]; rfl) (by decide +kernel), hbus]
  refine ⟨rfl, ?_⟩
  show [(interfaceUmbrellaSendAction _ _ _).datagrams] = _
  rw [Bus.sendAction_datagrams hfits]
  rfl

end Umbrella

end Endpoint
