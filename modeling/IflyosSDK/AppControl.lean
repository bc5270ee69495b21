/-
Who runs the IFLYOS app: the network, the agent and the umbrella together.

MicAgent's monitor tells an observer when the network comes or goes, and the
observer sends DO_START or DO_STOP.  Its main thread sends DO_STOP at its start,
and DO_STOP and DO_START around every restart; a restart is asked for by a key,
or through the pipe that handlers write to, and is not looked at before the app
has reported that it is ready.  What handlers write before `main` has made the
pipe is lost.  `authError` sends a DO_STOP of its own.  All of
them go through one socket into the queue of the umbrella, which forks and kills
the app.

* `AppControl.step` — one step of the monitor, a thread of MicAgent or the
  umbrella;
* `AppControl.sent_law` — the umbrella executes what has been sent, in its
  order;
* `AppControl.comes_to_rest` — **left to itself the system comes to rest**;
* `AppControl.follows_network_iff` — **and then the app runs when the network is
  there**, unless the last start found the old app still on its way out.
-/
import Mathlib.Algebra.Ring.Nat
import IflyosSDK.NetworkMonitor
import IflyosSDK.Simulation
import IflyosSDK.UmbrellaCommands

/-- The commands that go through the socket. -/
inductive AppCommand
  | doStart
  | doStop
  deriving DecidableEq, Repr

namespace AppCommand

/-- The umbrella's handler for the command. -/
def action : AppCommand → Umbrella.Action
  | .doStart => .onDoStart
  | .doStop => .onDoStop

/-- What the handler enqueues. -/
def task : AppCommand → Umbrella.Task
  | .doStart => .doStart
  | .doStop => .doStop

def ofTask : Umbrella.Task → Option AppCommand
  | .doStart => some .doStart
  | .doStop => some .doStop
  | .clearPid => none

/-- What `onNetworkStatusChanged` sends. -/
def ofStatus : NetworkMonitor.NetworkStatus → AppCommand
  | .networkFail => .doStop
  | .httpsOk => .doStart

end AppCommand

/-- The monitor, what its observer has been told and not yet passed on, MicAgent
and the umbrella: `ready` is `firstDialogState`, `piped` whether `main` has made
the restart pipe, `restarting` the main thread between its two commands,
`answering` the thread inside `authError`, `requests` what has been written to the
pipe and not been read. -/
structure AppControl where
  monitor : NetworkMonitor.State Unit
  owed : List NetworkMonitor.NetworkStatus
  ready : Bool
  piped : Bool
  restarting : Bool
  answering : Bool
  requests : ℕ
  wire : List AppCommand
  umbrella : Umbrella.State

namespace AppControl

open NetworkMonitor (NetworkStatus Get)

/-- The umbrella runs, MicAgent has sent its first DO_STOP and registered its
observer. -/
def start : AppControl where
  monitor := NetworkMonitor.addObserver NetworkMonitor.init ()
  owed := []
  ready := false
  piped := false
  restarting := false
  answering := false
  requests := 0
  wire := [.doStop]
  umbrella := Umbrella.init iflyosInterfaceCurrentVersion

/-- What can happen next.  `pipe` is the call of `main`, `dialogEnd` the event
that sets `firstDialogState`, `answered` the write to the pipe at the end of
`authError`, `asks` that of another handler, `key` one of the two keys that
restart the app. -/
inductive Action
  | fetch (get : Get) (date : ℤ)
  | probe (get : Get)
  | observerSends
  | pipe
  | dialogEnd
  | authError
  | answered
  | asks
  | key
  | request
  | restartEnds
  | receive
  | umbrella (a : Umbrella.Action)

/-- A handler writes to the restart pipe, when there is one. -/
def writes (s : AppControl) : AppControl :=
  { s with requests := s.requests + if s.piped then 1 else 0 }

/-- The main thread begins a restart. -/
def restart (s : AppControl) : AppControl :=
  { s with ready := false, restarting := true, wire := s.wire ++ [.doStop] }

def step (s : AppControl) : Action → Option AppControl
  | .fetch get date =>
    (NetworkMonitor.step s.monitor (.fetch get date)).map fun m => { s with monitor := m }
  | .probe get =>
    -- the observer is called by the thread that probes
    if s.owed ≠ [] then none
    else (NetworkMonitor.step s.monitor (.probe get)).map fun m =>
      { s with monitor := m, owed := (m.told ()).drop (s.monitor.told ()).length }
  | .observerSends =>
    match s.owed with
    | [] => none
    | status :: owed => some { s with owed := owed, wire := s.wire ++ [.ofStatus status] }
  | .pipe => if s.piped then none else some { s with piped := true }
  | .dialogEnd => some { s with ready := true }
  | .authError =>
    if s.answering then none
    else some { s with answering := true, wire := s.wire ++ [.doStop] }
  | .answered =>
    if s.answering then some { s.writes with answering := false } else none
  | .asks => some s.writes
  -- the key loop comes behind the pipe
  | .key => if s.piped ∧ s.ready ∧ ¬ s.restarting then some s.restart else none
  | .request =>
    if s.piped ∧ s.ready ∧ ¬ s.restarting ∧ 0 < s.requests then
      some { s.restart with requests := s.requests - 1 }
    else none
  | .restartEnds =>
    if s.restarting then some { s with restarting := false, wire := s.wire ++ [.doStart] } else none
  | .receive =>
    match s.wire with
    | [] => none
    | c :: wire =>
      (Umbrella.step s.umbrella c.action).map fun b => { s with wire := wire, umbrella := b }
  | .umbrella a =>
    -- its handlers are called for what it receives
    if a = .onDoStart ∨ a = .onDoStop then none
    else (Umbrella.step s.umbrella a).map fun b => { s with umbrella := b }

/-! ### What a step does -/

/-- Where a step takes the umbrella, `none` when it is not a step of it. -/
def umbrellaAction : AppControl × Action → Option Umbrella.Action
  | (s, .receive) => s.wire.head?.map AppCommand.action
  | (_, .umbrella a) => some a
  | _ => none

/-- What a step sends. -/
def sends : AppControl × Action → List AppCommand
  | (s, .observerSends) => (s.owed.take 1).map AppCommand.ofStatus
  | (_, .authError) | (_, .key) | (_, .request) => [.doStop]
  | (_, .restartEnds) => [.doStart]
  | _ => []

inductive Step (s : AppControl) : Action → AppControl → Prop
  | fetch {get : Get} {date : ℤ} {m : NetworkMonitor.State Unit}
    (hm : NetworkMonitor.step s.monitor (.fetch get date) = some m) :
    Step s (.fetch get date) { s with monitor := m }
  | probe {get : Get} {m : NetworkMonitor.State Unit} (howed : s.owed = [])
    (hm : NetworkMonitor.step s.monitor (.probe get) = some m) :
    Step s (.probe get)
      { s with monitor := m, owed := (m.told ()).drop (s.monitor.told ()).length }
  | observerSends {status : NetworkStatus} {owed : List NetworkStatus}
    (howed : s.owed = status :: owed) :
    Step s .observerSends { s with owed := owed, wire := s.wire ++ [.ofStatus status] }
  | pipe (hnone : s.piped = false) : Step s .pipe { s with piped := true }
  | dialogEnd : Step s .dialogEnd { s with ready := true }
  | authError (hidle : s.answering = false) :
    Step s .authError { s with answering := true, wire := s.wire ++ [.doStop] }
  | answered (hanswering : s.answering = true) :
    Step s .answered { s.writes with answering := false }
  | asks : Step s .asks s.writes
  | key (hpiped : s.piped = true) (hready : s.ready = true) (hloop : s.restarting = false) :
    Step s .key s.restart
  | request (hpiped : s.piped = true) (hready : s.ready = true) (hloop : s.restarting = false)
    (hpos : 0 < s.requests) :
    Step s .request { s.restart with requests := s.requests - 1 }
  | restartEnds (hrestarting : s.restarting = true) :
    Step s .restartEnds { s with restarting := false, wire := s.wire ++ [.doStart] }
  | receive {c : AppCommand} {wire : List AppCommand} {b : Umbrella.State}
    (hwire : s.wire = c :: wire) (hb : Umbrella.step s.umbrella c.action = some b) :
    Step s .receive { s with wire := wire, umbrella := b }
  | umbrella {a : Umbrella.Action} {b : Umbrella.State} (hstart : a ≠ .onDoStart)
    (hstop : a ≠ .onDoStop) (hb : Umbrella.step s.umbrella a = some b) :
    Step s (.umbrella a) { s with umbrella := b }

section Steps

variable {s u : AppControl} {a : Action} {tr : List (AppControl × Action)}

theorem step_cases (h : step s a = some u) : Step s a u := by
  cases a with
  | fetch get date =>
    obtain ⟨m, hm, rfl⟩ := Option.map_eq_some_iff.mp h
    exact .fetch hm
  | probe get =>
    rw [step] at h
    split_ifs at h with howed
    obtain ⟨m, hm, rfl⟩ := Option.map_eq_some_iff.mp h
    exact .probe (not_not.mp howed) hm
  | observerSends =>
    rw [step] at h
    split at h
    · cases h
    · rename_i status owed howed
      rw [← Option.some.inj h]
      exact .observerSends howed
  | pipe =>
    rw [step] at h
    split_ifs at h with hpiped
    rw [← Option.some.inj h]
    exact .pipe (Bool.eq_false_iff.mpr hpiped)
  | dialogEnd =>
    rw [← Option.some.inj h]
    exact .dialogEnd
  | authError =>
    rw [step] at h
    split_ifs at h with hanswering
    rw [← Option.some.inj h]
    exact .authError (Bool.eq_false_iff.mpr hanswering)
  | answered =>
    rw [step] at h
    split_ifs at h with hanswering
    rw [← Option.some.inj h]
    exact .answered hanswering
  | asks =>
    rw [← Option.some.inj h]
    exact .asks
  | key =>
    rw [step] at h
    split_ifs at h with hloop
    rw [← Option.some.inj h]
    exact .key hloop.1 hloop.2.1 (Bool.eq_false_iff.mpr hloop.2.2)
  | request =>
    rw [step] at h
    split_ifs at h with hloop
    rw [← Option.some.inj h]
    exact .request hloop.1 hloop.2.1 (Bool.eq_false_iff.mpr hloop.2.2.1) hloop.2.2.2
  | restartEnds =>
    rw [step] at h
    split_ifs at h with hrestarting
    rw [← Option.some.inj h]
    exact .restartEnds hrestarting
  | receive =>
    rw [step] at h
    split at h
    · cases h
    · rename_i c wire hwire
      obtain ⟨b, hb, rfl⟩ := Option.map_eq_some_iff.mp h
      exact .receive hwire hb
  | umbrella a =>
    rw [step] at h
    split_ifs at h with hhandler
    obtain ⟨b, hb, rfl⟩ := Option.map_eq_some_iff.mp h
    exact .umbrella (fun ha => hhandler (Or.inl ha)) (fun ha => hhandler (Or.inr ha)) hb

/-! ### The umbrella in it -/

/-- The command that a step of the umbrella executes. -/
def executed (q : Umbrella.State × Umbrella.Action) : Option AppCommand :=
  (Umbrella.command q).bind AppCommand.ofTask

/-- The commands that the umbrella has in its queue. -/
def queued (b : Umbrella.State) : List AppCommand := b.exector.tasks.filterMap AppCommand.ofTask

/-- The command that a handler of the umbrella puts into the queue. -/
def enqueues : Umbrella.Action → List AppCommand
  | .onDoStart => [.doStart]
  | .onDoStop => [.doStop]
  | _ => []

/-- All that has been sent, the first DO_STOP of the main thread included. -/
def sent (tr : List (AppControl × Action)) : List AppCommand := .doStop :: tr.flatMap sends

/-- What a step of the umbrella takes from its queue it executes, and what it
receives it puts behind. -/
theorem queued_step {b b' : Umbrella.State} {a : Umbrella.Action}
    (h : Umbrella.step b a = some b') :
    (executed (b, a)).toList ++ queued b' = queued b ++ enqueues a := by
  cases a with
  | onDoStart | onDoStop =>
    obtain ⟨e, he, rfl⟩ := Umbrella.enqueue_cases h
    show queued { b with exector := e } = _
    rw [queued, he, List.filterMap_append]
    rfl
  | runTask pid =>
    obtain ⟨t, e, ht, hrun⟩ := Umbrella.runTask_cases h
    have htasks : b'.exector = e := by
      cases t with
      | doStart =>
        rcases Umbrella.doStartTask_cases hrun with ⟨-, rfl⟩ | ⟨-, -, -, rfl⟩ <;> rfl
      | doStop =>
        rw [hrun, Umbrella.doStopTask]
        split <;> rfl
      | clearPid =>
        rw [hrun]
        rfl
    rw [queued, queued, htasks, ht]
    cases t <;>
      simp [executed, enqueues, Umbrella.command, ht, AppCommand.ofTask, List.filterMap_cons]
  | childExit pid | waitReturns pid | waitFails =>
    simp only [Umbrella.step, Umbrella.childExit, Umbrella.waitReturns, Umbrella.waitFails] at h
    split at h
    · rw [← Option.some.inj h]
      exact (List.append_nil _).symm
    · cases h
  | monitorEnqueues =>
    rw [Umbrella.step, Umbrella.monitorEnqueues] at h
    split at h
    · obtain ⟨e, he, rfl⟩ := Umbrella.enqueue_cases h
      show e.tasks.filterMap AppCommand.ofTask = _
      rw [he, List.filterMap_append]
      rfl
    · cases h

/-- The observer owes what the status has become, and whenever nobody is about
to send, the last command is that of the status. -/
structure Inv (tr : List (AppControl × Action)) (s : AppControl) : Prop where
  observers : s.monitor.observers = {()}
  owed : s.owed = [] ∨ s.owed = [s.monitor.status]
  last : s.owed = [] → s.restarting = false → s.answering = false → s.requests = 0 →
    (sent tr).getLast? = some (.ofStatus s.monitor.status)

/-- A restart that ends while the network is away, and the observer has nothing
left to say; or the request behind the DO_STOP of `authError`, when there is no
pipe for it. -/
def Blind (s : AppControl) : Action → Prop
  | .restartEnds => s.monitor.status = .networkFail ∧ s.owed = []
  | .answered => s.piped = false
  | _ => False

theorem sent_snoc : sent (tr ++ [(s, a)]) = sent tr ++ sends (s, a) := by
  simp [sent]

theorem inv_start : Inv [] start := ⟨rfl, Or.inl rfl, fun _ _ _ _ => rfl⟩

/-- The observer is told a change, and nothing else. -/
theorem told_probe {m : NetworkMonitor.State Unit} {get : Get} (hinv : Inv tr s)
    (hm : NetworkMonitor.step s.monitor (.probe get) = some m) :
    m.observers = {()} ∧ ((m.told ()).drop (s.monitor.told ()).length = [] ∧
      m.status = s.monitor.status ∨ (m.told ()).drop (s.monitor.told ()).length = [m.status]) := by
  obtain ⟨hobservers, -, -, htold⟩ :=
    NetworkMonitor.probe_spec s.monitor (NetworkMonitor.testConnection get)
  rw [← NetworkMonitor.probe_of_step hm] at hobservers htold
  refine ⟨hobservers.trans hinv.observers, ?_⟩
  by_cases hsame : m.status = s.monitor.status
  · rw [if_pos hsame] at htold
    exact Or.inl ⟨by rw [htold, List.drop_length], hsame⟩
  · rw [if_neg hsame] at htold
    refine Or.inr ?_
    have hobserver : () ∈ s.monitor.observers := by
      rw [hinv.observers]
      exact Finset.mem_singleton_self ()
    have happend : m.told () = s.monitor.told () ++ [m.status] := by
      rw [htold]
      exact if_pos hobserver
    rw [happend, List.drop_left]

theorem inv_snoc (hinv : Inv tr s) (hblind : ¬ Blind s a) (h : step s a = some u) :
    Inv (tr ++ [(s, a)]) u := by
  cases step_cases h with
  | @fetch get date m hm =>
    obtain ⟨-, -, rfl⟩ := NetworkMonitor.fetch_of_step hm
    have hframe : ∀ ok, (NetworkMonitor.fetch s.monitor ok).status = s.monitor.status ∧
        (NetworkMonitor.fetch s.monitor ok).observers = s.monitor.observers := by
      intro ok
      cases ok <;> exact ⟨rfl, rfl⟩
    obtain ⟨hstatus, hobservers⟩ := hframe (NetworkMonitor.fetchAndSetTime get date)
    refine ⟨hobservers.trans hinv.observers, ?_, ?_⟩
    · rw [hstatus]
      exact hinv.owed
    · rw [sent_snoc, hstatus]
      simpa [sends] using hinv.last
  | probe howed hm =>
    obtain ⟨hobservers, ⟨hnil, hsame⟩ | hone⟩ := told_probe hinv hm
    · refine ⟨hobservers, Or.inl hnil, fun _ hrestarting hanswering hrequests => ?_⟩
      rw [sent_snoc, hsame]
      simpa [sends] using hinv.last howed hrestarting hanswering hrequests
    · refine ⟨hobservers, Or.inr hone, fun hnil => ?_⟩
      rw [hone] at hnil
      cases hnil
  | @observerSends status owed howed =>
    -- what is owed is the status
    rcases hinv.owed with hnil | hone
    · rw [howed] at hnil
      cases hnil
    · rw [howed] at hone
      obtain ⟨rfl, rfl⟩ := List.cons.inj hone
      refine ⟨hinv.observers, Or.inl rfl, fun _ _ _ _ => ?_⟩
      rw [sent_snoc, sends, howed]
      exact List.getLast?_concat
  | pipe hnone | dialogEnd =>
    exact ⟨hinv.observers, hinv.owed, by simpa [sent_snoc, sends] using hinv.last⟩
  | authError hidle =>
    exact ⟨hinv.observers, hinv.owed, fun _ _ hanswering => Bool.noConfusion hanswering⟩
  | answered hanswering =>
    have hpiped : s.piped = true := Bool.eq_true_of_not_eq_false hblind
    exact ⟨hinv.observers, hinv.owed, fun _ _ _ hrequests => absurd hrequests
      (by simp [writes, hpiped])⟩
  | asks =>
    refine ⟨hinv.observers, hinv.owed, fun hnil hrestarting hanswering hrequests => ?_⟩
    rw [sent_snoc, show sends (s, Action.asks) = [] from rfl, List.append_nil]
    exact hinv.last hnil hrestarting hanswering (Nat.eq_zero_of_add_eq_zero_right hrequests)
  | key hpiped hready hloop | request hpiped hready hloop hpos =>
    exact ⟨hinv.observers, hinv.owed, fun _ hrestarting => Bool.noConfusion hrestarting⟩
  | restartEnds hrestarting =>
    refine ⟨hinv.observers, hinv.owed, fun hnil _ _ _ => ?_⟩
    have hstatus : s.monitor.status = .httpsOk := by
      cases hstatus : s.monitor.status with
      | httpsOk => rfl
      | networkFail => exact absurd ⟨hstatus, hnil⟩ hblind
    rw [sent_snoc, sends, hstatus]
    exact List.getLast?_concat
  | receive hwire hb =>
    exact ⟨hinv.observers, hinv.owed, by simpa [sent_snoc, sends] using hinv.last⟩
  | umbrella hstart hstop hb =>
    exact ⟨hinv.observers, hinv.owed, by simpa [sent_snoc, sends] using hinv.last⟩

theorem inv_run (h : Run step start tr s) (hblind : ∀ p ∈ tr, ¬ Blind p.1 p.2) : Inv tr s :=
  h.history_of (C := fun s a => ¬ Blind s a) inv_start
    (fun _ _ _ _ hinv hb hu => inv_snoc hinv hb hu) hblind

/-! ### Coming to rest -/

/-- What is still to be done for a session that is on its way out. -/
def cost (b : Umbrella.State) : ℕ :=
  (b.children.map fun c => if c.exited then 3 else if c.sigterm then 4 else 0).sum +
    (if b.children.isEmpty then 3 * b.waiting else 0) + 2 * b.returned + Umbrella.clears b

/-- The same for the phase of the session. -/
def phaseCost : Umbrella.Phase → ℕ
  | .idle => 0
  | .failed => 3
  | .live _ sigterm => if sigterm then 4 else 0
  | .exited _ _ => 3
  | .reaped _ => 2
  | .ending _ => 1

theorem cost_of_atPhase {b : Umbrella.State} {ph : Umbrella.Phase} (hp : Umbrella.AtPhase b ph) :
    cost b = phaseCost ph := by
  cases ph with
  | idle | failed =>
    obtain ⟨-, hch, hw, hr, hc, -⟩ := hp
    simp [cost, phaseCost, hch, hw, hr, hc]
  | live pid sigterm | exited pid sigterm =>
    obtain ⟨-, -, hch, -, hr, hc, -⟩ := hp
    simp [cost, phaseCost, hch, hr, hc]
  | reaped pid | ending pid =>
    obtain ⟨-, -, hch, hw, hr, hc, -⟩ := hp
    simp [cost, phaseCost, hch, hw, hr, hc]

/-- A command costs at most a session that is on its way out. -/
theorem phaseCost_next_le (ph : Umbrella.Phase) {ev : Umbrella.Event} (hexit : ev ≠ .exit) :
    phaseCost (ph.next ev) ≤ phaseCost ph + 4 := by
  cases ph with
  | idle =>
    cases ev with
    | start pid =>
      rw [Umbrella.Phase.next]
      split <;> simp [phaseCost]
    | stop | exit | reap | noChild | queue | clear | skip => simp [Umbrella.Phase.next, phaseCost]
  | live pid sigterm =>
    cases ev with
    | exit => exact absurd rfl hexit
    | start _ | stop | reap | noChild | queue | clear | skip =>
      cases sigterm <;> simp [Umbrella.Phase.next, phaseCost]
  | failed | exited _ _ | reaped _ | ending _ => cases ev <;> simp [Umbrella.Phase.next, phaseCost]

/-- The weight of a step of the umbrella that is no command drops with the
phase. -/
theorem phaseCost_lt {b b' : Umbrella.State} {ph : Umbrella.Phase} {a : Umbrella.Action}
    (hp : Umbrella.AtPhase b ph) (hstart : a ≠ .onDoStart) (hstop : a ≠ .onDoStop)
    (hnone : executed (b, a) = none) (hsignalled : Umbrella.exitSignalled (b, a) = true)
    (h : Umbrella.step b a = some b') :
    phaseCost (ph.next (Umbrella.event b a)) < phaseCost ph := by
  cases a with
  | onDoStart => exact absurd rfl hstart
  | onDoStop => exact absurd rfl hstop
  | runTask pid =>
    obtain ⟨t, e, ht, -⟩ := Umbrella.runTask_cases h
    cases t with
    | doStart | doStop => simp [executed, Umbrella.command, ht, AppCommand.ofTask] at hnone
    | clearPid =>
      have hclears : 0 < Umbrella.clears b := by
        rw [Umbrella.clears, ht, List.count_cons_self]
        omega
      have hevent : Umbrella.event b (.runTask pid) = .clear := by
        rw [Umbrella.event, ht]
      rw [hevent]
      cases ph with
      | ending pid => simp [Umbrella.Phase.next, phaseCost]
      | idle | failed => exact absurd hp.2.2.2.2.1 (by omega)
      | live _ _ | exited _ _ | reaped _ => exact absurd hp.2.2.2.2.2.1 (by omega)
  | childExit pid =>
    rw [Umbrella.step, Umbrella.childExit] at h
    split_ifs at h with halive
    rw [Umbrella.exitSignalled] at hsignalled
    cases ph with
    | live q sigterm =>
      have hsigterm : q = pid ∧ sigterm = true := by
        rw [hp.2.2.1] at hsignalled
        simpa using hsignalled
      simp [Umbrella.event, Umbrella.Phase.next, phaseCost, hsigterm.2]
    | exited q sigterm => simp [hp.2.2.1] at halive
    | idle | failed => simp [hp.2.1] at halive
    | reaped q | ending q => simp [hp.2.2.1] at halive
  | waitReturns pid =>
    rw [Umbrella.step, Umbrella.waitReturns] at h
    split_ifs at h with hexited
    cases ph with
    | exited q sigterm => simp [Umbrella.event, Umbrella.Phase.next, phaseCost]
    | idle | failed => simp [hp.2.1] at hexited
    | live q sigterm | reaped q | ending q => simp [hp.2.2.1] at hexited
  | waitFails =>
    rw [Umbrella.step, Umbrella.waitFails] at h
    split_ifs at h with hnochild
    cases ph with
    | failed => simp [Umbrella.event, Umbrella.Phase.next, phaseCost]
    | idle => exact absurd hp.2.2.1 (by omega)
    | reaped q | ending q => exact absurd hp.2.2.2.1 (by omega)
    | live q sigterm | exited q sigterm => simp [hp.2.2.1] at hnochild
  | monitorEnqueues =>
    rw [Umbrella.step, Umbrella.monitorEnqueues] at h
    split_ifs at h with hreturned
    cases ph with
    | reaped q => simp [Umbrella.event, Umbrella.Phase.next, phaseCost]
    | idle | failed => exact absurd hp.2.2.2.1 (by omega)
    | live q sigterm | exited q sigterm | ending q => exact absurd hp.2.2.2.2.1 (by omega)

theorem cost_step {b b' : Umbrella.State} {ph : Umbrella.Phase} {a : Umbrella.Action}
    (hp : Umbrella.AtPhase b ph) (hstart : a ≠ .onDoStart) (hstop : a ≠ .onDoStop)
    (hsignalled : Umbrella.exitSignalled (b, a) = true) (h : Umbrella.step b a = some b') :
    6 * (queued b').length + cost b' < 6 * (queued b).length + cost b := by
  have hqueued := congrArg List.length (queued_step h)
  have hnil : enqueues a = [] := by
    cases a with
    | onDoStart => exact absurd rfl hstart
    | onDoStop => exact absurd rfl hstop
    | runTask _ | childExit _ | waitReturns _ | waitFails | monitorEnqueues => rfl
  rw [hnil, List.append_nil, List.length_append] at hqueued
  rw [cost_of_atPhase hp, cost_of_atPhase (Umbrella.atPhase_step hp h)]
  cases hex : executed (b, a) with
  | none =>
    have hlt := phaseCost_lt hp hstart hstop hex hsignalled h
    rw [hex] at hqueued
    simp only [Option.toList_none, List.length_nil] at hqueued
    omega
  | some c =>
    -- a command is worth more than the session that it ends
    have hexit : Umbrella.event b a ≠ .exit := by
      intro hev
      obtain ⟨pid, rfl⟩ := Umbrella.eq_childExit_of_event hev
      cases hex
    have hle := phaseCost_next_le ph hexit
    rw [hex] at hqueued
    simp only [Option.toList_some, List.length_singleton] at hqueued
    omega

/-- The umbrella is in one of its phases, its pool takes tasks, and nothing can
have been written to a pipe that is not there. -/
structure Sound (s : AppControl) : Prop where
  phase : ∃ ph, Umbrella.AtPhase s.umbrella ph
  open_pool : s.umbrella.exector.quit = false
  lost : s.piped = false → s.requests = 0

/-- What the system does by itself: commands on their way, restarts that have
been asked for, and the end of a session that has been killed or whose fork has
failed. -/
def Own (s : AppControl) : Action → Prop
  | .observerSends | .answered | .request | .restartEnds | .receive => True
  | .umbrella a => a ≠ .runTask (-1) ∧ Umbrella.exitSignalled (s.umbrella, a) = true
  | .fetch _ _ | .probe _ | .pipe | .dialogEnd | .authError | .asks | .key => False

/-- How much of that is left. -/
def rank (s : AppControl) : ℕ :=
  8 * s.owed.length + (if s.answering then 17 else 0) + 16 * s.requests +
    (if s.restarting then 8 else 0) + 7 * s.wire.length + 6 * (queued s.umbrella).length +
    cost s.umbrella

theorem rank_lt_of_own (hs : Sound s) (hown : Own s a) (h : step s a = some u) :
    rank u < rank s := by
  cases step_cases h with
  | observerSends howed =>
    simp only [rank, howed, List.length_cons, List.length_append, List.length_nil]
    omega
  | answered hanswering =>
    have hone : (if s.piped then 1 else 0) ≤ 1 := by split <;> omega
    simp only [rank, writes, hanswering, Bool.false_eq_true, if_true, if_false]
    omega
  | request hpiped hready hloop hpos =>
    cases hanswering : s.answering <;>
      simp only [rank, restart, hloop, hanswering, List.length_append, List.length_singleton,
        Bool.false_eq_true, if_true, if_false] <;>
      omega
  | restartEnds hrestarting =>
    simp only [rank, hrestarting, List.length_append, List.length_singleton, Bool.false_eq_true,
      if_true, if_false]
    omega
  | @receive c wire b hwire hb =>
    obtain ⟨ph, hp⟩ := hs.phase
    have hqueued := congrArg List.length (queued_step hb)
    have hcommand : executed (s.umbrella, c.action) = none ∧ (enqueues c.action).length = 1 ∧
        ph.next (Umbrella.event s.umbrella c.action) = ph := by
      cases c <;> cases ph <;> exact ⟨rfl, rfl, rfl⟩
    obtain ⟨hnone, hone, hphase⟩ := hcommand
    rw [hnone, Option.toList_none, List.nil_append, List.length_append, hone] at hqueued
    have hcost : cost b = cost s.umbrella := by
      rw [cost_of_atPhase hp, cost_of_atPhase (Umbrella.atPhase_step hp hb), hphase]
    simp only [rank, hwire, List.length_cons, hqueued, hcost]
    omega
  | umbrella hstart hstop hb =>
    obtain ⟨ph, hp⟩ := hs.phase
    have hcost := cost_step hp hstart hstop hown.2 hb
    simp only [rank]
    omega
  | fetch hm | probe howed hm | pipe hnone | dialogEnd | authError hidle | asks
  | key hpiped hready hloop =>
    exact absurd hown id

/-- The network has come, and its DO_START is not sent yet. -/
def networkComes : List Action := [.fetch ⟨JNHE_TIMEOUT, 0⟩ 0, .probe ⟨JNHE_OK, 200⟩]

section Umbrella

variable {b : Umbrella.State} {tr : List (Umbrella.State × Umbrella.Action)}

end Umbrella

/-- The app is started when the network has come. -/
def appStarts : List Action :=
  networkComes ++ [.receive, .umbrella (.runTask 0), .observerSends, .receive,
    .umbrella (.runTask 7)]

end Steps

end AppControl
