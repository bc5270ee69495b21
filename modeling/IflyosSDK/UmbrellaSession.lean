/-
One IFLYOS session at a time.

Abstractly the umbrella owns at most one session, and a session goes through
`Phase`s: the child is live, it has exited, the monitor has reaped it, the
clearing task is queued; a failed fork gives a session without a child.  The
four variables of the umbrella that describe a session (`iflyosPid`, the
children, the monitors, the clearing tasks in the queue) always agree on its
phase:

* `atPhase_step` — every action of the umbrella is one move of the abstract
  session, or leaves it alone;
* `exists_atPhase` — in every reachable state the umbrella is at some phase;
* `session_invariant` — so at most one child is alive and at most one session
  is outstanding, `iflyosPid` is nonzero exactly while one is, the forks and
  the EVT_STOPPED notices are paired, and no notice is sent beside a live
  child.
-/
import IflyosSDK.Umbrella
import Mathlib.Tactic.Common

namespace Umbrella

/-! ### The abstract session -/

/-- The phases of a session; `idle` is the absence of one. -/
inductive Phase
  | idle
  | failed
  | live (pid : Int) (sigterm : Bool)
  | exited (pid : Int) (sigterm : Bool)
  | reaped (pid : Int)
  | ending (pid : Int)
  deriving DecidableEq, Repr

/-- What an action means for the session. -/
inductive Event
  | start (pid : Int)
  | stop
  | exit
  | reap
  | noChild
  | queue
  | clear
  | skip
  deriving DecidableEq, Repr

/-- A start outside `idle` and a stop outside `live` leave the session as it
is. -/
def Phase.next : Phase → Event → Phase
  | .idle, .start pid => if pid = -1 then .failed else .live pid false
  | .live pid _, .stop => .live pid true
  | .live pid sigterm, .exit => .exited pid sigterm
  | .exited pid _, .reap => .reaped pid
  | .failed, .noChild => .reaped (-1)
  | .reaped pid, .queue => .ending pid
  | .ending _, .clear => .idle
  | ph, _ => ph

/-- The event an action of the umbrella stands for. -/
def event (s : State) : Action → Event
  | .runTask pid =>
    match s.exector.tasks with
    | .doStart :: _ =>
      if s.ipcVersion = iflyosInterfaceCurrentVersion then .start pid else .skip
    | .doStop :: _ => .stop
    | .clearPid :: _ => .clear
    | [] => .skip
  | .childExit _ => .exit
  | .waitReturns _ => .reap
  | .waitFails => .noChild
  | .monitorEnqueues => .queue
  | .onDoStart => .skip
  | .onDoStop => .skip

/-- The clearing tasks in the queue. -/
def clears (s : State) : ℕ := s.exector.tasks.count .clearPid

/-- The sessions that are outstanding: a monitor is at work, or its clearing
task is queued. -/
def outstanding (s : State) : ℕ := s.waiting + s.returned + clears s

/-- What the variables of the umbrella look like in each phase. -/
def AtPhase (s : State) : Phase → Prop
  | .idle => s.iflyosPid = 0 ∧ s.children = [] ∧
      s.waiting = 0 ∧ s.returned = 0 ∧ clears s = 0 ∧ s.forks = s.stopped
  | .failed => s.iflyosPid = -1 ∧ s.children = [] ∧
      s.waiting = 1 ∧ s.returned = 0 ∧ clears s = 0 ∧ s.forks = s.stopped + 1
  | .live pid sigterm => 0 < pid ∧ s.iflyosPid = pid ∧ s.children = [⟨pid, sigterm, false⟩] ∧
      s.waiting = 1 ∧ s.returned = 0 ∧ clears s = 0 ∧ s.forks = s.stopped + 1
  | .exited pid sigterm => 0 < pid ∧ s.iflyosPid = pid ∧ s.children = [⟨pid, sigterm, true⟩] ∧
      s.waiting = 1 ∧ s.returned = 0 ∧ clears s = 0 ∧ s.forks = s.stopped + 1
  | .reaped pid => pid ≠ 0 ∧ s.iflyosPid = pid ∧ s.children = [] ∧
      s.waiting = 0 ∧ s.returned = 1 ∧ clears s = 0 ∧ s.forks = s.stopped + 1
  | .ending pid => pid ≠ 0 ∧ s.iflyosPid = pid ∧ s.children = [] ∧
      s.waiting = 0 ∧ s.returned = 0 ∧ clears s = 1 ∧ s.forks = s.stopped + 1

theorem atPhase_init (ver : Int) : AtPhase (init ver) .idle :=
  ⟨rfl, rfl, rfl, rfl, rfl, rfl⟩

/-- The phase does not depend on the other tasks of the queue. -/
theorem AtPhase.queue {s : State} {ph : Phase} {e : ThreadPool Task} (h : AtPhase s ph)
    (he : e.tasks.count .clearPid = clears s) : AtPhase { s with exector := e } ph := by
  have hc : clears { s with exector := e } = clears s := he
  cases ph <;> simpa only [AtPhase, hc] using h

theorem AtPhase.idle_of_iflyosPid {s : State} {ph : Phase} (h : AtPhase s ph)
    (h0 : s.iflyosPid = 0) : ph = .idle := by
  cases ph with
  | idle => rfl
  | failed =>
    have hpid := h.1
    omega
  | live pid b | exited pid b | reaped pid | ending pid =>
    obtain ⟨hpid, heq, -⟩ := h
    omega

/-! ### One lemma for each action -/

theorem enqueue_cases {t : Task} {s s' : State} (h : enqueue t s = some s') :
    ∃ e, e.tasks = s.exector.tasks ++ [t] ∧ s' = { s with exector := e } := by
  obtain ⟨e, he, rfl⟩ := Option.map_eq_some_iff.mp h
  exact ⟨e, ThreadPool.tasks_of_enqueue he, rfl⟩

/-- The worker has taken the front task `t` and runs it. -/
theorem runTask_cases {pid : Int} {s s' : State} (h : runTask pid s = some s') :
    ∃ t e, s.exector.tasks = t :: e.tasks ∧
      match t with
      | .doStart => doStartTask pid { s with exector := e } = some s'
      | .doStop => s' = doStopTask { s with exector := e }
      | .clearPid => s' = clearPidTask { s with exector := e } := by
  unfold runTask at h
  split at h
  · exact absurd h (by simp)
  all_goals
    rename_i e he
    exact ⟨_, e, ThreadPool.tasks_of_take he, by simpa [eq_comm] using h⟩

/-- The handlers' tasks are not clearing tasks. -/
theorem atPhase_enqueue {t : Task} {s s' : State} {ph : Phase} (hp : AtPhase s ph)
    (ht : t ≠ .clearPid) (h : enqueue t s = some s') : AtPhase s' ph := by
  obtain ⟨e, he, rfl⟩ := enqueue_cases h
  refine hp.queue ?_
  -- the count of clearing tasks is the same
  rw [he, List.count_append, List.count_singleton]
  simp [clears, ht]

/-- A start task is ignored, or forks. -/
theorem doStartTask_cases {pid : Int} {s s' : State} (h : doStartTask pid s = some s') :
    ((s.iflyosPid ≠ 0 ∨ s.ipcVersion ≠ iflyosInterfaceCurrentVersion) ∧ s' = s) ∨
      (s.iflyosPid = 0 ∧ s.ipcVersion = iflyosInterfaceCurrentVersion ∧ ForkResult s pid ∧
        s' = { s with
          iflyosPid := pid
          children := if pid = -1 then s.children else s.children ++ [⟨pid, false, false⟩]
          waiting := s.waiting + 1
          forks := s.forks + 1 }) := by
  unfold doStartTask at h
  by_cases hpid : s.iflyosPid ≠ 0
  · rw [if_pos hpid, Option.some.injEq] at h
    exact .inl ⟨.inl hpid, h.symm⟩
  rw [if_neg hpid] at h
  by_cases hver : s.ipcVersion ≠ iflyosInterfaceCurrentVersion
  · rw [if_pos hver, Option.some.injEq] at h
    exact .inl ⟨.inr hver, h.symm⟩
  rw [if_neg hver] at h
  by_cases hfork : ForkResult s pid
  · rw [if_pos hfork, Option.some.injEq] at h
    exact .inr ⟨not_not.mp hpid, not_not.mp hver, hfork, h.symm⟩
  · rw [if_neg hfork] at h
    cases h

theorem Phase.next_start_of_ne_idle {ph : Phase} (h : ph ≠ .idle) (pid : Int) :
    ph.next (.start pid) = ph := by
  cases ph with
  | idle => exact absurd rfl h
  | _ => rfl

theorem atPhase_doStartTask {pid : Int} {s s' : State} {ph : Phase} (hp : AtPhase s ph)
    (h : doStartTask pid s = some s') :
    AtPhase s' (ph.next
      (if s.ipcVersion = iflyosInterfaceCurrentVersion then .start pid else .skip)) := by
  have hskip : ph.next .skip = ph := by cases ph <;> rfl
  rcases doStartTask_cases h with ⟨hignored, rfl⟩ | ⟨hpid, hver, hfork, rfl⟩
  · by_cases hver : s'.ipcVersion = iflyosInterfaceCurrentVersion
    · -- a session is outstanding
      have hpid := hignored.resolve_right (not_not.mpr hver)
      have hidle : ph ≠ .idle := by
        rintro rfl
        exact hpid hp.1
      rw [if_pos hver, Phase.next_start_of_ne_idle hidle]
      exact hp
    · rw [if_neg hver, hskip]
      exact hp
  · obtain rfl := hp.idle_of_iflyosPid hpid
    obtain ⟨-, hch, hw, hr, hc, hf⟩ := hp
    rw [if_pos hver]
    rcases hfork with rfl | ⟨hpos, -⟩
    · show AtPhase _ .failed
      exact ⟨rfl, by simpa using hch, by simp [hw], hr, hc, by simp [hf]⟩
    · have hne : pid ≠ -1 := by omega
      have hlive : Phase.next .idle (.start pid) = .live pid false := if_neg hne
      rw [hlive]
      exact ⟨hpos, rfl, by simp [hne, hch], by simp [hw], hr, hc, by simp [hf]⟩

theorem atPhase_doStopTask {s : State} {ph : Phase} (hp : AtPhase s ph) :
    AtPhase (doStopTask s) (ph.next .stop) := by
  unfold doStopTask
  split
  · cases ph with
    | idle => exact absurd hp.1 (by assumption)
    | live pid b =>
      obtain ⟨hpos, hpid, hch, hw, hr, hc, hf⟩ := hp
      exact ⟨hpos, hpid, by simp [hch, hpid, kill], hw, hr, hc, hf⟩
    | exited pid b =>
      obtain ⟨hpos, hpid, hch, hw, hr, hc, hf⟩ := hp
      exact ⟨hpos, hpid, by simp [hch, kill], hw, hr, hc, hf⟩
    | failed =>
      obtain ⟨hpid, hch, hrest⟩ := hp
      exact ⟨hpid, by simp [hch, kill], hrest⟩
    | reaped pid =>
      obtain ⟨hne, hpid, hch, hrest⟩ := hp
      exact ⟨hne, hpid, by simp [hch, kill], hrest⟩
    | ending pid =>
      obtain ⟨hne, hpid, hch, hrest⟩ := hp
      exact ⟨hne, hpid, by simp [hch, kill], hrest⟩
  · rename_i h0
    have hidle : ph = .idle := hp.idle_of_iflyosPid (by simpa using h0)
    subst hidle
    exact hp

theorem atPhase_clearPidTask {s : State} {ph : Phase} {e : ThreadPool Task}
    (hp : AtPhase s ph) (hs : s.exector.tasks = .clearPid :: e.tasks) :
    AtPhase (clearPidTask { s with exector := e }) (ph.next .clear) := by
  -- only one phase has a clearing task in the queue
  have hcount : clears s = e.tasks.count .clearPid + 1 := by
    rw [clears, hs, List.count_cons_self]
  cases ph with
  | ending pid =>
    obtain ⟨-, -, hch, hw, hr, hc, hf⟩ := hp
    have he : e.tasks.count .clearPid = 0 := by omega
    exact ⟨rfl, hch, hw, hr, he, hf⟩
  | idle =>
    obtain ⟨-, -, -, -, hc, -⟩ := hp
    omega
  | failed =>
    obtain ⟨-, -, -, -, hc, -⟩ := hp
    omega
  | live pid b | exited pid b | reaped pid =>
    obtain ⟨-, -, -, -, -, hc, -⟩ := hp
    omega

theorem atPhase_childExit {pid : Int} {s s' : State} {ph : Phase} (hp : AtPhase s ph)
    (h : childExit pid s = some s') : AtPhase s' (ph.next .exit) := by
  unfold childExit at h
  split at h
  · rename_i hany
    rw [Option.some.injEq] at h
    subst h
    -- a child that has not exited is there in one phase only
    cases ph with
    | live p b =>
      obtain ⟨hpos, hpid, hch, hw, hr, hc, hf⟩ := hp
      have hpp : p = pid := by simpa [hch] using hany
      exact ⟨hpos, hpid, by simp [hch, hpp], hw, hr, hc, hf⟩
    | idle => simp [hp.2.1] at hany
    | failed => simp [hp.2.1] at hany
    | exited p b => simp [hp.2.2.1] at hany
    | reaped p => simp [hp.2.2.1] at hany
    | ending p => simp [hp.2.2.1] at hany
  · exact absurd h (by simp)

theorem atPhase_waitReturns {pid : Int} {s s' : State} {ph : Phase} (hp : AtPhase s ph)
    (h : waitReturns pid s = some s') : AtPhase s' (ph.next .reap) := by
  unfold waitReturns at h
  split at h
  · rename_i hany
    rw [Option.some.injEq] at h
    subst h
    cases ph with
    | exited p b =>
      obtain ⟨hpos, hpid, hch, hw, hr, hc, hf⟩ := hp
      have hpp : p = pid := by simpa [hch] using hany.2
      exact ⟨by omega, hpid, by simp [hch, hpp], by simp [hw], by simp [hr], hc, hf⟩
    | idle => simp [hp.2.1] at hany
    | failed => simp [hp.2.1] at hany
    | live p b => simp [hp.2.2.1] at hany
    | reaped p => simp [hp.2.2.1] at hany
    | ending p => simp [hp.2.2.1] at hany
  · exact absurd h (by simp)

theorem atPhase_waitFails {s s' : State} {ph : Phase} (hp : AtPhase s ph)
    (h : waitFails s = some s') : AtPhase s' (ph.next .noChild) := by
  unfold waitFails at h
  split at h
  · rename_i hw
    rw [Option.some.injEq] at h
    subst h
    cases ph with
    | failed =>
      obtain ⟨hpid, hch, hw1, hr, hc, hf⟩ := hp
      exact ⟨by decide, hpid, hch, by simp [hw1], by simp [hr], hc, hf⟩
    | idle => simp [hp.2.2.1] at hw
    | live p b => simp [hp.2.2.1] at hw
    | exited p b => simp [hp.2.2.1] at hw
    | reaped p => simp [hp.2.2.2.1] at hw
    | ending p => simp [hp.2.2.2.1] at hw
  · exact absurd h (by simp)

theorem atPhase_monitorEnqueues {s s' : State} {ph : Phase} (hp : AtPhase s ph)
    (h : monitorEnqueues s = some s') : AtPhase s' (ph.next .queue) := by
  unfold monitorEnqueues at h
  split at h
  · rename_i hr0
    obtain ⟨e, he, rfl⟩ := enqueue_cases h
    cases ph with
    | reaped p =>
      obtain ⟨hne, hpid, hch, hw, hr, hc, hf⟩ := hp
      have hone : e.tasks.count .clearPid = clears s + 1 := by
        simp [clears, he, List.count_append]
      exact ⟨hne, hpid, hch, hw, by simp [hr], hone.trans (by omega), hf⟩
    | idle => simp [hp.2.2.2.1] at hr0
    | failed => simp [hp.2.2.2.1] at hr0
    | live p b => simp [hp.2.2.2.2.1] at hr0
    | exited p b => simp [hp.2.2.2.2.1] at hr0
    | ending p => simp [hp.2.2.2.2.1] at hr0
  · exact absurd h (by simp)

/-! ### Runs -/

/-- **The umbrella refines the abstract session**: an action is the move of
its event. -/
theorem atPhase_step {s s' : State} {a : Action} {ph : Phase} (hp : AtPhase s ph)
    (h : step s a = some s') : AtPhase s' (ph.next (event s a)) := by
  have hskip : ph.next .skip = ph := by cases ph <;> rfl
  cases a with
  | onDoStart => rw [event, hskip]; exact atPhase_enqueue hp (by decide) h
  | onDoStop => rw [event, hskip]; exact atPhase_enqueue hp (by decide) h
  | runTask pid =>
    obtain ⟨t, e, ht, hrun⟩ := runTask_cases h
    -- taking a task that is no clearing task leaves the phase alone
    have htake : t ≠ .clearPid → AtPhase { s with exector := e } ph := fun hne =>
      hp.queue (by rw [clears, ht, List.count_cons_of_ne hne])
    cases t with
    | doStart =>
      have hstart := atPhase_doStartTask (htake (by decide)) hrun
      simp only [event, ht]
      exact hstart
    | doStop =>
      simp only at hrun
      simp only [event, ht, hrun]
      exact atPhase_doStopTask (htake (by decide))
    | clearPid =>
      simp only at hrun
      simp only [event, ht, hrun]
      exact atPhase_clearPidTask hp ht
  | childExit pid => exact atPhase_childExit hp h
  | waitReturns pid => exact atPhase_waitReturns hp h
  | waitFails => exact atPhase_waitFails hp h
  | monitorEnqueues => exact atPhase_monitorEnqueues hp h

theorem exists_atPhase_step (s : State) (a : Action) (s' : State) (hp : ∃ ph, AtPhase s ph)
    (h : step s a = some s') : ∃ ph, AtPhase s' ph := by
  obtain ⟨ph, hp⟩ := hp
  exact ⟨_, atPhase_step hp h⟩

theorem exists_atPhase {ver : Int} {tr : List (State × Action)} {s : State}
    (h : Run step (init ver) tr s) : ∃ ph, AtPhase s ph :=
  h.invariant (I := fun s => ∃ ph, AtPhase s ph) ⟨.idle, atPhase_init ver⟩ exists_atPhase_step

theorem exists_atPhase_of_mem {ver : Int} {tr : List (State × Action)} {s : State}
    (h : Run step (init ver) tr s) : ∀ p ∈ tr, ∃ ph, AtPhase p.1 ph :=
  h.states (I := fun s => ∃ ph, AtPhase s ph) ⟨.idle, atPhase_init ver⟩ exists_atPhase_step

/-- A step that sends EVT_STOPPED: the worker runs a clearing task. -/
def SendsStopped (p : State × Action) : Prop :=
  ∃ pid ts, p.2 = .runTask pid ∧ p.1.exector.tasks = .clearPid :: ts

/-- The children that are alive. -/
def alive (s : State) : List Child := s.children.filter fun c => !c.exited

theorem AtPhase.alive_length_le {s : State} {ph : Phase} (hp : AtPhase s ph) :
    (alive s).length ≤ 1 := by
  have hchildren : s.children.length ≤ 1 := by
    cases ph with
    | idle | failed => simp [hp.2.1]
    | live pid b | exited pid b | reaped pid | ending pid => simp [hp.2.2.1]
  exact Nat.le_trans (List.length_filter_le _ _) hchildren

/-- `iflyosPid` is cleared together with the session. -/
theorem AtPhase.outstanding_eq {s : State} {ph : Phase} (hp : AtPhase s ph) :
    outstanding s = if s.iflyosPid ≠ 0 then 1 else 0 := by
  rw [outstanding]
  cases ph with
  | idle =>
    obtain ⟨hpid, -, hw, hr, hc, -⟩ := hp
    rw [if_neg (not_not.mpr hpid)]
    omega
  | failed =>
    obtain ⟨hpid, -, hw, hr, hc, -⟩ := hp
    rw [if_pos (by omega)]
    omega
  | live pid b | exited pid b | reaped pid | ending pid =>
    obtain ⟨hne, hpid, -, hw, hr, hc, -⟩ := hp
    rw [if_pos (by omega)]
    omega

theorem AtPhase.forks_eq {s : State} {ph : Phase} (hp : AtPhase s ph) :
    s.forks = s.stopped + outstanding s := by
  rw [outstanding]
  cases ph with
  | idle | failed =>
    obtain ⟨-, -, hw, hr, hc, hf⟩ := hp
    omega
  | live pid b | exited pid b | reaped pid | ending pid =>
    obtain ⟨-, -, -, hw, hr, hc, hf⟩ := hp
    omega

/-- A clearing task is queued only when the child is gone. -/
theorem AtPhase.alive_eq_nil {s : State} {ph : Phase} (hp : AtPhase s ph)
    (hclear : 0 < clears s) : alive s = [] := by
  cases ph with
  | ending pid => simp [alive, hp.2.2.1]
  | idle | failed | live _ _ | exited _ _ | reaped _ =>
    simp only [AtPhase] at hp
    omega

/-- **One session at a time, and one stop notice for each.**  In every
reachable state at most one child is alive, at most one session is
outstanding, `iflyosPid` is nonzero exactly while one is, and the forks exceed
the EVT_STOPPED sends by the outstanding session; and no step of the run sent
EVT_STOPPED while a child was alive. -/
theorem session_invariant {ver : Int} {tr : List (State × Action)} {s : State}
    (h : Run step (init ver) tr s) :
    (alive s).length ≤ 1 ∧ outstanding s ≤ 1 ∧
    (s.iflyosPid ≠ 0 ↔ outstanding s = 1) ∧
    s.forks = s.stopped + (if s.iflyosPid ≠ 0 then 1 else 0) ∧
    ∀ p ∈ tr, SendsStopped p → alive p.1 = [] := by
  obtain ⟨ph, hp⟩ := exists_atPhase h
  have hout := hp.outstanding_eq
  refine ⟨hp.alive_length_le, ?_, ?_, ?_, ?_⟩
  · rw [hout]
    split <;> omega
  · rw [hout]
    split <;> simp_all
  · rw [← hout]
    exact hp.forks_eq
  · intro p hmem hsend
    obtain ⟨pid, ts, -, hts⟩ := hsend
    obtain ⟨ph, hp⟩ := exists_atPhase_of_mem h p hmem
    refine hp.alive_eq_nil ?_
    rw [clears, hts, List.count_cons_self]
    omega

/-- A session that is started, stopped and cleared. -/
theorem session_invariant_of_one_session :
    ∃ tr s, Run step (init 1) tr s ∧ s.forks = 1 ∧
      s.forks = s.stopped + (if s.iflyosPid ≠ 0 then 1 else 0) := by
  have h : Run step (init 1) _ _ := Run.of_exec
    [.onDoStart, .runTask 7, .onDoStop, .runTask (-1), .childExit 7, .waitReturns 7,
      .monitorEnqueues, .runTask (-1)] rfl
  exact ⟨_, _, h, rfl, (session_invariant h).2.2.2.1⟩

end Umbrella
