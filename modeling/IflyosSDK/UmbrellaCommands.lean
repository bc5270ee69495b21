/-
What becomes of the commands sent to the umbrella.

DO_START is ignored while `iflyosPid` is nonzero and DO_STOP signals whatever
`iflyosPid` holds, but `iflyosPid` is set without a look at the result of
`fork` and is cleared by a task that runs some time after the child is gone.

* `start_kept_iff` — once the umbrella is quiescent, the last command being a
  DO_START means that a child runs exactly when that DO_START was not executed
  while the old session was winding down;
* `kills_own_child_iff` — the DO_STOP tasks of a run signal only the
  umbrella's own child exactly when none of them runs between a failed fork
  and its clearing task, or between the return of `wait` and the clearing
  task.

Both conditions can fail: `start_lost_after_stop` is DO_STOP and DO_START sent
back to back, `kill_without_child` a stop after a failed fork.
-/
import IflyosSDK.UmbrellaSession

namespace Umbrella

/-! ### Starts -/

/-- The command a step executes: the worker runs a DO_START or DO_STOP task. -/
def command (p : State × Action) : Option Task :=
  match p.2, p.1.exector.tasks with
  | .runTask _, .doStart :: _ => some .doStart
  | .runTask _, .doStop :: _ => some .doStop
  | _, _ => none

/-- The last command executed in a run, with the state it was executed in. -/
def lastCommand (tr : List (State × Action)) : Option (State × Task) :=
  (tr.filterMap fun p => (command p).map fun t => (p.1, t)).getLast?

/-- The kernel never refuses a fork. -/
def ForksSucceed (tr : List (State × Action)) : Prop :=
  ∀ p ∈ tr, p.2 ≠ .runTask (-1)

instance (tr : List (State × Action)) : Decidable (ForksSucceed tr) :=
  inferInstanceAs (Decidable (∀ p ∈ tr, _))

/-- If the step is the exit of a child, that child was sent a SIGTERM. -/
def exitSignalled (p : State × Action) : Bool :=
  match p.2 with
  | .childExit pid => p.1.children.any fun c => c.pid = pid ∧ c.sigterm
  | _ => true

/-- A child exits only after a SIGTERM. -/
def ExitsSignalled (tr : List (State × Action)) : Prop :=
  ∀ p ∈ tr, exitSignalled p

instance (tr : List (State × Action)) : Decidable (ExitsSignalled tr) :=
  inferInstanceAs (Decidable (∀ p ∈ tr, _))

/-- The queue is empty, no SIGTERM is still to be acted on and no exited child
is still to be reaped or cleared. -/
def Quiescent (s : State) : Prop :=
  s.exector.tasks = [] ∧ s.returned = 0 ∧ ∀ c ∈ s.children, ¬ c.sigterm ∧ ¬ c.exited

instance (s : State) : Decidable (Quiescent s) :=
  inferInstanceAs (Decidable (_ ∧ _ ∧ ∀ c ∈ s.children, _))

/-- An IFLYOS child is running. -/
def Running (s : State) : Prop := ∃ c ∈ s.children, ¬ c.exited

instance (s : State) : Decidable (Running s) :=
  inferInstanceAs (Decidable (∃ c ∈ s.children, _))

/-- The session is on its way out: its child was sent a SIGTERM or has exited,
or the child is reaped and `iflyosPid` is not cleared yet. -/
def WindingDown (s : State) : Prop :=
  (∃ c ∈ s.children, c.sigterm ∨ c.exited) ∨ 0 < s.returned ∨
    .clearPid ∈ s.exector.tasks

theorem lastCommand_snoc (tr : List (State × Action)) (p : State × Action) :
    lastCommand (tr ++ [p]) =
      ((command p).map fun t => (p.1, t)).or (lastCommand tr) := by
  rw [lastCommand, lastCommand, List.filterMap_append]
  cases hc : command p with
  | none => simp [hc]
  | some t => simp [hc]

/-! The same three notions, read off the phase of the session. -/

/-- The session has a child that runs and was sent no SIGTERM. -/
def Phase.Undisturbed (ph : Phase) : Prop := ∃ pid, ph = .live pid false

/-- The phases of a session on its way out. -/
def Phase.Winding : Phase → Prop
  | .live _ sigterm => sigterm
  | .exited _ _ | .reaped _ | .ending _ => True
  | .idle | .failed => False

theorem windingDown_iff {s : State} {ph : Phase} (hp : AtPhase s ph) :
    WindingDown s ↔ ph.Winding := by
  have hclear : Task.clearPid ∈ s.exector.tasks ↔ 0 < clears s := List.count_pos_iff.symm
  rw [WindingDown, hclear]
  cases ph with
  | idle | failed =>
    obtain ⟨-, hch, -, hr, hc, -⟩ := hp
    simp [hch, hr, hc, Phase.Winding]
  | live pid b | exited pid b | reaped pid | ending pid =>
    obtain ⟨-, -, hch, -, hr, hc, -⟩ := hp
    simp [hch, hr, hc, Phase.Winding]

/-- In a quiescent state the session is undisturbed or there is none. -/
theorem running_iff_of_quiescent {s : State} {ph : Phase} (hp : AtPhase s ph)
    (hq : Quiescent s) : Running s ↔ ph.Undisturbed := by
  obtain ⟨hts, hr0, hquiet⟩ := hq
  cases ph with
  | idle | failed => simp [Running, Phase.Undisturbed, hp.2.1]
  | live pid b =>
    have hch := hp.2.2.1
    have hb : b = false := by simpa [hch] using hquiet
    simp [Running, Phase.Undisturbed, hch, hb]
  | exited pid b =>
    have hch := hp.2.2.1
    simp [hch] at hquiet
  | reaped pid =>
    have hr := hp.2.2.2.2.1
    omega
  | ending pid =>
    have hc := hp.2.2.2.2.2.1
    simp [clears, hts] at hc

/-- A start makes an undisturbed session, except when it finds one winding
down. -/
theorem Phase.start_undisturbed {ph : Phase} {pid : Int} (hpid : pid ≠ -1)
    (hfailed : ph ≠ .failed) : (ph.next (.start pid)).Undisturbed ↔ ¬ ph.Winding := by
  cases ph with
  | idle =>
    have hlive : Phase.next .idle (.start pid) = .live pid false := if_neg hpid
    rw [hlive]
    exact ⟨fun _ => id, fun _ => ⟨pid, rfl⟩⟩
  | failed => exact absurd rfl hfailed
  | live q b => cases b <;> simp [Phase.next, Phase.Undisturbed, Phase.Winding]
  | exited q b | reaped q | ending q =>
    simp [Phase.next, Phase.Undisturbed, Phase.Winding]

/-- Only commands, and an exit of its own accord, change whether the session
is undisturbed. -/
theorem Phase.next_undisturbed {ph : Phase} {ev : Event} (hstart : ∀ pid, ev ≠ .start pid)
    (hstop : ev ≠ .stop) (hexit : ev = .exit → ¬ ph.Undisturbed) :
    (ph.next ev).Undisturbed ↔ ph.Undisturbed := by
  cases ev with
  | start pid => exact absurd rfl (hstart pid)
  | stop => exact absurd rfl hstop
  | exit =>
    have hno := hexit rfl
    cases ph <;> simp_all [Phase.next, Phase.Undisturbed]
  | reap | noChild | queue | clear | skip =>
    cases ph <;> simp [Phase.next, Phase.Undisturbed]

theorem Phase.next_ne_failed {ph : Phase} {ev : Event} (hfailed : ph ≠ .failed)
    (hfork : ev ≠ .start (-1)) : ph.next ev ≠ .failed := by
  cases ph with
  | idle =>
    cases ev with
    | start pid =>
      have hpid : pid ≠ -1 := fun h => hfork (h ▸ rfl)
      simp [Phase.next, hpid]
    | _ => simp [Phase.next]
  | failed => exact absurd rfl hfailed
  | live q b | exited q b | reaped q | ending q => cases ev <;> simp [Phase.next]

theorem event_of_command_doStart {s : State} {a : Action}
    (hc : command (s, a) = some .doStart) (hver : s.ipcVersion = iflyosInterfaceCurrentVersion) :
    ∃ pid, a = .runTask pid ∧ event s a = .start pid := by
  unfold command at hc
  split at hc
  · rename_i pid ts ha hts
    refine ⟨pid, ha, ?_⟩
    simp only at ha hts
    simp [ha, event, hts, hver]
  · exact absurd hc (by simp)
  · exact absurd hc (by simp)

theorem event_of_command_none {s : State} {a : Action} (hc : command (s, a) = none) :
    (∀ pid, event s a ≠ .start pid) ∧ event s a ≠ .stop := by
  cases a with
  | runTask pid =>
    cases hts : s.exector.tasks with
    | nil => simp [event, hts]
    | cons t ts => cases t <;> simp_all [event, command]
  | _ => simp [event]

theorem eq_runTask_of_event {s : State} {a : Action} {pid : Int}
    (h : event s a = .start pid) : a = .runTask pid := by
  cases a with
  | runTask q =>
    simp only [event] at h
    split at h
    · split at h
      · rw [Event.start.inj h]
      · exact absurd h (by simp)
    all_goals exact absurd h (by simp)
  | _ => exact absurd h (by simp [event])

theorem eq_childExit_of_event {s : State} {a : Action} (h : event s a = .exit) :
    ∃ pid, a = .childExit pid := by
  cases a with
  | childExit pid => exact ⟨pid, rfl⟩
  | runTask q =>
    simp only [event] at h
    split at h
    · split at h <;> exact absurd h (by simp)
    all_goals exact absurd h (by simp)
  | _ => exact absurd h (by simp [event])

theorem ipcVersion_step {s s' : State} {a : Action} (h : step s a = some s') :
    s'.ipcVersion = s.ipcVersion := by
  cases a with
  | onDoStart | onDoStop =>
    obtain ⟨e, -, rfl⟩ := enqueue_cases h
    rfl
  | runTask pid =>
    obtain ⟨t, e, -, hrun⟩ := runTask_cases h
    cases t with
    | doStart =>
      rcases doStartTask_cases hrun with ⟨-, rfl⟩ | ⟨-, -, -, rfl⟩
      · rfl
      · rfl
    | doStop =>
      simp only [doStopTask] at hrun
      rw [hrun]
      split <;> rfl
    | clearPid =>
      simp only at hrun
      rw [hrun]
      rfl
  | monitorEnqueues =>
    simp only [step, monitorEnqueues] at h
    split at h
    · obtain ⟨e, -, rfl⟩ := enqueue_cases h
      rfl
    · exact absurd h (by simp)
  | childExit pid | waitReturns pid | waitFails =>
    simp only [step, childExit, waitReturns, waitFails] at h
    split at h
    · rw [Option.some.injEq] at h
      rw [← h]
    · exact absurd h (by simp)

/-- Nor does any action close the executor. -/
theorem quit_step {s s' : State} {a : Action} (h : step s a = some s') :
    s'.exector.quit = s.exector.quit := by
  cases a with
  | onDoStart | onDoStop =>
    obtain ⟨e, he, rfl⟩ := Option.map_eq_some_iff.mp h
    obtain ⟨hs, hquit⟩ := ThreadPool.quit_of_enqueue he
    exact hquit.trans hs.symm
  | runTask pid =>
    rw [step, runTask] at h
    split at h
    · cases h
    · rename_i e he
      have hquit := ThreadPool.quit_of_take he
      rcases doStartTask_cases h with ⟨-, rfl⟩ | ⟨-, -, -, rfl⟩ <;> exact hquit
    · rename_i e he
      have hquit := ThreadPool.quit_of_take he
      rw [← Option.some.inj h, doStopTask]
      split <;> exact hquit
    · rename_i e he
      rw [← Option.some.inj h]
      exact ThreadPool.quit_of_take he
  | childExit pid | waitReturns pid | waitFails =>
    simp only [step, childExit, waitReturns, waitFails] at h
    split_ifs at h
    rw [← Option.some.inj h]
  | monitorEnqueues =>
    rw [step, monitorEnqueues] at h
    split_ifs at h
    obtain ⟨e, he, rfl⟩ := Option.map_eq_some_iff.mp h
    obtain ⟨hs, hquit⟩ := ThreadPool.quit_of_enqueue he
    exact hquit.trans hs.symm

/-- After the last DO_START the session is undisturbed exactly when that start
did not find a session winding down. -/
theorem undisturbed_iff_of_run {tr : List (State × Action)} {s : State}
    (h : Run step (init iflyosInterfaceCurrentVersion) tr s) (hf : ForksSucceed tr)
    (he : ExitsSignalled tr) :
    ∃ ph, AtPhase s ph ∧ ph ≠ .failed ∧ s.ipcVersion = iflyosInterfaceCurrentVersion ∧
      ∀ t, lastCommand tr = some (t, .doStart) → (ph.Undisturbed ↔ ¬ WindingDown t) := by
  -- on the run; the phase of the session is the invariant that carries it
  induction h with
  | nil => exact ⟨.idle, atPhase_init _, by simp, rfl, by simp [lastCommand]⟩
  | @snoc tr s a s' _ hstep ih =>
    have hmem : (s, a) ∈ tr ++ [(s, a)] := by simp
    obtain ⟨ph, hp, hfailed, hver, hlast⟩ :=
      ih (fun p hp => hf p (List.mem_append_left _ hp))
        (fun p hp => he p (List.mem_append_left _ hp))
    refine ⟨_, atPhase_step hp hstep, ?_, (ipcVersion_step hstep).trans hver, ?_⟩
    · -- only a task that calls `fork` has the event of a start
      exact Phase.next_ne_failed hfailed fun hev => hf _ hmem (eq_runTask_of_event hev)
    · intro t ht
      rw [lastCommand_snoc] at ht
      cases hc : command (s, a) with
      | none =>
        -- no command: the session is as disturbed as it was
        obtain ⟨hnostart, hnostop⟩ := event_of_command_none hc
        rw [hc] at ht
        rw [← hlast t (by simpa using ht)]
        refine Phase.next_undisturbed hnostart hnostop fun hexit => ?_
        rintro ⟨pid, rfl⟩
        -- an exit was signalled, so the child was disturbed already
        obtain ⟨q, rfl⟩ := eq_childExit_of_event hexit
        have hsig := he _ hmem
        simp [exitSignalled, hp.2.2.1] at hsig
      | some task =>
        rw [hc] at ht
        simp only [Option.map_some, Option.some_or, Option.some.injEq, Prod.mk.injEq] at ht
        obtain ⟨rfl, rfl⟩ := ht
        obtain ⟨pid, ha, hev⟩ := event_of_command_doStart hc hver
        have hpid : pid ≠ -1 := fun h0 => hf _ hmem (by rw [← h0, ← ha])
        rw [hev, windingDown_iff hp]
        exact Phase.start_undisturbed hpid hfailed

/-- **A start is kept unless the old session was winding down.**  In a
quiescent state the umbrella that executed a DO_START last has a running child
exactly when that DO_START did not find a session winding down. -/
theorem start_kept_iff {tr : List (State × Action)} {s : State}
    (h : Run step (init iflyosInterfaceCurrentVersion) tr s) (hf : ForksSucceed tr)
    (he : ExitsSignalled tr) (hq : Quiescent s) :
    (∀ t, lastCommand tr = some (t, .doStart) → Running s) ↔
      ∀ t, lastCommand tr = some (t, .doStart) → ¬ WindingDown t := by
  obtain ⟨ph, hp, -, -, hlast⟩ := undisturbed_iff_of_run h hf he
  rw [running_iff_of_quiescent hp hq]
  exact forall₂_congr hlast

/-- A first start, a stop, and a second start after the session is cleared. -/
theorem start_kept_after_clear :
    ∃ tr s, Run step (init iflyosInterfaceCurrentVersion) tr s ∧
      ((∀ t, lastCommand tr = some (t, .doStart) → Running s) ↔
        ∀ t, lastCommand tr = some (t, .doStart) → ¬ WindingDown t) := by
  have h : Run step (init iflyosInterfaceCurrentVersion) _ _ := Run.of_exec
    [.onDoStart, .runTask 7, .onDoStop, .runTask 0, .childExit 7, .waitReturns 7,
      .monitorEnqueues, .runTask 0, .onDoStart, .runTask 8] rfl
  exact ⟨_, _, h, start_kept_iff h (by decide) (by decide) (by decide)⟩

/-- **A start is lost**: DO_START, DO_STOP and DO_START are executed before the
child acts on the SIGTERM, as when KEY_NET_CONFIG sends the last two back to
back; in the quiescent state that follows no child runs. -/
theorem start_lost_after_stop :
    ∃ tr s, Run step (init iflyosInterfaceCurrentVersion) tr s ∧ ForksSucceed tr ∧
      ExitsSignalled tr ∧ Quiescent s ∧
      (∃ t, lastCommand tr = some (t, .doStart)) ∧ ¬ Running s := by
  have h : Run step (init iflyosInterfaceCurrentVersion) _ _ := Run.of_exec
    [.onDoStart, .runTask 7, .onDoStop, .onDoStart, .runTask 0, .runTask 0, .childExit 7,
      .waitReturns 7, .monitorEnqueues, .runTask 0] rfl
  exact ⟨_, _, h, by decide, by decide, by decide, ⟨_, rfl⟩, by decide⟩

/-! ### Signals -/

/-- The step runs a DO_STOP task. -/
def RunsStop (p : State × Action) : Prop := command p = some .doStop

/-- The pid the step passes to `kill`, if it calls it. -/
def killed (p : State × Action) : Option Int :=
  match p.2 with
  | .runTask _ => killTarget p.1
  | _ => none

/-- Every `kill` of the run has as target a child of the umbrella that has been
forked and not been reaped, and no other process. -/
def KillsOwnChild (tr : List (State × Action)) : Prop :=
  ∀ p ∈ tr, ∀ pid, killed p = some pid → pid ≠ -1 ∧ ∃ c ∈ p.1.children, c.pid = pid

/-- No DO_STOP task runs between a failed fork and the clearing task of its
session, nor between the return of `wait` and the clearing task. -/
def StopsInTime (tr : List (State × Action)) : Prop :=
  ∀ p ∈ tr, RunsStop p →
    p.1.iflyosPid ≠ -1 ∧ p.1.returned = 0 ∧ .clearPid ∉ p.1.exector.tasks

theorem killed_of_runsStop {p : State × Action} (h : RunsStop p) :
    killed p = if p.1.iflyosPid ≠ 0 then some p.1.iflyosPid else none := by
  obtain ⟨s, a⟩ := p
  unfold RunsStop command at h
  split at h
  · exact absurd h (by simp)
  · rename_i ha hts
    simp only at ha hts
    simp [killed, killTarget, ha, hts]
  · exact absurd h (by simp)

theorem runsStop_of_killed {p : State × Action} {pid : Int} (h : killed p = some pid) :
    RunsStop p ∧ p.1.iflyosPid ≠ 0 ∧ p.1.iflyosPid = pid := by
  obtain ⟨s, a⟩ := p
  unfold killed killTarget at h
  split at h
  · rename_i ha
    split at h
    · rename_i hts
      split at h
      · rename_i hne
        simp only at ha hts
        exact ⟨by simp [RunsStop, command, ha, hts], hne, by simpa using h⟩
      · exact absurd h (by simp)
    · exact absurd h (by simp)
  · exact absurd h (by simp)

/-- What a DO_STOP task signals while `iflyosPid` is nonzero. -/
theorem own_child_iff {s : State} {ph : Phase} (hp : AtPhase s ph) (hpid : s.iflyosPid ≠ 0) :
    (s.iflyosPid ≠ -1 ∧ ∃ c ∈ s.children, c.pid = s.iflyosPid) ↔
      s.iflyosPid ≠ -1 ∧ s.returned = 0 ∧ .clearPid ∉ s.exector.tasks := by
  have hclear : Task.clearPid ∉ s.exector.tasks ↔ clears s = 0 := List.count_eq_zero.symm
  rw [hclear]
  cases ph with
  | idle => exact absurd hp.1 hpid
  | failed =>
    have h1 := hp.1
    simp [h1]
  | live pid b | exited pid b =>
    obtain ⟨hpos, heq, hch, -, hr, hc, -⟩ := hp
    simp [hch, hr, hc, heq]
  | reaped pid | ending pid =>
    obtain ⟨-, -, hch, -, hr, hc, -⟩ := hp
    simp [hch, hr, hc]

/-- **The umbrella signals only its own child exactly when its stops are in
time.** -/
theorem kills_own_child_iff {ver : Int} {tr : List (State × Action)} {s : State}
    (h : Run step (init ver) tr s) : KillsOwnChild tr ↔ StopsInTime tr := by
  constructor
  · intro hown p hmem hstop
    obtain ⟨ph, hp⟩ := exists_atPhase_of_mem h p hmem
    by_cases hpid : p.1.iflyosPid = 0
    · -- no session: the stop signals nothing, and nothing is left to clear
      obtain rfl := hp.idle_of_iflyosPid hpid
      obtain ⟨-, -, -, hr, hc, -⟩ := hp
      exact ⟨by omega, hr, List.count_eq_zero.mp hc⟩
    · -- the stop passes `iflyosPid` to `kill`
      have hkill := killed_of_runsStop hstop
      rw [if_pos hpid] at hkill
      exact (own_child_iff hp hpid).mp (hown p hmem _ hkill)
  · intro htime p hmem pid hkill
    obtain ⟨ph, hp⟩ := exists_atPhase_of_mem h p hmem
    obtain ⟨hstop, hpid, rfl⟩ := runsStop_of_killed hkill
    exact (own_child_iff hp hpid).mpr (htime p hmem hstop)

/-- A stop while the child is alive. -/
theorem kills_own_child_of_live_child :
    ∃ tr s, Run step (init iflyosInterfaceCurrentVersion) tr s ∧
      (KillsOwnChild tr ↔ StopsInTime tr) := by
  have h : Run step (init iflyosInterfaceCurrentVersion) _ _ := Run.of_exec
    [.onDoStart, .runTask 7, .onDoStop, .runTask 0] rfl
  exact ⟨_, _, h, kills_own_child_iff h⟩

/-- **Two kills of no child**: a stop after a failed fork passes `-1`, a stop
queued before the clearing task passes the pid of a child already reaped. -/
theorem kill_without_child :
    (∃ tr s, Run step (init iflyosInterfaceCurrentVersion) tr s ∧
      ∃ p ∈ tr, killed p = some (-1)) ∧
    ∃ tr s, Run step (init iflyosInterfaceCurrentVersion) tr s ∧
      ∃ p ∈ tr, killed p = some 7 ∧ p.1.children = [] := by
  constructor
  · have h : Run step (init iflyosInterfaceCurrentVersion) _ _ := Run.of_exec
      [.onDoStart, .runTask (-1), .onDoStop, .runTask 0] rfl
    exact ⟨_, _, h, by decide⟩
  · have h : Run step (init iflyosInterfaceCurrentVersion) _ _ := Run.of_exec
      [.onDoStart, .runTask 7, .onDoStop, .childExit 7, .waitReturns 7, .monitorEnqueues,
        .runTask 0] rfl
    exact ⟨_, _, h, by decide⟩

end Umbrella
