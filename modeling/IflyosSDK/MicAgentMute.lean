/-
The mute key: what a muted MicAgent still records and sends.

KEY_MIC_MUTE clears `micOn`, which only `onWakeWord` reads.  Frames are written
to the FIFO as long as `forwarding` is set, and a task that a wake word has
enqueued before runs after the key.

* `onAudio` — the write of a recorded frame;
* `Quiet` — no audio leaves the device and no dialog is started;
* `muteInv_step` — the invariant of the runs in which the key finds the device
  calm;
* `muted_quiet` — **muting is effective** in those runs;
* `exists_not_quiet` — and a key that does not find it so is not.
-/
import IflyosSDK.MicAgentCapture
import IflyosSDK.Recorder

namespace MicAgent

/-- `OrgAudioObserver::onAudio`: the descriptor that a frame is written to. -/
def onAudio (s : State) (format : Format) : Option Int :=
  if s.forwarding = true ∧ format = .originOutput then some s.fdAudio else none

/-- No frame is written to the FIFO, and no task that runs now sends
DO_DIALOG_START. -/
def Quiet (s : State) : Prop :=
  (∀ format fd, onAudio s format = some fd → fd ∉ s.fifos) ∧
    ∀ fd u, runTask s fd = some u → ¬ SendsDialogStart s u

/-- Nothing is recorded to the FIFO, and no dialog start is queued. -/
def Calm (s : State) : Prop :=
  ¬ Feeding s ∧ .startForward ∉ s.executor.tasks ∧ .restartDialog ∉ s.executor.tasks

/-- The key that turns the microphone off finds the device calm. -/
def CalmMute (s : State) (a : Action) : Prop := a = .micMute → s.micOn = true → Calm s

variable {s u : State} {a : Action} {tr : List (State × Action)}

/-! ### While the microphone is off -/

theorem quiet_of_calm (h : Calm s) : Quiet s := by
  obtain ⟨hfeeding, hstart, hrestart⟩ := h
  constructor
  · intro format fd hfd
    rw [onAudio] at hfd
    split at hfd
    · rename_i hforwarding
      rw [← Option.some.inj hfd]
      exact fun hmem => hfeeding ⟨hforwarding.1, hmem⟩
    · cases hfd
  · intro fd u hu hsend
    obtain ⟨-, ts, -, hq | hq⟩ := front_of_sends (a := .runTask fd) hu hsend
    · exact hstart (hq ▸ List.mem_cons_self)
    · exact hrestart (hq ▸ List.mem_cons_self)

/-- A step that does not find the microphone on keeps the device calm. -/
theorem calm_step (hcalm : Calm s) (hoff : s.micOn = false) (h : step s a = some u) : Calm u := by
  obtain ⟨hfeeding, hstart, hrestart⟩ := hcalm
  have hdeaf : ¬ Listening s := fun hs => absurd (hoff.symm.trans hs.2.1) Bool.noConfusion
  show ¬ ((capture u).forwarding = true ∧ (capture u).fdAudio ∈ (capture u).fifos) ∧
    .startForward ∉ (capture u).tasks ∧ .restartDialog ∉ (capture u).tasks
  have hstep := capture_step h
  generalize capture u = c at hstep ⊢
  have htail : ∀ {t : Task} {ts : List Task}, s.executor.tasks = t :: ts →
      .startForward ∉ ts ∧ .restartDialog ∉ ts := by
    intro t ts hq
    rw [hq] at hstart hrestart
    exact ⟨fun h => hstart (List.mem_cons_of_mem t h), fun h => hrestart (List.mem_cons_of_mem t h)⟩
  cases hstep with
  | skip => exact ⟨hfeeding, hstart, hrestart⟩
  | close => exact ⟨hfeeding, by simpa using hstart, by simpa using hrestart⟩
  | restart _ hs => exact absurd hs hdeaf
  | start _ hs => exact absurd hs hdeaf
  | runClose ts hq _ => exact ⟨fun h => absurd h.1 Bool.noConfusion, htail hq⟩
  | runCloseSkip ts hq _ => exact ⟨hfeeding, htail hq⟩
  | runStart fd ts _ hq _ => exact absurd (hq ▸ List.mem_cons_self) hstart
  | runStartFails ts _ hq => exact absurd (hq ▸ List.mem_cons_self) hstart
  | runRestart ts hq => exact absurd (hq ▸ List.mem_cons_self) hrestart

/-- A muted device is calm. -/
def MuteInv (s : State) : Prop := s.micOn = false → Calm s

theorem muteInv_step (hinv : MuteInv s) (hmute : CalmMute s a) (h : step s a = some u) :
    MuteInv u := by
  intro hoff
  by_cases ha : a = .micMute
  · -- the key has turned the microphone off
    subst ha
    rw [← Option.some.inj h] at hoff ⊢
    exact hmute rfl (by simpa using hoff)
  · rw [(step_frame h).micOn ha] at hoff
    exact calm_step (hinv hoff) hoff h

/-- **Muting is effective** in the runs in which the key finds the device calm:
while the microphone is off no audio is written to the FIFO and no task sends
DO_DIALOG_START. -/
theorem muted_quiet (h : Run step init tr s) (hmute : ∀ p ∈ tr, CalmMute p.1 p.2) :
    (∀ p ∈ tr, p.1.micOn = false → Quiet p.1) ∧ (s.micOn = false → Quiet s) := by
  have h0 : MuteInv init := fun hoff => absurd hoff (by decide)
  have hstep : ∀ t a u, MuteInv t → CalmMute t a → step t a = some u → MuteInv u :=
    fun _ _ _ hinv hC hu => muteInv_step hinv hC hu
  constructor
  · intro p hp hoff
    exact quiet_of_calm (h.states_of h0 hstep hmute p hp hoff)
  · intro hoff
    exact quiet_of_calm (h.invariant_of h0 hstep hmute hoff)

/-! ### A key that does not find the device calm -/

/-- The tasks that are queued run while the microphone is off. -/
theorem exists_not_quiet (hoff : s.micOn = false)
    (hq : .startForward ∈ s.executor.tasks ∨ .restartDialog ∈ s.executor.tasks) :
    ∃ tr t, Run step s tr t ∧ (∀ p ∈ tr, p.2 ≠ .micMute) ∧ t.micOn = false ∧ ¬ Quiet t := by
  -- on the queue
  generalize htasks : s.executor.tasks = ts at hq
  induction ts generalizing s with
  | nil => simp at hq
  | cons t ts ih =>
    have htake : s.executor.take = some (t, { s.executor with tasks := ts }) := by
      rw [ThreadPool.take, htasks]
    cases t with
    | closeFifo =>
      have hstep : step s (.runTask (-1)) =
          some (closeFifoTask { s with executor := { s.executor with tasks := ts } }) := by
        rw [step, runTask, htake]
      have hmic := ((step_frame hstep).micOn Action.noConfusion).trans hoff
      have htail := congrArg ThreadPool.tasks
        (executor_closeFifoTask { s with executor := { s.executor with tasks := ts } })
      obtain ⟨tr, u, hrun, hlabels, hu⟩ := ih hmic htail (by simpa using hq)
      refine ⟨(s, .runTask (-1)) :: tr, u, Run.cons_iff.mpr ⟨rfl, _, hstep, hrun⟩, ?_, hu⟩
      intro p hp
      rcases List.mem_cons.mp hp with rfl | hp
      · exact Action.noConfusion
      · exact hlabels p hp
    | startForward =>
      refine ⟨[], s, Run.nil, by simp, hoff, fun hquiet => ?_⟩
      have hrun : runTask s (-1) =
          startForwardTask { s with executor := { s.executor with tasks := ts } } (-1) := by
        rw [runTask, htake]
      exact hquiet.2 (-1) _ hrun rfl
    | restartDialog =>
      refine ⟨[], s, Run.nil, by simp, hoff, fun hquiet => ?_⟩
      have hrun : runTask s (-1) =
          some (restartDialogTask { s with executor := { s.executor with tasks := ts } }) := by
        rw [runTask, htake]
      exact hquiet.2 (-1) _ hrun rfl

/-- **When the key is effective**: until it is pressed again the device stays
quiet, whatever happens, exactly when the key finds it calm. -/
theorem mute_effective_iff (hon : s.micOn = true) (h : step s .micMute = some u) :
    (∀ tr t, Run step u tr t → (∀ p ∈ tr, p.2 ≠ .micMute) → Quiet t) ↔ Calm s := by
  obtain ⟨hoff, hcalm⟩ : u.micOn = false ∧ (Calm u ↔ Calm s) := by
    rw [← Option.some.inj h]
    exact ⟨by rw [hon, Bool.not_true], Iff.rfl⟩
  rw [← hcalm]
  constructor
  · intro hquiet
    have hnot : ¬ (.startForward ∈ u.executor.tasks ∨ .restartDialog ∈ u.executor.tasks) := by
      intro hq
      obtain ⟨tr, t, hrun, hlabels, -, hnot⟩ := exists_not_quiet hoff hq
      exact hnot (hquiet tr t hrun hlabels)
    refine ⟨fun hfeeding => ?_, fun hmem => hnot (Or.inl hmem), fun hmem => hnot (Or.inr hmem)⟩
    refine (hquiet [] u Run.nil (by simp)).1 .originOutput u.fdAudio ?_ hfeeding.2
    rw [onAudio, if_pos ⟨hfeeding.1, rfl⟩]
  · intro hcalm tr t hrun hlabels
    have h0 : u.micOn = false ∧ Calm u := ⟨hoff, hcalm⟩
    refine quiet_of_calm (hrun.invariant_of (I := fun t => t.micOn = false ∧ Calm t)
      (C := fun _ a => a ≠ Action.micMute) h0 ?_ hlabels).2
    intro t a v ht ha hv
    exact ⟨((step_frame hv).micOn ha).trans ht.1, calm_step ht.2 ht.1 hv⟩

instance (s : State) : Decidable (Calm s) := inferInstanceAs (Decidable (¬ (_ ∧ _) ∧ _ ∧ _))

instance (s : State) (a : Action) : Decidable (CalmMute s a) :=
  inferInstanceAs (Decidable (_ → _ → _))

/-- The microphone is turned off between two dialogs, and a wake word comes. -/
theorem muted_quiet_between_dialogs :
    ∃ tr s, Run step init tr s ∧ s.micOn = false ∧ Quiet s := by
  have h : Run step init _ _ :=
    Run.of_exec [.network true, .event .dialogEnd, .wakeWord, .runTask 5, .event .dialogEnd,
      .runTask 5, .micMute, .wakeWord] rfl
  exact ⟨_, _, h, rfl, (muted_quiet h (by decide)).2 rfl⟩

/-- **A device that is muted in a dialog goes on recording.** -/
theorem recording_while_muted :
    ∃ tr s, Run step init tr s ∧ s.micOn = false ∧
      ∃ fd, onAudio s .originOutput = some fd ∧ fd ∈ s.fifos := by
  have h : Run step init _ _ :=
    Run.of_exec [.network true, .event .dialogEnd, .wakeWord, .runTask 5, .micMute] rfl
  exact ⟨_, _, h, rfl, 5, rfl, by decide⟩

end MicAgent
