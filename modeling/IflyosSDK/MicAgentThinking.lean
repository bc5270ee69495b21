/-
The flag `inThinking` and the dialog it speaks of.

THINKING sets the flag, SPEAKING, DIALOG_END and WAIT_START clear it, and
STOPPED leaves it alone.  While it is set, a wake word that comes with audio
being forwarded is ignored.

* `latest` — the most recent event of a dialog in a trace;
* `describes_snoc_iff` — the steps that keep the flag and the dialog together;
* `describes_iff` — **the runs in which the flag describes the current dialog**.
-/
import IflyosSDK.MicAgent

namespace MicAgent

/-- The event of a dialog that a step handles. -/
def dialogEvent : Action → Option Event
  | .event .dialogThinking => some .dialogThinking
  | .event .dialogSpeaking => some .dialogSpeaking
  | .event .dialogEnd => some .dialogEnd
  | .event .stopped => some .stopped
  | _ => none

/-- The most recent of THINKING, SPEAKING, DIALOG_END and STOPPED. -/
def latest (tr : List (State × Action)) : Option Event :=
  (tr.filterMap fun p => dialogEvent p.2).getLast?

/-- A wake word would be ignored with "ignore wakeup while in thinking". -/
def IgnoredInThinking (s : State) : Prop :=
  Listening s ∧ s.forwarding = true ∧ s.inThinking = true

/-- The flag describes the dialog that the trace has come to. -/
structure Describes (tr : List (State × Action)) (s : State) : Prop where
  thinking : s.inThinking = true → latest tr = some .dialogThinking
  wakeWord : IgnoredInThinking s → latest tr = some .dialogThinking

/-- The app stops in the middle of thinking. -/
def StopsThinking (s : State) (a : Action) : Prop := a = .event .stopped ∧ s.inThinking = true

variable {s t u : State} {a : Action} {tr : List (State × Action)}

theorem describes_def :
    Describes tr s ↔ (s.inThinking = true → latest tr = some .dialogThinking) :=
  ⟨Describes.thinking, fun h => ⟨h, fun hignored => h hignored.2.2⟩⟩

theorem latest_snoc : latest (tr ++ [(t, a)]) = (dialogEvent a).or (latest tr) := by
  rw [latest, List.filterMap_append, List.getLast?_append]
  cases ha : dialogEvent a with
  | none => simp [ha, latest]
  | some e => simp [ha]

theorem inThinking_enqueue {k : Task} (h : enqueue s k = some u) :
    u.inThinking = s.inThinking := by
  obtain ⟨e, -, rfl⟩ := enqueue_cases h
  rfl

/-- DIALOG_END clears the flag, whether it is the first one or not. -/
theorem inThinking_stopCapture (h : stopCapture s = some u) : u.inThinking = false := by
  rw [stopCapture] at h
  split at h
  · rw [← Option.some.inj h]
  · exact inThinking_enqueue (s := { s with inThinking := false }) h

theorem inThinking_runTask {fd : Int} (h : runTask s fd = some u) :
    u.inThinking = s.inThinking := by
  rw [runTask_eq h]

/-- A step without an event of a dialog leaves the flag alone or clears it. -/
theorem inThinking_of_step (h : step s a = some u) (ha : dialogEvent a = none)
    (hu : u.inThinking = true) : s.inThinking = true := by
  cases a with
  | event e =>
    cases e with
    | dialogEnd | dialogThinking | dialogSpeaking | stopped => cases ha
    | _ =>
      rw [← Option.some.inj h] at hu
      exact hu
  | wakeWord =>
    rcases onWakeWord_cases h with rfl | ⟨-, ⟨-, -, h⟩ | ⟨-, h⟩⟩
    · exact hu
    · rwa [inThinking_enqueue h] at hu
    · rwa [inThinking_enqueue (s := { s with forwarding := true }) h] at hu
  | runTask fd => rwa [inThinking_runTask h] at hu
  | network ok =>
    rw [← Option.some.inj h, onNetworkStatusChanged] at hu
    split at hu <;> exact hu
  | micMute | restart =>
    rw [← Option.some.inj h] at hu
    exact hu
  | waitStart =>
    rw [← Option.some.inj h] at hu
    cases hu

/-- **The steps that keep the flag and the dialog together.** -/
theorem describes_snoc_iff (hdesc : Describes tr t) (h : step t a = some u) :
    Describes (tr ++ [(t, a)]) u ↔ ¬ StopsThinking t a := by
  rw [describes_def, latest_snoc, StopsThinking]
  cases hevent : dialogEvent a with
  | none =>
    have hne : a ≠ .event .stopped := by
      rintro rfl
      cases hevent
    refine iff_of_true (fun hu => ?_) fun hstops => hne hstops.1
    exact hdesc.thinking (inThinking_of_step h hevent hu)
  | some e =>
    -- an event of a dialog, which is now the most recent one
    rw [Option.some_or]
    cases a with
    | event e' =>
      cases e' with
      | dialogThinking =>
        cases hevent
        exact iff_of_true (fun _ => rfl) (by simp)
      | dialogSpeaking =>
        refine iff_of_true (fun hu => ?_) (by simp)
        rw [← Option.some.inj h] at hu
        cases hu
      | dialogEnd =>
        refine iff_of_true (fun hu => ?_) (by simp)
        rw [inThinking_stopCapture h] at hu
        cases hu
      | stopped =>
        cases hevent
        rw [inThinking_enqueue h]
        simp
      | _ => cases hevent
    | _ => cases hevent

/-- **The runs in which the flag describes the current dialog**: those in which
no app stops in the middle of thinking. -/
theorem describes_iff (h : Run step init tr s) :
    (∀ tr₁ t, tr₁ <+: tr → Run step init tr₁ t → Describes tr₁ t) ↔
      ∀ p ∈ tr, ¬ StopsThinking p.1 p.2 := by
  have h0 : Describes [] init := describes_def.mpr (by decide)
  exact Run.history_iff (C := fun t a => ¬ StopsThinking t a) h0
    (fun _ _ _ _ hdesc hu => describes_snoc_iff hdesc hu) h

instance (s : State) (a : Action) : Decidable (StopsThinking s a) :=
  inferInstanceAs (Decidable (_ ∧ _))

instance (s : State) : Decidable (IgnoredInThinking s) := inferInstanceAs (Decidable (_ ∧ _))

/-- The app thinks, speaks, ends its dialog and stops. -/
theorem describes_whole_dialog :
    ∃ tr s, Run step init tr s ∧ latest tr = some .stopped ∧ Describes tr s := by
  have h : Run step init _ _ :=
    Run.of_exec [.network true, .event .dialogEnd, .wakeWord, .runTask 5, .event .dialogThinking,
      .event .dialogSpeaking, .event .dialogEnd, .runTask 5, .event .stopped] rfl
  exact ⟨_, _, h, rfl, (describes_iff h).mpr (by decide) _ _ List.prefix_rfl h⟩

/-- **The flag outlives the app**: it stops while it thinks, the next wake word
starts forwarding again, and the one after that is ignored. -/
theorem ignored_after_stopped :
    ∃ tr s, Run step init tr s ∧ latest tr = some .stopped ∧ IgnoredInThinking s := by
  have h : Run step init _ _ :=
    Run.of_exec [.network true, .event .dialogEnd, .wakeWord, .runTask 5, .event .dialogThinking,
      .event .stopped, .runTask 5, .wakeWord, .runTask 5] rfl
  exact ⟨_, _, h, rfl, by decide⟩

end MicAgent
