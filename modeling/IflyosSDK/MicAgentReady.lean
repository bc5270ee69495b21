/-
Restarts of the app, with events of the old one still in flight.

`main` leaves WAIT_START when `firstDialogState` is STARTED, and the first
DIALOG_END handled after a restart sets it, whichever app process has sent it.
An event carries no process; here each event in flight is paired with the
number of DO_STARTs that restarts had sent when the sender's process started.
A call of a handler is one step.  The app may start whenever none runs and exit
whenever it runs, events may overtake each other, and the network status may
change at any time.

* `Flight.step` — one step of a handler, a task, `main`, the app or the network;
* `Flight.effect_of_step` — what a step does to `firstDialogState`;
* `Flight.ready_of_leaves` — **in a run whose DIALOG_ENDs are fresh, `main`
  leaves WAIT_START for an app that is ready**;
* `Flight.unready_of_not_fresh` — after any other DIALOG_END it may leave for
  one that is not.
-/
import IflyosSDK.MicAgentMain

namespace MicAgent

/-- The system with the events in flight.  `starts` counts the DO_STARTs that
restarts have sent, and `process` is what `starts` was when the app process
started. -/
structure Flight where
  system : Core
  starts : ℕ
  process : ℕ
  inFlight : List (Event × ℕ)
  deriving DecidableEq, Repr

/-- The DO_STARTs that a restart on its way has still to send. -/
def Main.pending : Main → ℕ
  | .starting | .waitStart | .keyLoop => 0
  | .sendStop | .sendStart => 1

namespace Flight

/-- `main` has come to WAIT_START for the first time. -/
def start (s : Core) (events : List Event) : Flight where
  system := s.arrived
  starts := 0
  process := 0
  inFlight := events.map fun e => (e, 0)

/-- What can happen next.  `main`, `key`, `wakeWord` and `runTask` are the
system's own steps. -/
inductive Action
  | send (e : Event)
  | deliver (i : ℕ)
  | network (ok : Bool)
  | appStarts
  | appExits
  | main
  | key (c : Char)
  | wakeWord
  | runTask (fd : Int)
  deriving DecidableEq, Repr

/-- A handler is one step: when `stopCapture` finds NOT_START, `main` is not in
its key loop and does not assign the variable before the handler does. -/
def step (s : Flight) : Action → Option Flight
  | .send e =>
    -- STOPPED comes from the umbrella
    if e = .stopped ∨ s.system.app.running then
      some { s with
        system := { s.system with app := s.system.app.afterSending e }
        inFlight := s.inFlight ++ [(e, s.process)] }
    else none
  | .deliver i =>
    s.inFlight[i]?.bind fun m =>
      (handle s.system.agent m.1).map fun u =>
        { s with system := s.system.afterAgent u, inFlight := s.inFlight.eraseIdx i }
  | .network ok =>
    some { s with system := s.system.afterAgent (onNetworkStatusChanged s.system.agent ok) }
  | .appStarts =>
    if s.system.app.running then none
    else some { s with
      system := { s.system with app := { s.system.app with running := true, exiting := false } }
      process := s.starts }
  | .appExits =>
    if s.system.app.running then
      some { s with system := { s.system with app := s.system.app.exit } }
    else none
  | .main =>
    s.system.mainStep.map fun t =>
      { s with
        system := t
        starts := if s.system.main = .sendStart then s.starts + 1 else s.starts }
  | .key c => (s.system.readKey c).map fun t => { s with system := t }
  | .wakeWord => s.system.wakeWord.map fun t => { s with system := t }
  | .runTask fd => (s.system.runTask fd).map fun t => { s with system := t }

def firstDialogState (s : Flight) : ReadyState := s.system.agent.firstDialogState

/-- The number of the DO_START that `main` waits for, or waited for last. -/
def epoch (s : Flight) : ℕ := s.starts + s.system.main.pending

/-- The event that a step handles, with its sender's number. -/
def handled (s : Flight) : Action → Option (Event × ℕ)
  | .deliver i => s.inFlight[i]?
  | _ => none

/-- A DIALOG_END has been handled whose sender had started after the `k`-th
DO_START. -/
def Ready (tr : List (Flight × Action)) (k : ℕ) : Prop :=
  ∃ p ∈ tr, ∃ m ∈ handled p.1 p.2, m.1 = .dialogEnd ∧ k ≤ m.2

/-- The test of the WAIT_START loop ends it. -/
def Leaves (s : Flight) (a : Action) : Prop :=
  a = .main ∧ s.system.main = .waitStart ∧ s.firstDialogState = .started

/-- A DIALOG_END that is taken for an app's first comes from a process that
started after the DO_START of the restart. -/
def Fresh (s : Flight) (a : Action) : Prop :=
  ∀ m ∈ handled s a, m.1 = .dialogEnd → s.firstDialogState = .notStart → s.epoch ≤ m.2

/-- A step as `main` and the handlers see it.  Nothing happens to
`firstDialogState`, or an event sets it, or a restart key resets it. -/
inductive Effect (s : Flight) (a : Action) (u : Flight) : Prop
  | quiet (hstate : u.firstDialogState = s.firstDialogState) (hepoch : u.epoch = s.epoch)
      (hloop : u.system.main = .keyLoop →
        s.system.main = .keyLoop ∨ s.firstDialogState = .started)
      (hend : ∀ m ∈ handled s a, m.1 ≠ .dialogEnd)
  | answers (hstate : u.firstDialogState = .started) (hepoch : u.epoch = s.epoch)
      (hmain : u.system.main = s.system.main)
      (hend : ∃ m ∈ handled s a, m.1 = .dialogEnd ∨ m.1 = .authTokenExpired)
  | restarts (hloop : s.system.main = .keyLoop) (hmain : u.system.main = .sendStop)
      (hstate : u.firstDialogState = .notStart) (hepoch : u.epoch = s.starts + 1)
      (hend : ∀ m ∈ handled s a, m.1 ≠ .dialogEnd)

variable {s t u : Flight} {a : Action} {tr : List (Flight × Action)} {k : ℕ}

/-! ### One step -/

theorem epoch_congr (hmain : u.system.main = s.system.main) (hstarts : u.starts = s.starts) :
    u.epoch = s.epoch := by
  rw [epoch, epoch, hmain, hstarts]

theorem ready_snoc :
    Ready (tr ++ [(s, a)]) k ↔
      Ready tr k ∨ ∃ m ∈ handled s a, m.1 = .dialogEnd ∧ k ≤ m.2 := by
  simp [Ready, or_and_right, exists_or]

/-- DIALOG_END and AUTH_TOKEN_EXPIRED set the state, and no other event touches
it. -/
theorem firstDialogState_handle {v w : State} {e : Event} (h : handle v e = some w) :
    w.firstDialogState =
      if e = .dialogEnd ∨ e = .authTokenExpired then .started else v.firstDialogState := by
  obtain ⟨t, ht, rfl⟩ := handle_cases h
  exact (untilWrite_frame ht).2.2

/-- A key leaves `main` in its loop, or begins a restart. -/
theorem onKey_cases (v : Core) (k : SysKey) :
    ((v.onKey k).main = v.main ∧
        (v.onKey k).agent.firstDialogState = v.agent.firstDialogState) ∨
      (v.onKey k).main = .sendStop ∧ (v.onKey k).agent.firstDialogState = .notStart := by
  cases k with
  | restartIflyos | netConfig => exact Or.inr ⟨rfl, rfl⟩
  | _ => exact Or.inl ⟨rfl, rfl⟩

theorem effect_of_key {v : Core} {c : SysKey} (hnone : handled s a = none)
    (hloop : s.system.main = .keyLoop) (hmain : v.main = s.system.main)
    (hstate : v.agent.firstDialogState = s.firstDialogState) :
    Effect s a { s with system := v.onKey c } := by
  have hend : ∀ m ∈ handled s a, m.1 ≠ .dialogEnd := by
    intro m hm
    rw [hnone] at hm
    cases hm
  rcases onKey_cases v c with ⟨hmain', hstate'⟩ | ⟨hmain', hstate'⟩
  · exact .quiet (hstate'.trans hstate) (epoch_congr (hmain'.trans hmain) rfl)
      (fun _ => Or.inl hloop) hend
  · exact .restarts hloop hmain' hstate' (congrArg (s.starts + ·.pending) hmain') hend

theorem effect_of_main (h : step s .main = some u) : Effect s .main u := by
  obtain ⟨v, hv, rfl⟩ := Option.map_eq_some_iff.mp h
  have hend : ∀ m ∈ handled s .main, m.1 ≠ .dialogEnd := by
    intro m hm
    cases hm
  rw [Core.mainStep] at hv
  split at hv
  · rename_i hmain
    rw [← Option.some.inj hv, if_neg (by simp [hmain])]
    refine .quiet rfl ?_ Main.noConfusion hend
    rw [epoch, epoch, hmain]
    rfl
  · rename_i hmain
    rw [if_neg (by simp [hmain])]
    split at hv
    · rw [← Option.some.inj hv]
      exact .quiet rfl rfl (fun hu => Or.inl hu) hend
    · -- the WAIT_START loop ends
      rename_i hstate
      rw [← Option.some.inj hv]
      refine .quiet rfl ?_ (fun _ => Or.inr hstate) hend
      rw [epoch, epoch, hmain]
      rfl
  · rename_i hloop
    rw [if_neg (by simp [hloop])]
    split at hv
    · cases hv
    · rw [← Option.some.inj hv]
      exact effect_of_key rfl hloop rfl rfl
  · rename_i hmain
    rw [← Option.some.inj hv, if_neg (by simp [hmain])]
    refine .quiet rfl ?_ Main.noConfusion hend
    rw [epoch, epoch, hmain]
    rfl
  · -- the DO_START is sent
    rename_i hmain
    rw [← Option.some.inj hv, if_pos hmain]
    refine .quiet rfl ?_ Main.noConfusion hend
    rw [epoch, epoch, hmain]
    rfl

/-- **What a step does to `firstDialogState`.** -/
theorem effect_of_step (h : step s a = some u) : Effect s a u := by
  have hend : (∀ i, a ≠ .deliver i) → ∀ m ∈ handled s a, m.1 ≠ .dialogEnd := by
    intro hne m hm
    cases a with
    | deliver i => exact absurd rfl (hne i)
    | _ => cases hm
  cases a with
  | send e =>
    rw [step] at h
    split at h
    · rw [← Option.some.inj h]
      exact .quiet rfl rfl Or.inl (hend fun _ => Action.noConfusion)
    · cases h
  | deliver i =>
    obtain ⟨m, hm, h⟩ := Option.bind_eq_some_iff.mp h
    obtain ⟨v, hv, rfl⟩ := Option.map_eq_some_iff.mp h
    have hstate := firstDialogState_handle hv
    by_cases hsets : m.1 = .dialogEnd ∨ m.1 = .authTokenExpired
    · rw [if_pos hsets] at hstate
      exact .answers hstate rfl rfl ⟨m, hm, hsets⟩
    · rw [if_neg hsets] at hstate
      refine .quiet hstate rfl Or.inl fun m' hm' => ?_
      obtain rfl : m = m' := Option.some.inj (hm.symm.trans hm')
      exact fun hdialogEnd => hsets (Or.inl hdialogEnd)
  | network ok =>
    rw [← Option.some.inj h]
    have hstate : (onNetworkStatusChanged s.system.agent ok).firstDialogState =
        s.firstDialogState := by
      cases ok <;> rfl
    exact .quiet hstate rfl Or.inl (hend fun _ => Action.noConfusion)
  | appStarts =>
    rw [step] at h
    split at h
    · cases h
    · rw [← Option.some.inj h]
      exact .quiet rfl rfl Or.inl (hend fun _ => Action.noConfusion)
  | appExits =>
    rw [step] at h
    split at h
    · rw [← Option.some.inj h]
      exact .quiet rfl rfl Or.inl (hend fun _ => Action.noConfusion)
    · cases h
  | main => exact effect_of_main h
  | key c =>
    obtain ⟨v, hv, rfl⟩ := Option.map_eq_some_iff.mp h
    rw [Core.readKey] at hv
    split at hv
    · rename_i hloop
      rw [← Option.some.inj hv]
      exact effect_of_key rfl hloop.1 rfl rfl
    · cases hv
  | wakeWord =>
    obtain ⟨v, hv, rfl⟩ := Option.map_eq_some_iff.mp h
    obtain ⟨w, hw, rfl⟩ := Option.map_eq_some_iff.mp hv
    exact .quiet (onWakeWord_frame hw).2.1 rfl Or.inl (hend fun _ => Action.noConfusion)
  | runTask fd =>
    obtain ⟨v, hv, rfl⟩ := Option.map_eq_some_iff.mp h
    obtain ⟨w, hw, rfl⟩ := Option.map_eq_some_iff.mp hv
    exact .quiet (runTask_frame hw).2.1 rfl Or.inl (hend fun _ => Action.noConfusion)

/-! ### Fresh runs -/

/-- When `main` is past the wait for its DO_START, the app of that DO_START is
ready. -/
def Awaited (tr : List (Flight × Action)) (s : Flight) : Prop :=
  s.firstDialogState = .started → 0 < s.epoch → Ready tr s.epoch

theorem awaited_snoc (hawaited : Awaited tr t) (h : step t a = some u) (hfresh : Fresh t a)
    (hexpired : ∀ m ∈ handled t a, m.1 ≠ .authTokenExpired) : Awaited (tr ++ [(t, a)]) u := by
  intro hu hpos
  rw [ready_snoc]
  cases effect_of_step h with
  | quiet hstate hepoch _ _ =>
    rw [hstate] at hu
    rw [hepoch] at hpos ⊢
    exact Or.inl (hawaited hu hpos)
  | answers _ hepoch _ hend =>
    rw [hepoch] at hpos ⊢
    obtain ⟨m, hm, hsets⟩ := hend
    have hdialogEnd := hsets.resolve_right (hexpired m hm)
    cases hstate : t.firstDialogState with
    | notStart => exact Or.inr ⟨m, hm, hdialogEnd, hfresh m hm hdialogEnd hstate⟩
    | started => exact Or.inl (hawaited hstate hpos)
  | restarts _ _ hstate _ _ =>
    rw [hstate] at hu
    cases hu

/-- **`main` leaves WAIT_START after a restart only when the app of that
restart is ready**, in every run whose DIALOG_ENDs are fresh. -/
theorem ready_of_leaves {s₀ : Core} {events : List Event}
    (h : Run step (start s₀ events) tr s)
    (hexpired : ∀ p ∈ tr, ∀ m ∈ handled p.1 p.2, m.1 ≠ .authTokenExpired)
    (hfresh : ∀ p ∈ tr, Fresh p.1 p.2) :
    ∀ tr₁ p tr₂, tr = tr₁ ++ p :: tr₂ → Leaves p.1 p.2 → 0 < p.1.starts →
      Ready tr₁ p.1.starts := by
  rintro tr₁ p tr₂ rfl ⟨-, hmain, hstate⟩ hpos
  have h0 : Awaited [] (start s₀ events) := by
    intro _ hpos
    cases hpos
  have hsteps : ∀ q ∈ tr₁, Fresh q.1 q.2 ∧ ∀ m ∈ handled q.1 q.2, m.1 ≠ .authTokenExpired :=
    fun q hq => ⟨hfresh q (List.mem_append_left _ hq), hexpired q (List.mem_append_left _ hq)⟩
  have hawaited : Awaited tr₁ p.1 :=
    Run.history_of (C := fun s a => Fresh s a ∧ ∀ m ∈ handled s a, m.1 ≠ .authTokenExpired) h0
      (fun _ _ _ _ hI ha hu => awaited_snoc hI hu ha.1 ha.2) h.split.1 hsteps
  have hepoch : p.1.epoch = p.1.starts := by
    rw [epoch, hmain]
    rfl
  rw [← hepoch] at hpos ⊢
  exact hawaited hstate hpos

/-! ### Stale DIALOG_ENDs -/

/-- No process has a number that no restart has given. -/
structure Numbered (tr : List (Flight × Action)) (s : Flight) : Prop where
  process : s.process ≤ s.starts
  inFlight : ∀ m ∈ s.inFlight, m.2 ≤ s.starts
  ready : ∀ k, Ready tr k → k ≤ s.starts

/-- A restart has reset `firstDialogState`, and the app that it starts has not
reported yet. -/
structure Unanswered (tr : List (Flight × Action)) (s : Flight) : Prop where
  numbered : Numbered tr s
  keyLoop : s.system.main = .keyLoop → s.firstDialogState = .started
  notStart : s.firstDialogState = .notStart → ¬ Ready tr s.epoch

theorem mem_of_handled {m : Event × ℕ} (hm : m ∈ handled s a) : m ∈ s.inFlight := by
  cases a with
  | deliver i => exact List.mem_of_getElem? hm
  | _ => cases hm

/-- A process gets the number of the last DO_START, an event its sender's. -/
theorem numbers_of_step (h : step s a = some u) :
    s.starts ≤ u.starts ∧ (u.process = s.process ∨ u.process = s.starts) ∧
      ∀ m ∈ u.inFlight, m ∈ s.inFlight ∨ m.2 = s.process := by
  cases a with
  | send e =>
    rw [step] at h
    split at h
    · rw [← Option.some.inj h]
      refine ⟨Nat.le_refl _, Or.inl rfl, fun m hm => ?_⟩
      rcases List.mem_append.mp hm with hm | hm
      · exact Or.inl hm
      · rw [List.mem_singleton.mp hm]
        exact Or.inr rfl
    · cases h
  | deliver i =>
    obtain ⟨m, -, h⟩ := Option.bind_eq_some_iff.mp h
    obtain ⟨v, -, rfl⟩ := Option.map_eq_some_iff.mp h
    exact ⟨Nat.le_refl _, Or.inl rfl, fun m hm => Or.inl (List.mem_of_mem_eraseIdx hm)⟩
  | network ok =>
    rw [← Option.some.inj h]
    exact ⟨Nat.le_refl _, Or.inl rfl, fun _ => Or.inl⟩
  | appStarts =>
    rw [step] at h
    split at h
    · cases h
    · rw [← Option.some.inj h]
      exact ⟨Nat.le_refl _, Or.inr rfl, fun _ => Or.inl⟩
  | appExits =>
    rw [step] at h
    split at h
    · rw [← Option.some.inj h]
      exact ⟨Nat.le_refl _, Or.inl rfl, fun _ => Or.inl⟩
    · cases h
  | main =>
    obtain ⟨v, -, rfl⟩ := Option.map_eq_some_iff.mp h
    refine ⟨?_, Or.inl rfl, fun _ => Or.inl⟩
    show s.starts ≤ if s.system.main = .sendStart then s.starts + 1 else s.starts
    split <;> omega
  | key | wakeWord | runTask =>
    obtain ⟨v, -, rfl⟩ := Option.map_eq_some_iff.mp h
    exact ⟨Nat.le_refl _, Or.inl rfl, fun _ => Or.inl⟩

theorem numbered_snoc (hnum : Numbered tr t) (h : step t a = some u) :
    Numbered (tr ++ [(t, a)]) u := by
  obtain ⟨hstarts, hprocess, hmem⟩ := numbers_of_step h
  have hle := hnum.process
  refine ⟨?_, ?_, ?_⟩
  · rcases hprocess with heq | heq <;> omega
  · intro m hm
    rcases hmem m hm with hm | heq
    · have := hnum.inFlight m hm
      omega
    · omega
  · intro k hk
    rcases ready_snoc.mp hk with hk | ⟨m, hm, -, hk⟩
    · have := hnum.ready k hk
      omega
    · have := hnum.inFlight m (mem_of_handled hm)
      omega

theorem unanswered_start (s₀ : Core) (events : List Event) :
    Unanswered [] (start s₀ events) := by
  have hready : ∀ k, ¬ Ready [] k := by
    rintro k ⟨p, hp, -⟩
    cases hp
  refine ⟨⟨Nat.le_refl _, ?_, ?_⟩, Main.noConfusion, fun _ => hready _⟩
  · intro m hm
    obtain ⟨e, -, rfl⟩ := List.mem_map.mp hm
    exact Nat.le_refl _
  · intro k hk
    exact absurd hk (hready k)

theorem unanswered_snoc (hI : Unanswered tr t) (h : step t a = some u) :
    Unanswered (tr ++ [(t, a)]) u := by
  refine ⟨numbered_snoc hI.numbered h, ?_, ?_⟩
  · intro hloop
    cases effect_of_step h with
    | quiet hstate _ hloop' _ =>
      rw [hstate]
      rcases hloop' hloop with ht | ht
      · exact hI.keyLoop ht
      · exact ht
    | answers hstate _ _ _ => exact hstate
    | restarts _ hmain _ _ _ =>
      rw [hmain] at hloop
      cases hloop
  · intro hnotStart hready
    cases effect_of_step h with
    | quiet hstate hepoch _ hend =>
      rw [hstate] at hnotStart
      rw [hepoch] at hready
      rcases ready_snoc.mp hready with hready | ⟨m, hm, hdialogEnd, -⟩
      · exact hI.notStart hnotStart hready
      · exact hend m hm hdialogEnd
    | answers hstate _ _ _ =>
      rw [hstate] at hnotStart
      cases hnotStart
    | restarts _ _ _ hepoch hend =>
      -- no process has the number of a DO_START that has not been sent
      rw [hepoch] at hready
      rcases ready_snoc.mp hready with hready | ⟨m, hm, hdialogEnd, -⟩
      · have := hI.numbered.ready _ hready
        omega
      · exact hend m hm hdialogEnd

/-- `main` comes to WAIT_START. -/
theorem step_starting (hmain : s.system.main = .starting) :
    ∃ t, step s .main = some t ∧ t.system.main = .waitStart ∧
      t.firstDialogState = s.firstDialogState ∧ t.epoch = s.epoch := by
  rcases s with ⟨⟨agent, main, app⟩, starts, process, inFlight⟩
  obtain rfl : main = .starting := hmain
  exact ⟨_, rfl, rfl, rfl, rfl⟩

/-- DO_STOP is sent. -/
theorem step_sendStop (hmain : s.system.main = .sendStop) :
    ∃ t, step s .main = some t ∧ t.system.main = .sendStart ∧
      t.firstDialogState = s.firstDialogState ∧ t.epoch = s.epoch := by
  rcases s with ⟨⟨agent, main, app⟩, starts, process, inFlight⟩
  obtain rfl : main = .sendStop := hmain
  exact ⟨_, rfl, rfl, rfl, rfl⟩

/-- DO_START is sent. -/
theorem step_sendStart (hmain : s.system.main = .sendStart) :
    ∃ t, step s .main = some t ∧ t.system.main = .waitStart ∧
      t.firstDialogState = s.firstDialogState ∧ t.epoch = s.epoch := by
  rcases s with ⟨⟨agent, main, app⟩, starts, process, inFlight⟩
  obtain rfl : main = .sendStart := hmain
  exact ⟨_, rfl, rfl, rfl, rfl⟩

/-- `main` alone gets to the end of WAIT_START once `firstDialogState` is
STARTED. -/
theorem exists_leaves (hstate : s.firstDialogState = .started)
    (hmain : s.system.main ≠ .keyLoop) :
    ∃ tr t, Run step s tr t ∧ (∀ p ∈ tr, p.2 = .main) ∧ Leaves t .main ∧
      t.starts = s.epoch := by
  have hleaves : ∀ t : Flight, t.system.main = .waitStart → t.firstDialogState = .started →
      Leaves t .main ∧ t.starts = t.epoch := by
    intro t ht hstate
    refine ⟨⟨rfl, ht, hstate⟩, ?_⟩
    rw [epoch, ht]
    rfl
  cases hm : s.system.main with
  | keyLoop => exact absurd hm hmain
  | starting =>
    obtain ⟨t, ht, hmt, hst, het⟩ := step_starting hm
    rw [← het]
    exact ⟨_, t, Run.nil.snoc ht, by simp, hleaves t hmt (hst.trans hstate)⟩
  | waitStart => exact ⟨[], s, Run.nil, by simp, hleaves s hm hstate⟩
  | sendStart =>
    obtain ⟨t, ht, hmt, hst, het⟩ := step_sendStart hm
    rw [← het]
    exact ⟨_, t, Run.nil.snoc ht, by simp, hleaves t hmt (hst.trans hstate)⟩
  | sendStop =>
    obtain ⟨t, ht, hmt, hst, het⟩ := step_sendStop hm
    obtain ⟨u, hu, hmu, hsu, heu⟩ := step_sendStart hmt
    rw [← het, ← heu]
    exact ⟨_, u, (Run.nil.snoc ht).snoc hu, by simp, hleaves u hmu (hsu.trans (hst.trans hstate))⟩

/-- **After a DIALOG_END that is not fresh, `main` may leave WAIT_START for an
app that is not ready**, with no further event. -/
theorem unready_of_not_fresh {s₀ : Core} {events : List Event}
    (h : Run step (start s₀ events) tr s) (hu : step s a = some u) (ha : ¬ Fresh s a) :
    ∃ tr' t, Run step u tr' t ∧ (∀ p ∈ tr', p.2 = .main) ∧ Leaves t .main ∧ 0 < t.starts ∧
      ¬ Ready (tr ++ (s, a) :: tr') t.starts := by
  have hI : Unanswered tr s :=
    Run.history (unanswered_start s₀ events) (fun _ _ _ _ hI hu => unanswered_snoc hI hu) h
  obtain ⟨m, hm, hdialogEnd, hnotStart, hstale⟩ : ∃ m ∈ handled s a, m.1 = .dialogEnd ∧
      s.firstDialogState = .notStart ∧ m.2 < s.epoch := by
    simpa [Fresh] using ha
  obtain ⟨hstate, hepoch, hmain⟩ : u.firstDialogState = .started ∧ u.epoch = s.epoch ∧
      u.system.main = s.system.main := by
    cases effect_of_step hu with
    | quiet _ _ _ hend => exact absurd hdialogEnd (hend m hm)
    | answers hstate hepoch hmain _ => exact ⟨hstate, hepoch, hmain⟩
    | restarts _ _ _ _ hend => exact absurd hdialogEnd (hend m hm)
  have hloop : u.system.main ≠ .keyLoop := by
    intro hloop
    rw [hI.keyLoop (hmain.symm.trans hloop)] at hnotStart
    cases hnotStart
  obtain ⟨tr', t, ht, hmains, hleaves, hstarts⟩ := exists_leaves hstate hloop
  rw [hepoch] at hstarts
  refine ⟨tr', t, ht, hmains, hleaves, by omega, ?_⟩
  rw [hstarts]
  rintro ⟨p, hp, m', hm', hend, hle⟩
  rcases List.mem_append.mp hp with hp | hp
  · exact hI.notStart hnotStart ⟨p, hp, m', hm', hend, hle⟩
  rcases List.mem_cons.mp hp with rfl | hp
  · obtain rfl : m = m' := Option.some.inj (hm.symm.trans hm')
    omega
  · rw [hmains p hp] at hm'
    cases hm'

/-! ### A restart -/

instance (tr : List (Flight × Action)) (k : ℕ) : Decidable (Ready tr k) :=
  inferInstanceAs (Decidable (∃ p ∈ tr, ∃ m ∈ handled p.1 p.2, m.1 = .dialogEnd ∧ k ≤ m.2))

instance (s : Flight) (a : Action) : Decidable (Leaves s a) :=
  inferInstanceAs (Decidable (_ ∧ _))

instance (s : Flight) (a : Action) : Decidable (Fresh s a) :=
  inferInstanceAs (Decidable (∀ m ∈ handled s a, m.1 = .dialogEnd → _))

/-- There is a network and DO_START has been sent. -/
def online : Flight := start System.online.toCore []

/-- The key is pressed while SPEAKING is in flight, and the new app reports. -/
theorem ready_after_restart :
    ∃ tr p s, Run step online (tr ++ [p]) s ∧ Leaves p.1 p.2 ∧ 0 < p.1.starts ∧
      Ready tr p.1.starts := by
  have h : Run step online _ _ :=
    Run.of_exec [.appStarts, .send .dialogEnd, .deliver 0, .main, .send .dialogSpeaking, .key 'n',
      .deliver 0, .main, .appExits, .main, .appStarts, .send .dialogEnd, .deliver 0] rfl
  have h := h.snoc (a := .main) rfl
  exact ⟨_, _, _, h, by decide, by decide,
    ready_of_leaves h (by decide) (by decide) _ _ [] rfl (by decide) (by decide)⟩

/-- **A DIALOG_END of the old app ends the wait for the new one**: it is in
flight when the key is pressed, and `main` leaves WAIT_START before the new app
has started. -/
theorem leaves_with_old_dialog_end :
    ∃ tr p s, Run step online (tr ++ [p]) s ∧
      (∀ q ∈ tr ++ [p], q.2 ≠ .send .authTokenExpired) ∧
      Leaves p.1 p.2 ∧ 0 < p.1.starts ∧ ¬ Ready tr p.1.starts := by
  have h : Run step online _ _ :=
    Run.of_exec [.appStarts, .send .dialogEnd, .deliver 0, .main, .send .dialogEnd, .key 'n',
      .deliver 0, .main, .appExits, .main] rfl
  exact ⟨_, _, _, h.snoc (a := .main) rfl, by decide, by decide, by decide, by decide⟩

end Flight

end MicAgent
