/-
The write of a recorded frame to the FIFO.

`onAudio` tests `forwarding` and then writes to `fdAudio`, with no lock in
between.  The flag is raised before the descriptor is opened, a task may close
the descriptor between test and write, and the IFLYOS process that reads the
FIFO may exit long before MicAgent hears of it.  SIGPIPE is not among the
signals that `main` handles.

* `Audio.step` — MicAgent's threads with `onAudio` as two steps, and the reader;
* `Audio.live_step_iff` — the steps behind which a write is safe;
* `Audio.writes_live_iff` — **every write goes to a live FIFO**, in the runs that
  keep it live from each test on.
-/
import IflyosSDK.MicAgentMute

namespace MicAgent

/-! ### The descriptors -/

section Fifos

variable {s u : State} {a : Action}

/-- What a task does to the descriptors. -/
theorem runTask_fifos {fd : Int} (h : runTask s fd = some u) :
    (s.executor.tasks.head? = some .closeFifo ∧ s.forwarding = true ∧ u.fdAudio = -1 ∧
        u.fifos = s.fifos.erase s.fdAudio) ∨
      (s.executor.tasks.head? = some .startForward ∧ fd = -1 ∧ u.fdAudio = -1 ∧
        u.fifos = s.fifos) ∨
      (s.executor.tasks.head? = some .startForward ∧ 0 ≤ fd ∧ u.fdAudio = fd ∧
        u.fifos = fd :: s.fifos) ∨
      ((s.executor.tasks.head? = some .closeFifo → s.forwarding = false) ∧
        s.executor.tasks.head? ≠ some .startForward ∧ u.fdAudio = s.fdAudio ∧
        u.fifos = s.fifos) := by
  obtain ⟨t, e, hq, ht⟩ := runTask_cases h
  rw [hq, List.head?_cons]
  cases t with
  | closeFifo =>
    obtain rfl : u = _ := ht
    rw [closeFifoTask]
    by_cases hf : s.forwarding = true
    · rw [if_neg (not_not.mpr hf)]
      exact Or.inl ⟨rfl, hf, rfl, rfl⟩
    · rw [if_pos hf]
      exact Or.inr (Or.inr (Or.inr ⟨fun _ => Bool.eq_false_iff.mpr hf, by simp, rfl, rfl⟩))
  | startForward =>
    obtain ⟨-, -, -, -, ⟨hfd, -, hu, hfifos⟩ | ⟨hfd, -, -, hu, hfifos⟩⟩ := startForwardTask_cases ht
    · exact Or.inr (Or.inl ⟨rfl, hfd, hu, hfifos⟩)
    · exact Or.inr (Or.inr (Or.inl ⟨rfl, hfd, hu, hfifos⟩))
  | restartDialog =>
    obtain rfl : u = _ := ht
    exact Or.inr (Or.inr (Or.inr ⟨by simp, by simp, rfl, rfl⟩))

/-- An open descriptor is not negative. -/
def FifosValid (s : State) : Prop := ∀ fd ∈ s.fifos, 0 ≤ fd

theorem fifosValid_step (hvalid : FifosValid s) (h : step s a = some u) : FifosValid u := by
  by_cases ha : ∃ fd, a = .runTask fd
  · obtain ⟨fd, rfl⟩ := ha
    intro fd' hmem
    rcases runTask_fifos h with ⟨-, -, -, hu⟩ | ⟨-, -, -, hu⟩ | ⟨-, hfd, -, hu⟩ | ⟨-, -, -, hu⟩
    · rw [hu] at hmem
      exact hvalid fd' (List.mem_of_mem_erase hmem)
    · rw [hu] at hmem
      exact hvalid fd' hmem
    · rw [hu] at hmem
      rcases List.mem_cons.mp hmem with rfl | hmem
      · exact hfd
      · exact hvalid fd' hmem
    · rw [hu] at hmem
      exact hvalid fd' hmem
  · intro fd hmem
    rw [(step_frame h).fifos fun fd hfd => ha ⟨fd, hfd⟩] at hmem
    exact hvalid fd hmem

theorem neg_one_not_mem (hvalid : FifosValid s) : -1 ∉ s.fifos := by
  intro hmem
  have := hvalid (-1) hmem
  omega

end Fifos

/-! ### The recorder's write and the reader -/

/-- The signals that matter here. -/
inductive Signal
  | sigsegv
  | sigabrt
  | sigint
  | sigpipe
  deriving DecidableEq, Repr

/-- The signals for which `main` installs `sigHandler`; the others keep their
default action. -/
def handledSignals : List Signal := [.sigsegv, .sigabrt, .sigint]

/-- MicAgent and the reader of the FIFO.  `writing` says that `onAudio` has
found `forwarding` set and comes to its write. -/
structure Audio where
  agent : State
  writing : Bool
  reader : Bool
  killed : Bool
  deriving DecidableEq, Repr

namespace Audio

/-- The process has just started. -/
def start (reader : Bool) : Audio := ⟨init, false, reader, false⟩

/-- What can happen next: a step of another thread, one of the two steps of
`onAudio`, or the reader opens the FIFO or exits. -/
inductive Action
  | agent (a : MicAgent.Action)
  | test (format : Format)
  | write
  | readerOpens
  | readerExits
  deriving DecidableEq, Repr

/-- `open(FIFO_PATH, O_WRONLY)` returns no descriptor before a reader has the
FIFO open. -/
def OpenBlocks (s : Audio) : MicAgent.Action → Prop
  | .runTask fd =>
    s.agent.executor.tasks.head? = some .startForward ∧ 0 ≤ fd ∧ s.reader = false
  | _ => False

instance (s : Audio) : DecidablePred s.OpenBlocks
  | .runTask _ => inferInstanceAs (Decidable (_ ∧ _))
  | .event _ | .wakeWord | .network _ | .micMute | .restart | .waitStart => isFalse id

/-- The write finds no reader, and nobody handles SIGPIPE. -/
def Breaks (s : Audio) : Prop :=
  s.agent.fdAudio ∈ s.agent.fifos ∧ s.reader = false ∧ .sigpipe ∉ handledSignals

instance (s : Audio) : Decidable s.Breaks := inferInstanceAs (Decidable (_ ∧ _))

def act (s : Audio) : Action → Option Audio
  | .agent a =>
    if s.OpenBlocks a then none
    else (MicAgent.step s.agent a).map fun u => { s with agent := u }
  | .test format =>
    if s.writing then none else some { s with writing := (onAudio s.agent format).isSome }
  | .write =>
    if s.writing then some { s with writing := false, killed := decide s.Breaks } else none
  | .readerOpens => some { s with reader := true }
  | .readerExits => some { s with reader := false }

def step (s : Audio) (a : Action) : Option Audio := if s.killed then none else s.act a

/-- `fdAudio` is an open descriptor of the FIFO, and there is a reader, or
SIGPIPE does not kill the process. -/
def Live (s : Audio) : Prop :=
  s.agent.fdAudio ∈ s.agent.fifos ∧ (s.reader = true ∨ .sigpipe ∈ handledSignals)

/-- When `onAudio` comes to its write, it is to a live FIFO. -/
def WritesLive (s : Audio) : Prop := s.writing = true → s.Live

/-- `onAudio` finds the flag set only with a live FIFO; and while it comes to
its write, no task closes the FIFO or fails to open it, and the reader does not
exit. -/
def KeepsLive (s : Audio) : Action → Prop
  | .test format => (onAudio s.agent format).isSome → s.Live
  | .agent (.runTask fd) => s.writing = true →
      (s.agent.executor.tasks.head? = some .closeFifo → s.agent.forwarding = false) ∧
      (s.agent.executor.tasks.head? = some .startForward → 0 ≤ fd)
  | .readerExits => s.writing = false
  | .agent _ | .write | .readerOpens => True

variable {s u : Audio} {a : Action} {tr : List (Audio × Action)}

theorem not_live_of_no_reader (h : s.reader = false) : ¬ s.Live := by
  rintro ⟨-, hreader | hsignal⟩
  · rw [h] at hreader
    cases hreader
  · exact absurd hsignal (by decide)

theorem reader_of_live (h : s.Live) : s.reader = true := by
  by_contra hreader
  exact not_live_of_no_reader (Bool.eq_false_iff.mpr hreader) h

theorem keepsLive_of_ne_task {b : MicAgent.Action} (hb : ∀ fd, b ≠ .runTask fd) :
    s.KeepsLive (.agent b) := by
  cases b with
  | runTask fd => exact absurd rfl (hb fd)
  | _ => trivial

/-- A step of another thread. -/
theorem agent_step_iff {b : MicAgent.Action} {v : State} (hlive : s.WritesLive)
    (hvalid : FifosValid s.agent) (hopen : ¬ s.OpenBlocks b)
    (hv : MicAgent.step s.agent b = some v) :
    WritesLive { s with agent := v } ↔ s.KeepsLive (.agent b) := by
  by_cases htask : ∃ fd, b = .runTask fd
  · obtain ⟨fd, rfl⟩ := htask
    by_cases hwriting : s.writing = true
    swap
    · exact iff_of_true (fun h => absurd h hwriting) fun h => absurd h hwriting
    have hs := hlive hwriting
    have hreader := reader_of_live hs
    rcases runTask_fifos hv with ⟨hhead, hf, hu, hfifos⟩ | ⟨hhead, rfl, hu, hfifos⟩ |
      ⟨hhead, hfd, hu, hfifos⟩ | ⟨hclose, hstart, hu, hfifos⟩
    · -- the descriptor is closed
      refine iff_of_false (fun h => ?_) fun h => ?_
      · have hmem := (h hwriting).1
        rw [hu, hfifos] at hmem
        exact neg_one_not_mem hvalid (List.mem_of_mem_erase hmem)
      · have hnot := (h hwriting).1 hhead
        rw [hf] at hnot
        cases hnot
    · -- it cannot be opened
      refine iff_of_false (fun h => ?_) fun h => ?_
      · have hmem := (h hwriting).1
        rw [hu, hfifos] at hmem
        exact neg_one_not_mem hvalid hmem
      · have hfd := (h hwriting).2 hhead
        omega
    · refine iff_of_true (fun _ => ⟨?_, Or.inl hreader⟩) fun _ => ?_
      · rw [hu, hfifos]
        exact List.mem_cons_self
      · rw [hhead]
        exact ⟨fun h => absurd (Option.some.inj h) Task.noConfusion, fun _ => hfd⟩
    · refine iff_of_true (fun _ => ⟨?_, hs.2⟩) fun _ => ⟨hclose, fun h => absurd h hstart⟩
      rw [hu, hfifos]
      exact hs.1
  · have hb : ∀ fd, b ≠ .runTask fd := fun fd hfd => htask ⟨fd, hfd⟩
    refine iff_of_true (fun hwriting => ⟨?_, (hlive hwriting).2⟩) (keepsLive_of_ne_task hb)
    rw [(step_frame hv).fdAudio hb, (step_frame hv).fifos hb]
    exact (hlive hwriting).1

theorem act_of_step (h : step s a = some u) : s.act a = some u := by
  rw [step] at h
  split at h
  · cases h
  · exact h

/-- **The steps behind which a write is safe.** -/
theorem live_step_iff (hlive : s.WritesLive) (hvalid : FifosValid s.agent)
    (h : step s a = some u) : u.WritesLive ↔ s.KeepsLive a := by
  have h := act_of_step h
  cases a with
  | agent b =>
    rw [act] at h
    split at h
    · cases h
    · rename_i hopen
      obtain ⟨v, hv, rfl⟩ := Option.map_eq_some_iff.mp h
      exact agent_step_iff hlive hvalid hopen hv
  | test format =>
    rw [act] at h
    split at h
    · cases h
    · rw [← Option.some.inj h]
      exact Iff.rfl
  | write =>
    rw [act] at h
    split at h
    · rw [← Option.some.inj h]
      exact iff_of_true (fun hu => absurd hu Bool.noConfusion) trivial
    · cases h
  | readerOpens =>
    rw [← Option.some.inj h]
    exact iff_of_true (fun hu => ⟨(hlive hu).1, Or.inl rfl⟩) trivial
  | readerExits =>
    rw [← Option.some.inj h]
    constructor
    · intro hu
      by_contra hwriting
      exact not_live_of_no_reader rfl (hu (Bool.not_eq_false _ ▸ hwriting))
    · intro hwriting hu
      exact absurd (hwriting.symm.trans hu) Bool.noConfusion

theorem valid_step (hvalid : FifosValid s.agent) (h : step s a = some u) :
    FifosValid u.agent := by
  have h := act_of_step h
  cases a with
  | agent b =>
    rw [act] at h
    split at h
    · cases h
    · obtain ⟨v, hv, rfl⟩ := Option.map_eq_some_iff.mp h
      exact fifosValid_step hvalid hv
  | test format | write =>
    rw [act] at h
    split at h
    all_goals cases h
    exact hvalid
  | readerOpens | readerExits =>
    rw [← Option.some.inj h]
    exact hvalid

/-- The runs in which the FIFO is live from each test to its write. -/
theorem live_from_test_iff {reader : Bool} (h : Run step (start reader) tr s) :
    ((∀ p ∈ tr, p.1.WritesLive) ∧ s.WritesLive) ↔ ∀ p ∈ tr, p.1.KeepsLive p.2 := by
  have hvalid0 : FifosValid (start reader).agent := by
    intro fd hmem
    cases hmem
  have hvalid : (∀ p ∈ tr, FifosValid p.1.agent) ∧ FifosValid s.agent :=
    ⟨h.states (I := fun t => FifosValid t.agent) hvalid0 fun _ _ _ ht hu => valid_step ht hu,
      h.invariant (I := fun t => FifosValid t.agent) hvalid0 fun _ _ _ ht hu => valid_step ht hu⟩
  have hstep : ∀ t a u, t.WritesLive ∧ FifosValid t.agent → step t a = some u →
      (u.WritesLive ∧ FifosValid u.agent ↔ t.KeepsLive a) := by
    rintro t a u ⟨hlive, hv⟩ hu
    rw [live_step_iff hlive hv hu]
    exact and_iff_left (valid_step hv hu)
  have hiff := Run.states_iff (I := fun t => t.WritesLive ∧ FifosValid t.agent)
    (C := fun t a => t.KeepsLive a) ⟨fun hw => absurd hw Bool.noConfusion, hvalid0⟩ hstep h
  rw [← hiff]
  constructor
  · rintro ⟨htr, hs⟩
    exact ⟨fun p hp => ⟨htr p hp, hvalid.1 p hp⟩, hs, hvalid.2⟩
  · rintro ⟨htr, hs, -⟩
    exact ⟨fun p hp => (htr p hp).1, hs⟩

theorem writing_of_write (h : step s .write = some u) : s.writing = true := by
  have h := act_of_step h
  rw [act] at h
  split at h
  · assumption
  · cases h

/-- **Every write goes to a live FIFO** in the runs whose steps keep it live.
These are the runs in which it is live from each test on; where it is closed and
opened again before the write, it is live at the write only. -/
theorem writes_live_iff {reader : Bool} (h : Run step (start reader) tr s) :
    ((∀ p ∈ tr, p.1.KeepsLive p.2) → ∀ p ∈ tr, p.2 = .write → p.1.Live) ∧
      (((∀ p ∈ tr, p.1.WritesLive) ∧ s.WritesLive) ↔ ∀ p ∈ tr, p.1.KeepsLive p.2) := by
  refine ⟨fun hkeeps => ?_, live_from_test_iff h⟩
  rintro ⟨t, a⟩ hp rfl
  obtain ⟨u, hu, -⟩ := h.exists_next hp
  exact ((live_from_test_iff h).mpr hkeeps).1 _ hp (writing_of_write hu)

instance (s : Audio) : Decidable s.Live := inferInstanceAs (Decidable (_ ∧ _))

instance (s : Audio) : DecidablePred s.KeepsLive
  | .test _ => inferInstanceAs (Decidable (_ → _))
  | .agent (.runTask _) => inferInstanceAs (Decidable (_ → _ ∧ _))
  | .readerExits => inferInstanceAs (Decidable (_ = _))
  | .agent (.event _) | .agent .wakeWord | .agent (.network _) | .agent .micMute
  | .agent .restart | .agent .waitStart => isTrue trivial
  | .write | .readerOpens => isTrue trivial

/-- The FIFO is opened, a frame is written, and the FIFO is closed. -/
theorem writes_live_in_dialog :
    ∃ tr s, Run step (start true) tr s ∧ .write ∈ tr.map Prod.snd ∧
      (∀ p ∈ tr, p.2 = .write → p.1.Live) ∧ (∀ p ∈ tr, p.1.WritesLive) ∧ s.WritesLive := by
  have h : Run step (start true) _ _ :=
    Run.of_exec [.agent (.network true), .agent (.event .dialogEnd), .agent .wakeWord,
      .agent (.runTask 5), .test .originOutput, .write, .agent (.event .dialogEnd),
      .agent (.runTask 5), .test .originOutput] rfl
  exact ⟨_, _, h, by decide, (writes_live_iff h).1 (by decide),
    (writes_live_iff h).2.mpr (by decide)⟩

/-- **A write that comes too early and one that comes too late**: the first
after a wake word goes to the descriptor -1, and the first after the reader has
exited kills MicAgent. -/
theorem write_not_live :
    (∃ tr s, Run step (start true) tr s ∧ s.writing = true ∧ s.agent.fdAudio ∉ s.agent.fifos) ∧
      ∃ tr s u, Run step (start true) tr s ∧ s.writing = true ∧ s.reader = false ∧
        step s .write = some u ∧ u.killed = true := by
  have hearly : Run step (start true) _ _ :=
    Run.of_exec [.agent (.network true), .agent (.event .dialogEnd), .agent .wakeWord,
      .test .originOutput] rfl
  have hlate : Run step (start true) _ _ :=
    Run.of_exec [.agent (.network true), .agent (.event .dialogEnd), .agent .wakeWord,
      .agent (.runTask 5), .readerExits, .test .originOutput] rfl
  exact ⟨⟨_, _, hearly, rfl, by decide⟩, _, _, _, hlate, rfl, rfl, rfl, rfl⟩

end Audio

end MicAgent
