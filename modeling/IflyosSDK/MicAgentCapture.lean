/-
Audio capture: the flag `forwarding`, the descriptor `fdAudio` and the queue.

`onWakeWord` reads and sets `forwarding` on the recorder's thread, and the
descriptor is opened and closed by the tasks.  A close task that is queued when
the wake word comes runs between the flag and the open.

* `capture_step` — what a step of any thread does to the capture state;
* `CaptureInv`, `captureInv_step` — the invariant of the runs in which no start
  is enqueued behind a close;
* `capture_consistent_when_idle` — **flag and descriptors agree whenever the
  executor is idle**;
* `DialogInv`, `dialogInv_step` — the invariant of the runs in which nothing is
  enqueued behind a close by a wake word;
* `dialog_has_audio` — **no dialog is started without audio**.
-/
import IflyosSDK.MicAgent

namespace MicAgent

/-! ### The capture state -/

/-- The part of the state that capture is about. -/
structure Capture where
  forwarding : Bool
  fdAudio : Int
  fifos : List Int
  tasks : List Task

def capture (s : State) : Capture := ⟨s.forwarding, s.fdAudio, s.fifos, s.executor.tasks⟩

@[simp] theorem capture_fdAudio (s : State) : (capture s).fdAudio = s.fdAudio := rfl

@[simp] theorem capture_fifos (s : State) : (capture s).fifos = s.fifos := rfl

@[simp] theorem capture_tasks (s : State) : (capture s).tasks = s.executor.tasks := rfl

/-- What a step does to the capture state. -/
inductive CaptureStep (s : State) (a : Action) : Capture → Prop
  | skip (ha : ∀ fd, a ≠ .runTask fd) : CaptureStep s a (capture s)
  | close (ha : ∀ fd, a ≠ .runTask fd) :
      CaptureStep s a { capture s with tasks := s.executor.tasks ++ [.closeFifo] }
  | restart (ha : a = .wakeWord) (hs : Listening s) (hf : s.forwarding = true)
      (ht : s.inThinking = false) :
      CaptureStep s a { capture s with tasks := s.executor.tasks ++ [.restartDialog] }
  | start (ha : a = .wakeWord) (hs : Listening s) (hf : s.forwarding = false) :
      CaptureStep s a
        { capture s with forwarding := true, tasks := s.executor.tasks ++ [.startForward] }
  | runClose (ts : List Task) (hq : s.executor.tasks = .closeFifo :: ts)
      (hf : s.forwarding = true) :
      CaptureStep s a ⟨false, -1, s.fifos.erase s.fdAudio, ts⟩
  | runCloseSkip (ts : List Task) (hq : s.executor.tasks = .closeFifo :: ts)
      (hf : s.forwarding = false) :
      CaptureStep s a { capture s with tasks := ts }
  | runStart (fd : Int) (ts : List Task) (ha : a = .runTask fd)
      (hq : s.executor.tasks = .startForward :: ts) (hfd : fd ∉ s.fifos) :
      CaptureStep s a ⟨s.forwarding, fd, fd :: s.fifos, ts⟩
  | runStartFails (ts : List Task) (ha : a = .runTask (-1))
      (hq : s.executor.tasks = .startForward :: ts) :
      CaptureStep s a ⟨false, -1, s.fifos, ts⟩
  | runRestart (ts : List Task) (hq : s.executor.tasks = .restartDialog :: ts) :
      CaptureStep s a { capture s with tasks := ts }

variable {s u : State} {a : Action} {tr : List (State × Action)}

theorem capture_of_enqueue {t : Task} (h : enqueue s t = some u) :
    capture u = { capture s with tasks := s.executor.tasks ++ [t] } := by
  obtain ⟨e, he, rfl⟩ := enqueue_cases h
  rw [capture, he]
  rfl

theorem captureStep_handle {e : Event} (h : handle s e = some u) :
    CaptureStep s (.event e) (capture u) := by
  have ha : ∀ fd, Action.event e ≠ .runTask fd := fun fd => Action.noConfusion
  cases e with
  | dialogEnd =>
    rw [handle_dialogEnd, stopCapture] at h
    split at h
    · rw [Option.some.injEq] at h
      subst h
      exact CaptureStep.skip ha
    · rw [capture_of_enqueue h]
      exact CaptureStep.close ha
  | stopped =>
    rw [capture_of_enqueue h]
    exact CaptureStep.close ha
  | _ =>
    rw [← Option.some.inj h]
    exact CaptureStep.skip ha

theorem captureStep_onWakeWord (h : onWakeWord s = some u) :
    CaptureStep s .wakeWord (capture u) := by
  rcases onWakeWord_cases h with rfl | ⟨hs, ⟨hf, ht, h⟩ | ⟨hf, h⟩⟩
  · exact CaptureStep.skip fun fd => Action.noConfusion
  · rw [capture_of_enqueue h]
    exact CaptureStep.restart rfl hs hf ht
  · rw [capture_of_enqueue h]
    exact CaptureStep.start rfl hs hf

theorem captureStep_runTask {fd : Int} (h : runTask s fd = some u) :
    CaptureStep s (.runTask fd) (capture u) := by
  obtain ⟨t, e, hq, ht⟩ := runTask_cases h
  cases t with
  | closeFifo =>
    obtain rfl : u = _ := ht
    rw [closeFifoTask]
    by_cases hf : s.forwarding = true
    · rw [if_neg (not_not.mpr hf)]
      exact CaptureStep.runClose e.tasks hq hf
    · rw [if_pos hf]
      exact CaptureStep.runCloseSkip e.tasks hq (Bool.eq_false_iff.mpr hf)
  | startForward =>
    obtain ⟨-, -, -, hexec, ⟨rfl, hf, hfd, hfifos⟩ | ⟨-, hfresh, hf, hfd, hfifos⟩⟩ :=
      startForwardTask_cases ht
    · rw [capture, hexec, hf, hfd, hfifos]
      exact CaptureStep.runStartFails e.tasks rfl hq
    · rw [capture, hexec, hf, hfd, hfifos]
      exact CaptureStep.runStart fd e.tasks rfl hq hfresh
  | restartDialog =>
    obtain rfl : u = _ := ht
    exact CaptureStep.runRestart e.tasks hq

/-- What a step of any thread does to the capture state. -/
theorem capture_step (h : step s a = some u) : CaptureStep s a (capture u) := by
  cases a with
  | event e => exact captureStep_handle h
  | wakeWord => exact captureStep_onWakeWord h
  | runTask fd => exact captureStep_runTask h
  | network ok =>
    rw [step, Option.some.injEq, onNetworkStatusChanged] at h
    split at h
    all_goals
      rw [← h]
      exact CaptureStep.skip fun fd => Action.noConfusion
  | micMute | restart | waitStart =>
    rw [step, Option.some.injEq] at h
    rw [← h]
    exact CaptureStep.skip fun fd => Action.noConfusion

/-! ### Whenever the executor is idle -/

/-- No task is queued or running. -/
def Idle (s : State) : Prop := s.executor.tasks = []

/-- `forwarding` says that `fdAudio` is open, and no other FIFO descriptor is. -/
def Consistent (s : State) : Prop :=
  (s.forwarding = true ↔ s.fdAudio ∈ s.fifos) ∧
    s.fifos.length = if s.forwarding then 1 else 0

instance (s : State) : Decidable (Idle s) := inferInstanceAs (Decidable (_ = _))

instance (s : State) : Decidable (Consistent s) := inferInstanceAs (Decidable (_ ∧ _))

/-- A wake word that starts forwarding finds no close task in the queue. -/
def NoStartBehindClose (s : State) (a : Action) : Prop :=
  a = .wakeWord → Listening s → s.forwarding = false → Task.closeFifo ∉ s.executor.tasks

/-- Capture is stopped, or a start is queued with no close in front of it, or
the FIFO is open. -/
inductive CaptureInv (c : Capture) : Prop
  | stopped (hf : c.forwarding = false) (hd : c.fifos = []) (hq : .startForward ∉ c.tasks)
  | starting (hf : c.forwarding = true) (hd : c.fifos = []) (front back : List Task)
      (hq : c.tasks = front ++ .startForward :: back) (hclose : .closeFifo ∉ front)
      (hfront : .startForward ∉ front) (hback : .startForward ∉ back)
  | running (hf : c.forwarding = true) (hd : c.fifos = [c.fdAudio]) (hq : .startForward ∉ c.tasks)

theorem captureInv_init : CaptureInv (capture init) :=
  CaptureInv.stopped rfl rfl (by decide)

/-- A close or a dialog start joins the queue. -/
theorem CaptureInv.enqueue {c : Capture} (hinv : CaptureInv c) {t : Task}
    (ht : t ≠ .startForward) : CaptureInv { c with tasks := c.tasks ++ [t] } := by
  have hnot : ∀ {ts : List Task}, .startForward ∉ ts → .startForward ∉ ts ++ [t] := by
    intro ts hts hmem
    rcases List.mem_append.mp hmem with h | h
    · exact hts h
    · exact ht (List.mem_singleton.mp h).symm
  cases hinv with
  | stopped hf hd hq => exact CaptureInv.stopped hf hd (hnot hq)
  | starting hf hd front back hq hclose hfront hback =>
    refine CaptureInv.starting hf hd front (back ++ [t]) ?_ hclose hfront (hnot hback)
    show c.tasks ++ [t] = _
    rw [hq, List.append_assoc, List.cons_append]
  | running hf hd hq => exact CaptureInv.running hf hd (hnot hq)

/-- A task other than the start leaves the queue without effect. -/
theorem CaptureInv.skipTask {c : Capture} (hinv : CaptureInv c) {t : Task} {ts : List Task}
    (hq : c.tasks = t :: ts) (ht : t ≠ .startForward) : CaptureInv { c with tasks := ts } := by
  have hnot : .startForward ∉ c.tasks → .startForward ∉ ts := by
    intro hmem h
    rw [hq] at hmem
    exact hmem (List.mem_cons_of_mem t h)
  cases hinv with
  | stopped hf hd hns => exact CaptureInv.stopped hf hd (hnot hns)
  | starting hf hd front back hfb hclose hfront hback =>
    -- the task stood in front of the start
    rw [hq] at hfb
    rcases front with _ | ⟨t', front⟩
    · exact absurd (List.cons.inj hfb).1 ht
    · refine CaptureInv.starting hf hd front back (List.cons.inj hfb).2 ?_ ?_ hback
      · exact fun h => hclose (List.mem_cons_of_mem t' h)
      · exact fun h => hfront (List.mem_cons_of_mem t' h)
  | running hf hd hns => exact CaptureInv.running hf hd (hnot hns)

/-- A start at the front of the queue is the only one, and nothing is open. -/
theorem CaptureInv.of_start {c : Capture} (hinv : CaptureInv c) {ts : List Task}
    (hq : c.tasks = .startForward :: ts) :
    c.forwarding = true ∧ c.fifos = [] ∧ .startForward ∉ ts := by
  cases hinv with
  | stopped _ _ hns =>
    rw [hq] at hns
    exact absurd List.mem_cons_self hns
  | starting hf hd front back hfb _ hfront hback =>
    rw [hq] at hfb
    rcases front with _ | ⟨t, front⟩
    · rw [(List.cons.inj hfb).2]
      exact ⟨hf, hd, hback⟩
    · refine absurd ?_ hfront
      rw [← (List.cons.inj hfb).1]
      exact List.mem_cons_self
  | running _ _ hns =>
    rw [hq] at hns
    exact absurd List.mem_cons_self hns

/-- A close at the front of the queue finds the FIFO open, if it finds the
flag set. -/
theorem CaptureInv.of_close {c : Capture} (hinv : CaptureInv c) {ts : List Task}
    (hq : c.tasks = .closeFifo :: ts) (hf : c.forwarding = true) :
    c.fifos = [c.fdAudio] ∧ .startForward ∉ ts := by
  cases hinv with
  | stopped hf' => cases hf'.symm.trans hf
  | starting _ _ front back hfb hclose =>
    -- the close would stand in front of the start
    rw [hq] at hfb
    rcases front with _ | ⟨t, front⟩
    · cases hfb
    · refine absurd ?_ hclose
      rw [← (List.cons.inj hfb).1]
      exact List.mem_cons_self
  | running _ hd hns =>
    rw [hq] at hns
    exact ⟨hd, fun hmem => hns (List.mem_cons_of_mem _ hmem)⟩

theorem captureInv_step {c : Capture} (hinv : CaptureInv (capture s))
    (hclean : NoStartBehindClose s a) (h : CaptureStep s a c) : CaptureInv c := by
  cases h with
  | skip => exact hinv
  | close => exact hinv.enqueue (by decide)
  | restart => exact hinv.enqueue (by decide)
  | start ha hs hf =>
    cases hinv with
    | stopped _ hd hq =>
      exact CaptureInv.starting rfl hd s.executor.tasks [] rfl (hclean ha hs hf) hq (by simp)
    | starting hf' => cases hf.symm.trans hf'
    | running hf' => cases hf.symm.trans hf'
  | runClose ts hq hf =>
    obtain ⟨hd, hns⟩ := hinv.of_close hq hf
    refine CaptureInv.stopped rfl ?_ hns
    rw [capture_fifos, capture_fdAudio] at hd
    show s.fifos.erase s.fdAudio = []
    rw [hd, List.erase_cons_head]
  | runCloseSkip ts hq _ => exact hinv.skipTask hq (by decide)
  | runStart fd ts _ hq _ =>
    obtain ⟨hf, hd, hns⟩ := hinv.of_start hq
    refine CaptureInv.running hf ?_ hns
    rw [capture_fifos] at hd
    show fd :: s.fifos = [fd]
    rw [hd]
  | runStartFails ts _ hq =>
    obtain ⟨-, hd, hns⟩ := hinv.of_start hq
    exact CaptureInv.stopped rfl hd hns
  | runRestart ts hq => exact hinv.skipTask hq (by decide)

/-- **Flag and descriptors agree whenever the executor is idle**, in the runs
in which no wake word starts forwarding behind a queued close. -/
theorem capture_consistent_when_idle (h : Run step init tr s)
    (hclean : ∀ p ∈ tr, NoStartBehindClose p.1 p.2) (hidle : Idle s) : Consistent s := by
  have hinv : CaptureInv (capture s) :=
    Run.invariant_of (I := fun s => CaptureInv (capture s)) captureInv_init
      (fun _ _ _ hinv hC hstep => captureInv_step hinv hC (capture_step hstep)) h hclean
  rw [Idle] at hidle
  cases hinv with
  | stopped hf hd _ =>
    rw [Consistent, show s.forwarding = false from hf, show s.fifos = [] from hd]
    simp
  | starting _ _ front back hq =>
    -- a start would still be queued
    rw [capture_tasks, hidle] at hq
    simp at hq
  | running hf hd _ =>
    rw [Consistent, show s.forwarding = true from hf, show s.fifos = [s.fdAudio] from hd]
    simp

instance (s : State) (a : Action) : Decidable (NoStartBehindClose s a) :=
  inferInstanceAs (Decidable (_ → _ → _ → _))

/-- A wake word opens the FIFO, and the executor is idle again. -/
theorem capture_consistent_after_wake_word :
    ∃ tr s, Run step init tr s ∧ Idle s ∧ s.forwarding = true ∧ Consistent s := by
  have h : Run step init _ _ :=
    Run.of_exec [.network true, .event .dialogEnd, .wakeWord, .runTask 5] rfl
  exact ⟨_, _, h, by decide, rfl, capture_consistent_when_idle h (by decide) (by decide)⟩

/-- **A close queued before the wake word undoes its start**: the FIFO stays
open and nothing is forwarded. -/
theorem capture_inconsistent_behind_close :
    ∃ tr s, Run step init tr s ∧ Idle s ∧ ¬ Consistent s := by
  have h : Run step init _ _ :=
    Run.of_exec [.network true, .event .dialogEnd, .event .dialogEnd, .wakeWord,
      .runTask 5, .runTask 5] rfl
  exact ⟨_, _, h, by decide, by decide⟩

/-! ### Whenever a dialog is started -/

/-- The step sends DO_DIALOG_START. -/
def SendsDialogStart (s u : State) : Prop :=
  u.sent = s.sent ++ [.doDialogStart fifoPath]

/-- Audio frames are written to the open FIFO. -/
def Feeding (s : State) : Prop := s.forwarding = true ∧ s.fdAudio ∈ s.fifos

/-- `open` succeeds, if it is called. -/
def OpenSucceeds : Action → Prop
  | .runTask fd => 0 ≤ fd
  | _ => True

instance : DecidablePred OpenSucceeds
  | .runTask fd => inferInstanceAs (Decidable (0 ≤ fd))
  | .event _ => isTrue trivial
  | .wakeWord => isTrue trivial
  | .network _ => isTrue trivial
  | .micMute => isTrue trivial
  | .restart => isTrue trivial
  | .waitStart => isTrue trivial

/-- A wake word that is answered finds no close task in the queue. -/
def NoAnswerBehindClose (s : State) (a : Action) : Prop :=
  a = .wakeWord → Listening s → ¬ (s.forwarding = true ∧ s.inThinking = true) →
    Task.closeFifo ∉ s.executor.tasks

theorem cons_eq_replicate {α : Type*} {x b : α} {xs : List α} {n : ℕ}
    (h : x :: xs = List.replicate n b) : x = b ∧ ∃ k, xs = List.replicate k b := by
  rcases n with _ | n
  · cases h
  · obtain ⟨hx, hxs⟩ := List.cons.inj h
    exact ⟨hx, n, hxs⟩

theorem cons_eq_replicate_append {α : Type*} {x a b : α} {xs : List α} {m n : ℕ}
    (h : x :: xs = List.replicate m a ++ List.replicate n b) :
    (x = a ∧ ∃ k, xs = List.replicate k a ++ List.replicate n b) ∨
      x = b ∧ ∃ k, xs = List.replicate k b := by
  rcases m with _ | m
  · exact Or.inr (cons_eq_replicate h)
  · obtain ⟨hx, hxs⟩ := List.cons.inj h
    exact Or.inl ⟨hx, m, hxs⟩

/-- The queue holds a start at its front only, then dialog starts, then closes;
dialog starts are there only behind a start or while the FIFO is open. -/
inductive DialogInv (c : Capture) : Prop
  | stopped (hf : c.forwarding = false) (hd : c.fifos = []) (n : ℕ)
      (hq : c.tasks = List.replicate n .closeFifo)
  | starting (hf : c.forwarding = true) (hd : c.fifos = []) (m n : ℕ)
      (hq : c.tasks =
        .startForward :: (List.replicate m .restartDialog ++ List.replicate n .closeFifo))
  | running (hf : c.forwarding = true) (hd : c.fifos = [c.fdAudio]) (m n : ℕ)
      (hq : c.tasks = List.replicate m .restartDialog ++ List.replicate n .closeFifo)

theorem dialogInv_init : DialogInv (capture init) := DialogInv.stopped rfl rfl 0 rfl

theorem DialogInv.close {c : Capture} (hinv : DialogInv c) :
    DialogInv { c with tasks := c.tasks ++ [.closeFifo] } := by
  cases hinv with
  | stopped hf hd n hq =>
    refine DialogInv.stopped hf hd (n + 1) ?_
    rw [List.replicate_succ', ← hq]
  | starting hf hd m n hq =>
    refine DialogInv.starting hf hd m (n + 1) ?_
    rw [List.replicate_succ', ← List.append_assoc, ← List.cons_append, ← hq]
  | running hf hd m n hq =>
    refine DialogInv.running hf hd m (n + 1) ?_
    rw [List.replicate_succ', ← List.append_assoc, ← hq]

/-- A queue without closes takes another dialog start. -/
theorem DialogInv.restart {c : Capture} (hinv : DialogInv c) (hf : c.forwarding = true)
    (hclose : .closeFifo ∉ c.tasks) :
    DialogInv { c with tasks := c.tasks ++ [.restartDialog] } := by
  have hzero : ∀ {ts : List Task} {n : ℕ}, .closeFifo ∉ ts ++ List.replicate n .closeFifo →
      n = 0 := by
    intro ts n h
    rcases n with _ | n
    · rfl
    · exact absurd (List.mem_append_right ts (List.mem_cons_self)) h
  cases hinv with
  | stopped hf' => cases hf'.symm.trans hf
  | starting _ hd m n hq =>
    -- no closes are queued, so the new task joins the dialog starts
    rw [hq, ← List.cons_append] at hclose
    obtain rfl := hzero hclose
    refine DialogInv.starting hf hd (m + 1) 0 ?_
    rw [hq]
    simp [List.replicate_succ']
  | running _ hd m n hq =>
    rw [hq] at hclose
    obtain rfl := hzero hclose
    refine DialogInv.running hf hd (m + 1) 0 ?_
    rw [hq]
    simp [List.replicate_succ']

/-- A start at the front of the queue has dialog starts and closes behind it. -/
theorem DialogInv.of_start {c : Capture} (hinv : DialogInv c) {ts : List Task}
    (hq : c.tasks = .startForward :: ts) :
    c.forwarding = true ∧ c.fifos = [] ∧
      ∃ m n, ts = List.replicate m .restartDialog ++ List.replicate n .closeFifo := by
  cases hinv with
  | stopped _ _ n hq' =>
    have hfront := (cons_eq_replicate (hq.symm.trans hq')).1
    cases hfront
  | starting hf hd m n hq' => exact ⟨hf, hd, m, n, (List.cons.inj (hq.symm.trans hq')).2⟩
  | running _ _ m n hq' =>
    rcases cons_eq_replicate_append (hq.symm.trans hq') with ⟨hfront, -⟩ | ⟨hfront, -⟩
    · cases hfront
    · cases hfront

/-- A dialog start at the front of the queue finds the FIFO open. -/
theorem DialogInv.of_restart {c : Capture} (hinv : DialogInv c) {ts : List Task}
    (hq : c.tasks = .restartDialog :: ts) :
    c.forwarding = true ∧ c.fifos = [c.fdAudio] ∧
      ∃ m n, ts = List.replicate m .restartDialog ++ List.replicate n .closeFifo := by
  cases hinv with
  | stopped _ _ n hq' =>
    have hfront := (cons_eq_replicate (hq.symm.trans hq')).1
    cases hfront
  | starting _ _ m n hq' =>
    have hfront := (List.cons.inj (hq.symm.trans hq')).1
    cases hfront
  | running hf hd m n hq' =>
    rcases cons_eq_replicate_append (hq.symm.trans hq') with ⟨-, k, hts⟩ | ⟨hfront, -⟩
    · exact ⟨hf, hd, k, n, hts⟩
    · cases hfront

/-- A close at the front of the queue has only closes behind it. -/
theorem DialogInv.of_close {c : Capture} (hinv : DialogInv c) {ts : List Task}
    (hq : c.tasks = .closeFifo :: ts) :
    ((c.forwarding = false ∧ c.fifos = []) ∨ c.forwarding = true ∧ c.fifos = [c.fdAudio]) ∧
      ∃ n, ts = List.replicate n .closeFifo := by
  cases hinv with
  | stopped hf hd n hq' => exact ⟨Or.inl ⟨hf, hd⟩, (cons_eq_replicate (hq.symm.trans hq')).2⟩
  | starting _ _ m n hq' =>
    have hfront := (List.cons.inj (hq.symm.trans hq')).1
    cases hfront
  | running hf hd m n hq' =>
    rcases cons_eq_replicate_append (hq.symm.trans hq') with ⟨hfront, -⟩ | ⟨-, hts⟩
    · cases hfront
    · exact ⟨Or.inr ⟨hf, hd⟩, hts⟩

theorem dialogInv_step {c : Capture} (hinv : DialogInv (capture s)) (hopen : OpenSucceeds a)
    (hclean : NoAnswerBehindClose s a) (h : CaptureStep s a c) : DialogInv c := by
  cases h with
  | skip => exact hinv
  | close => exact hinv.close
  | restart ha hs hf ht =>
    have hanswer : ¬ (s.forwarding = true ∧ s.inThinking = true) := by simp [ht]
    exact hinv.restart hf (hclean ha hs hanswer)
  | start ha hs hf =>
    have hanswer : ¬ (s.forwarding = true ∧ s.inThinking = true) := by simp [hf]
    have hclose := hclean ha hs hanswer
    cases hinv with
    | stopped _ hd n hq =>
      -- the queue is empty
      rw [capture_tasks] at hq
      rcases n with _ | n
      · refine DialogInv.starting rfl hd 0 0 ?_
        rw [hq]
        rfl
      · rw [hq] at hclose
        exact absurd List.mem_cons_self hclose
    | starting hf' => cases hf.symm.trans hf'
    | running hf' => cases hf.symm.trans hf'
  | runClose ts hq hf =>
    obtain ⟨⟨hf', -⟩ | ⟨-, hd⟩, n, hts⟩ := hinv.of_close hq
    · cases hf'.symm.trans hf
    · rw [capture_fifos, capture_fdAudio] at hd
      refine DialogInv.stopped rfl ?_ n hts
      show s.fifos.erase s.fdAudio = []
      rw [hd, List.erase_cons_head]
  | runCloseSkip ts hq hf =>
    obtain ⟨⟨-, hd⟩ | ⟨hf', -⟩, n, hts⟩ := hinv.of_close hq
    · exact DialogInv.stopped hf hd n hts
    · cases hf.symm.trans hf'
  | runStart fd ts _ hq _ =>
    obtain ⟨hf, hd, m, n, hq'⟩ := hinv.of_start hq
    refine DialogInv.running hf ?_ m n hq'
    rw [capture_fifos] at hd
    show fd :: s.fifos = [fd]
    rw [hd]
  | runStartFails ts ha hq =>
    rw [ha] at hopen
    exact absurd hopen (by decide)
  | runRestart ts hq =>
    obtain ⟨hf, hd, m, n, hq'⟩ := hinv.of_restart hq
    exact DialogInv.running hf hd m n hq'

/-- What a step sends. -/
theorem sent_step (h : step s a = some u) :
    (∃ m, u.sent = s.sent ++ m ∧ .doDialogStart fifoPath ∉ m) ∨
      ∃ fd, a = .runTask fd ∧ runTask s fd = some u := by
  cases a with
  | event e => exact Or.inl ⟨_, sent_handle h, doDialogStart_not_mem_sends e⟩
  | wakeWord => exact Or.inl ⟨[], by rw [(onWakeWord_frame h).1, List.append_nil], by simp⟩
  | runTask fd => exact Or.inr ⟨fd, rfl, h⟩
  | network ok =>
    rw [step, Option.some.injEq, onNetworkStatusChanged] at h
    split at h
    · exact Or.inl ⟨[.doStart], by rw [← h]; rfl, by simp⟩
    · exact Or.inl ⟨[.doStop], by rw [← h]; rfl, by simp⟩
  | micMute | restart | waitStart =>
    rw [step, Option.some.injEq] at h
    exact Or.inl ⟨[], by rw [← h, List.append_nil], by simp⟩

/-- A step that sends DO_DIALOG_START runs one of the two tasks of the wake
word. -/
theorem front_of_sends (h : step s a = some u) (hsend : SendsDialogStart s u) :
    ∃ fd ts, a = .runTask fd ∧
      (s.executor.tasks = .startForward :: ts ∨ s.executor.tasks = .restartDialog :: ts) := by
  rw [SendsDialogStart] at hsend
  rcases sent_step h with ⟨m, hm, hnot⟩ | ⟨fd, rfl, hrun⟩
  · rw [hm] at hsend
    refine absurd ?_ hnot
    rw [List.append_cancel_left hsend]
    exact List.mem_singleton_self _
  · obtain ⟨t, e, hq, ht⟩ := runTask_cases hrun
    cases t with
    | closeFifo =>
      -- a close sends nothing
      obtain rfl : u = _ := ht
      rw [sent_closeFifoTask] at hsend
      exact absurd hsend (by simp)
    | startForward => exact ⟨fd, e.tasks, rfl, Or.inl hq⟩
    | restartDialog => exact ⟨fd, e.tasks, rfl, Or.inr hq⟩

theorem feeding_of_sends (hinv : DialogInv (capture s)) (hopen : OpenSucceeds a)
    (h : step s a = some u) (hsend : SendsDialogStart s u) : Feeding u := by
  obtain ⟨fd, ts, rfl, hfront⟩ := front_of_sends h hsend
  show (capture u).forwarding = true ∧ (capture u).fdAudio ∈ (capture u).fifos
  have hstep := capture_step h
  generalize capture u = c at hstep ⊢
  cases hstep with
  | skip ha => exact absurd rfl (ha fd)
  | close ha => exact absurd rfl (ha fd)
  | restart ha => cases ha
  | start ha => cases ha
  | runClose ts' hq =>
    rw [hq] at hfront
    rcases hfront with h | h
    all_goals cases h
  | runCloseSkip ts' hq =>
    rw [hq] at hfront
    rcases hfront with h | h
    all_goals cases h
  | runStart fd' ts' ha hq _ => exact ⟨(hinv.of_start hq).1, List.mem_cons_self⟩
  | runStartFails ts' ha hq =>
    rw [ha] at hopen
    exact absurd hopen (by decide)
  | runRestart ts' hq =>
    obtain ⟨hf, hd, -⟩ := hinv.of_restart hq
    refine ⟨hf, ?_⟩
    rw [capture_fifos] at hd
    show s.fdAudio ∈ s.fifos
    rw [hd]
    exact List.mem_cons_self

/-- **No dialog is started without audio**, in the runs in which `open` succeeds
and no wake word is answered behind a queued close. -/
theorem dialog_has_audio (h : Run step init tr s) (hopen : ∀ p ∈ tr, OpenSucceeds p.2)
    (hclean : ∀ p ∈ tr, NoAnswerBehindClose p.1 p.2) :
    ∀ p ∈ tr, ∀ u, step p.1 p.2 = some u → SendsDialogStart p.1 u → Feeding u := by
  intro p hp u hu hsend
  have hinv : DialogInv (capture p.1) := by
    refine Run.states_of (I := fun s => DialogInv (capture s))
      (C := fun s a => OpenSucceeds a ∧ NoAnswerBehindClose s a) dialogInv_init ?_ h ?_ p hp
    · intro t a u hinv hC hstep
      exact dialogInv_step hinv hC.1 hC.2 (capture_step hstep)
    · exact fun q hq => ⟨hopen q hq, hclean q hq⟩
  exact feeding_of_sends hinv (hopen p hp) hu hsend

instance (s : State) (a : Action) : Decidable (NoAnswerBehindClose s a) :=
  inferInstanceAs (Decidable (_ → _ → _ → _))

/-- Two wake words in one capture: both dialogs are started with audio. -/
theorem dialog_has_audio_twice :
    ∃ tr s, Run step init tr s ∧ s.sent = [.doStart, .doDialogStart fifoPath,
        .doDialogStart fifoPath] ∧
      ∀ p ∈ tr, ∀ u, step p.1 p.2 = some u → SendsDialogStart p.1 u → Feeding u := by
  have h : Run step init _ _ :=
    Run.of_exec [.network true, .event .dialogEnd, .wakeWord, .runTask 5, .wakeWord,
      .runTask 5] rfl
  exact ⟨_, _, h, rfl, dialog_has_audio h (by decide) (by decide)⟩

/-- **A dialog is started without audio**: a wake word behind a queued close is
answered with a start that opens nothing. -/
theorem dialog_without_audio_behind_close :
    ∃ tr s, Run step init tr s ∧ (∀ p ∈ tr, OpenSucceeds p.2) ∧
      ∃ p ∈ tr, SendsDialogStart p.1 s ∧ step p.1 p.2 = some s ∧ ¬ Feeding s := by
  have h : Run step init _ _ :=
    Run.of_exec [.network true, .event .dialogEnd, .wakeWord, .runTask 5, .event .dialogEnd,
      .wakeWord, .runTask 5, .runTask 5] rfl
  refine ⟨_, _, h, by decide, _, List.mem_of_getElem? (i := 7) rfl, rfl, rfl, ?_⟩
  rintro ⟨hf, -⟩
  cases hf

end MicAgent
