/-
PCMPlayer: its destructor and the tasks of its executor.

The destructor aborts and closes the stream before it quits the executor, and
leaves `m_paStream` as it is.  The executor runs every task that is queued before
its worker ends, so that whatever is left at the close is called on a closed
stream.  A finished callback that `Pa_CloseStream` makes itself is counted before
the close: what it enqueues is left there too.

* `PcmClose.step` — a step of the destructor or of the worker, or the finished
  callback;
* `PcmClose.late_step` — behind the close: what has been called too late, or
  still will be;
* `PcmClose.no_late_calls` — **the runs without a call on the closed stream**.
-/
import IflyosSDK.ThreadPool
import IflyosSDK.Runs

namespace MicAgent

/-- PortAudio's functions that the player calls here. -/
inductive PaCall
  | startStream
  | stopStream
  | isStreamStopped
  | abortStream
  | closeStream
  | terminate
  deriving DecidableEq, Repr

/-- The calls that the tasks make on the stream. -/
def PaCall.OnStream : PaCall → Prop
  | .startStream | .stopStream | .isStreamStopped => True
  | .abortStream | .closeStream | .terminate => False

instance : (c : PaCall) → Decidable c.OnStream
  | .startStream | .stopStream | .isStreamStopped => isTrue trivial
  | .abortStream | .closeStream | .terminate => isFalse id

/-- The lambdas of `play`, of `stop` and of the finished callback. -/
inductive StreamTask
  | play
  | stop
  | finished
  deriving DecidableEq, Repr

/-- The next call of a running task: its first one, or that of the task of `stop`
behind a `Pa_IsStreamStopped` that was not 1. -/
inductive StreamTaskAt
  | entered (t : StreamTask)
  | stopping
  deriving DecidableEq, Repr

/-- Where the worker stands: in the pool's loop, in a task, or behind its end. -/
inductive StreamWorker
  | waiting
  | running (t : StreamTaskAt)
  | exited
  deriving DecidableEq, Repr

/-- The next step of the destructor. -/
inductive DestructorAt
  | abort
  | close
  | terminate
  | safeQuit
  | join
  | done
  deriving DecidableEq, Repr

/-- The player with its destructor; `paStream` says that `m_paStream` is not
null, and `log` holds PortAudio's calls. -/
structure PcmClose where
  paStream : Bool
  executor : ThreadPool StreamTask
  worker : StreamWorker
  destructor : DestructorAt
  log : List PaCall
  deriving DecidableEq, Repr

namespace PcmClose

/-- The destructor begins; any tasks are queued, and one may be running. -/
def start (paStream : Bool) (tasks : List StreamTask) (running : Option StreamTaskAt) : PcmClose :=
  ⟨paStream, ⟨tasks, false⟩, running.elim .waiting .running, .abort, []⟩

/-- `stopped` is what `Pa_IsStreamStopped` would say. -/
inductive Action
  | destructor
  | work (stopped : Bool)
  | finishedCallback
  deriving DecidableEq, Repr

variable (s : PcmClose)

def call (c : PaCall) : PcmClose := { s with log := s.log ++ [c] }

/-- `~PCMPlayer`. -/
def destruct : Option PcmClose :=
  match s.destructor with
  | .abort =>
    if s.paStream then some { s.call .abortStream with destructor := .close }
    else some { s with destructor := .safeQuit }
  | .close => some { s.call .closeStream with destructor := .terminate }
  | .terminate => some { s.call .terminate with destructor := .safeQuit }
  | .safeQuit =>
    some { s with executor := { s.executor with quit := true }, destructor := .join }
  | .join => if s.worker = .exited then some { s with destructor := .done } else none
  | .done => none

/-- The next call of a task, and where the task stands behind it. -/
def runTask (stopped : Bool) : StreamTaskAt → PcmClose
  | .entered .play => { s.call .startStream with worker := .waiting }
  | .entered .stop =>
    if ¬ s.paStream then { s with worker := .waiting }
    else
      { s.call .isStreamStopped with worker := if stopped then .waiting else .running .stopping }
  | .stopping => { s.call .stopStream with worker := .waiting }
  | .entered .finished =>
    if s.paStream then { s.call .stopStream with worker := .waiting }
    else { s with worker := .waiting }

/-- The worker's loop. -/
def work (stopped : Bool) : Option PcmClose :=
  match s.worker with
  | .waiting =>
    match s.executor.take with
    | some (t, q) => some { s with executor := q, worker := .running (.entered t) }
    | none => if s.executor.quit then some { s with worker := .exited } else none
  | .running t => some (s.runTask stopped t)
  | .exited => none

/-- `PaStreamFinishedCallback`, which PortAudio calls on an open stream: when it
has played the last buffer, is aborted, or is about to be closed. -/
def finishedCallback : Option PcmClose :=
  if s.paStream ∧ (s.destructor = .abort ∨ s.destructor = .close) then
    (s.executor.enqueue .finished).map fun e => { s with executor := e }
  else none

def step (s : PcmClose) : Action → Option PcmClose
  | .destructor => s.destruct
  | .work stopped => s.work stopped
  | .finishedCallback => s.finishedCallback

/-- A task has called PortAudio on the stream behind `Pa_CloseStream`. -/
def CalledLate (log : List PaCall) : Prop :=
  ∃ l l' c, log = l ++ .closeStream :: l' ∧ c ∈ l' ∧ c.OnStream

/-- A task is queued, or the running one has a call left. -/
def Pending : Prop := s.executor.tasks ≠ [] ∨ ∃ t, s.worker = .running t

instance : (w : StreamWorker) → Decidable (∃ t, w = .running t)
  | .waiting => isFalse fun ⟨_, h⟩ => StreamWorker.noConfusion h
  | .running t => isTrue ⟨t, rfl⟩
  | .exited => isFalse fun ⟨_, h⟩ => StreamWorker.noConfusion h

instance : Decidable s.Pending := inferInstanceAs (Decidable (_ ∨ _))

/-- The step is `Pa_CloseStream`. -/
def Closes (p : PcmClose × Action) : Prop := p.2 = .destructor ∧ p.1.destructor = .close

instance (p : PcmClose × Action) : Decidable (Closes p) := inferInstanceAs (Decidable (_ ∧ _))

variable {s} {u : PcmClose} {a : Action} {c : PaCall} {log : List PaCall}
  {tr : List (PcmClose × Action)} {paStream stopped : Bool} {tasks : List StreamTask}
  {running : Option StreamTaskAt}

/-! ### The calls behind the close -/

theorem calledLate_snoc :
    CalledLate (log ++ [c]) ↔ CalledLate log ∨ PaCall.closeStream ∈ log ∧ c.OnStream := by
  constructor
  · rintro ⟨l, l', c', hlog, hc', hon⟩
    rcases List.eq_nil_or_concat l' with rfl | ⟨l', d, rfl⟩
    · cases hc'
    · rw [List.concat_eq_append, ← List.cons_append, ← List.append_assoc] at hlog
      obtain ⟨rfl, hd⟩ := List.append_inj' hlog rfl
      obtain rfl := List.singleton_inj.mp hd
      rw [List.concat_eq_append, List.mem_append, List.mem_singleton] at hc'
      rcases hc' with hc' | rfl
      · exact Or.inl ⟨l, l', c', rfl, hc', hon⟩
      · exact Or.inr ⟨by simp, hon⟩
  · rintro (⟨l, l', c', rfl, hc', hon⟩ | ⟨hclose, hon⟩)
    · exact ⟨l, l' ++ [c], c', by simp, List.mem_append_left _ hc', hon⟩
    · obtain ⟨l, l', rfl⟩ := List.append_of_mem hclose
      exact ⟨l, l' ++ [c], c, by simp, by simp, hon⟩

theorem closeStream_mem_of_calledLate (h : CalledLate log) : PaCall.closeStream ∈ log := by
  obtain ⟨l, l', c, rfl, -, -⟩ := h
  simp

/-! ### One step -/

/-- A step of the destructor. -/
theorem destruct_cases (h : s.destruct = some u) :
    (s.destructor = .abort ∧ s.paStream = true ∧
        u = { s.call .abortStream with destructor := .close }) ∨
      (s.destructor = .abort ∧ s.paStream = false ∧ u = { s with destructor := .safeQuit }) ∨
      (s.destructor = .close ∧ u = { s.call .closeStream with destructor := .terminate }) ∨
      (s.destructor = .terminate ∧ u = { s.call .terminate with destructor := .safeQuit }) ∨
      (s.destructor = .safeQuit ∧
        u = { s with executor := { s.executor with quit := true }, destructor := .join }) ∨
      (s.destructor = .join ∧ s.worker = .exited ∧ u = { s with destructor := .done }) := by
  rw [destruct] at h
  split at h
  · rename_i hat
    split at h
    · rename_i hstream
      exact Or.inl ⟨hat, hstream, (Option.some.inj h).symm⟩
    · rename_i hstream
      exact Or.inr (Or.inl ⟨hat, Bool.eq_false_iff.mpr hstream, (Option.some.inj h).symm⟩)
  · rename_i hat
    exact Or.inr (Or.inr (Or.inl ⟨hat, (Option.some.inj h).symm⟩))
  · rename_i hat
    exact Or.inr (Or.inr (Or.inr (Or.inl ⟨hat, (Option.some.inj h).symm⟩)))
  · rename_i hat
    exact Or.inr (Or.inr (Or.inr (Or.inr (Or.inl ⟨hat, (Option.some.inj h).symm⟩))))
  · rename_i hat
    split at h
    · rename_i hexited
      exact Or.inr (Or.inr (Or.inr (Or.inr (Or.inr ⟨hat, hexited, (Option.some.inj h).symm⟩))))
    · cases h
  · cases h

/-- A step of a task makes a call on the stream, or none when there is no stream. -/
theorem runTask_cases (s : PcmClose) (stopped : Bool) (t : StreamTaskAt) :
    (∃ c w, c.OnStream ∧ w ≠ .exited ∧ s.runTask stopped t = { s.call c with worker := w }) ∨
      (s.paStream = false ∧ s.runTask stopped t = { s with worker := .waiting }) := by
  cases t with
  | stopping => exact Or.inl ⟨.stopStream, .waiting, trivial, StreamWorker.noConfusion, rfl⟩
  | entered t =>
    cases t with
    | play => exact Or.inl ⟨.startStream, .waiting, trivial, StreamWorker.noConfusion, rfl⟩
    | stop =>
      rw [runTask]
      split
      · rename_i hstream
        exact Or.inr ⟨Bool.eq_false_iff.mpr hstream, rfl⟩
      · refine Or.inl ⟨.isStreamStopped, _, trivial, ?_, rfl⟩
        cases stopped <;> exact StreamWorker.noConfusion
    | finished =>
      rw [runTask]
      split
      · exact Or.inl ⟨.stopStream, .waiting, trivial, StreamWorker.noConfusion, rfl⟩
      · rename_i hstream
        exact Or.inr ⟨Bool.eq_false_iff.mpr hstream, rfl⟩

/-- What a step of the worker's loop does. -/
theorem work_cases (h : s.work stopped = some u) :
    (∃ t q, s.worker = .waiting ∧ s.executor.take = some (t, q) ∧
        u = { s with executor := q, worker := .running (.entered t) }) ∨
      (s.worker = .waiting ∧ s.executor.tasks = [] ∧ s.executor.quit = true ∧
        u = { s with worker := .exited }) ∨
      ∃ t, s.worker = .running t ∧ u = s.runTask stopped t := by
  rw [work] at h
  split at h
  · rename_i hwaiting
    split at h
    · rename_i t q htake
      exact Or.inl ⟨t, q, hwaiting, htake, (Option.some.inj h).symm⟩
    · rename_i htake
      split at h
      · rename_i hquit
        exact Or.inr (Or.inl ⟨hwaiting, ThreadPool.tasks_of_take_none htake, hquit,
          (Option.some.inj h).symm⟩)
      · cases h
  · rename_i t hrunning
    exact Or.inr (Or.inr ⟨t, hrunning, (Option.some.inj h).symm⟩)
  · cases h

theorem finishedCallback_cases (h : s.finishedCallback = some u) :
    (s.destructor = .abort ∨ s.destructor = .close) ∧
      ∃ e, s.executor.enqueue .finished = some e ∧ u = { s with executor := e } := by
  rw [finishedCallback] at h
  split at h
  · rename_i hopen
    obtain ⟨e, he, rfl⟩ := Option.map_eq_some_iff.mp h
    exact ⟨hopen.2, e, he, rfl⟩
  · cases h

/-! ### Up to the close, and behind it -/

/-- The stream has not been closed. -/
structure Early (s : PcmClose) : Prop where
  log : PaCall.closeStream ∉ s.log
  opened : s.destructor = .close → s.paStream = true

/-- The stream has been closed. -/
structure Late (s : PcmClose) : Prop where
  log : PaCall.closeStream ∈ s.log
  opened : s.paStream = true
  not_abort : s.destructor ≠ .abort
  not_close : s.destructor ≠ .close

/-- A call has been made too late, or will be. -/
def Due (s : PcmClose) : Prop := CalledLate s.log ∨ s.Pending

/-- A call that is not the close. -/
theorem Early.log_call (hearly : Early s) (hc : c ≠ .closeStream) :
    PaCall.closeStream ∉ (s.call c).log := by
  show PaCall.closeStream ∉ s.log ++ [c]
  rw [List.mem_append, List.mem_singleton, not_or]
  exact ⟨hearly.log, hc.symm⟩

theorem early_step (hearly : Early s) (hcloses : ¬ Closes (s, a)) (h : step s a = some u) :
    Early u := by
  cases a with
  | destructor =>
    rcases destruct_cases h with ⟨-, hstream, rfl⟩ | ⟨-, -, rfl⟩ | ⟨hclose, -⟩ | ⟨-, rfl⟩ |
      ⟨-, rfl⟩ | ⟨-, -, rfl⟩
    · exact ⟨hearly.log_call PaCall.noConfusion, fun _ => hstream⟩
    · exact ⟨hearly.log, DestructorAt.noConfusion⟩
    · exact absurd ⟨rfl, hclose⟩ hcloses
    · exact ⟨hearly.log_call PaCall.noConfusion, DestructorAt.noConfusion⟩
    · exact ⟨hearly.log, DestructorAt.noConfusion⟩
    · exact ⟨hearly.log, DestructorAt.noConfusion⟩
  | work stopped =>
    rcases work_cases h with ⟨t, q, -, -, rfl⟩ | ⟨-, -, -, rfl⟩ | ⟨t, -, rfl⟩
    · exact ⟨hearly.log, hearly.opened⟩
    · exact ⟨hearly.log, hearly.opened⟩
    · rcases s.runTask_cases stopped t with ⟨c, w, hon, -, htask⟩ | ⟨-, htask⟩
      · have hc : c ≠ .closeStream := by
          rintro rfl
          exact hon
        rw [htask]
        exact ⟨hearly.log_call hc, hearly.opened⟩
      · rw [htask]
        exact ⟨hearly.log, hearly.opened⟩
  | finishedCallback =>
    obtain ⟨-, e, -, rfl⟩ := finishedCallback_cases h
    exact ⟨hearly.log, hearly.opened⟩

/-- The close. -/
theorem close_step (hearly : Early s) (hcloses : Closes (s, a)) (h : step s a = some u) :
    Late u ∧ (Due u ↔ s.Pending) := by
  obtain ⟨ha, hclose⟩ := hcloses
  obtain rfl : a = .destructor := ha
  have hclose : s.destructor = .close := hclose
  rw [step, destruct, hclose] at h
  rw [← Option.some.inj h]
  refine ⟨⟨?_, hearly.opened hclose, DestructorAt.noConfusion, DestructorAt.noConfusion⟩, ?_⟩
  · show PaCall.closeStream ∈ s.log ++ [PaCall.closeStream]
    simp
  · refine or_iff_right fun hlate => ?_
    rcases calledLate_snoc.mp hlate with hlate | ⟨-, hon⟩
    · exact hearly.log (closeStream_mem_of_calledLate hlate)
    · exact hon

/-- **Behind the close a step makes the calls that are due, and no other becomes
due.** -/
theorem late_step (hlate : Late s) (h : step s a = some u) : Late u ∧ (Due u ↔ Due s) := by
  cases a with
  | destructor =>
    rcases destruct_cases h with ⟨habort, -, -⟩ | ⟨habort, -, -⟩ | ⟨hclose, -⟩ | ⟨-, rfl⟩ |
      ⟨-, rfl⟩ | ⟨-, -, rfl⟩
    · exact absurd habort hlate.not_abort
    · exact absurd habort hlate.not_abort
    · exact absurd hclose hlate.not_close
    · refine ⟨⟨List.mem_append_left _ hlate.log, hlate.opened, DestructorAt.noConfusion,
        DestructorAt.noConfusion⟩, or_congr ?_ Iff.rfl⟩
      show CalledLate (s.log ++ [PaCall.terminate]) ↔ _
      rw [calledLate_snoc]
      exact or_iff_left fun hon => hon.2
    · exact ⟨⟨hlate.log, hlate.opened, DestructorAt.noConfusion, DestructorAt.noConfusion⟩,
        Iff.rfl⟩
    · exact ⟨⟨hlate.log, hlate.opened, DestructorAt.noConfusion, DestructorAt.noConfusion⟩,
        Iff.rfl⟩
  | work stopped =>
    rcases work_cases h with ⟨t, q, -, htake, rfl⟩ | ⟨hwaiting, htasks, -, rfl⟩ | ⟨t, ht, rfl⟩
    · -- a task is taken from the queue
      have hqueued : s.executor.tasks ≠ [] := by
        rw [ThreadPool.tasks_of_take htake]
        exact List.cons_ne_nil _ _
      exact ⟨⟨hlate.log, hlate.opened, hlate.not_abort, hlate.not_close⟩,
        iff_of_true (Or.inr (Or.inr ⟨_, rfl⟩)) (Or.inr (Or.inl hqueued))⟩
    · -- the worker ends
      refine ⟨⟨hlate.log, hlate.opened, hlate.not_abort, hlate.not_close⟩,
        or_congr Iff.rfl (or_congr Iff.rfl ?_)⟩
      rw [hwaiting]
      exact iff_of_false (fun ⟨_, hrunning⟩ => StreamWorker.noConfusion hrunning)
        (fun ⟨_, hrunning⟩ => StreamWorker.noConfusion hrunning)
    · -- the running task makes its call, on a closed stream
      rcases s.runTask_cases stopped t with ⟨c, w, hon, -, htask⟩ | ⟨hnull, -⟩
      · rw [htask]
        exact ⟨⟨List.mem_append_left _ hlate.log, hlate.opened, hlate.not_abort,
          hlate.not_close⟩,
          iff_of_true (Or.inl (calledLate_snoc.mpr (Or.inr ⟨hlate.log, hon⟩)))
            (Or.inr (Or.inr ⟨t, ht⟩))⟩
      · exact absurd hlate.opened (by simp [hnull])
  | finishedCallback =>
    obtain ⟨hopen, -⟩ := finishedCallback_cases h
    rcases hopen with habort | hclose
    · exact absurd habort hlate.not_abort
    · exact absurd hclose hlate.not_close

/-! ### The end -/

/-- The worker ends with an empty queue, and the destructor behind it. -/
structure Ended (s : PcmClose) : Prop where
  exited : s.worker = .exited → s.executor.tasks = [] ∧ s.executor.quit = true
  done : s.destructor = .done → s.worker = .exited

theorem ended_step (hended : Ended s) (h : step s a = some u) : Ended u := by
  cases a with
  | destructor =>
    rcases destruct_cases h with ⟨-, -, rfl⟩ | ⟨-, -, rfl⟩ | ⟨-, rfl⟩ | ⟨-, rfl⟩ | ⟨-, rfl⟩ |
      ⟨-, hexited, rfl⟩
    · exact ⟨hended.exited, DestructorAt.noConfusion⟩
    · exact ⟨hended.exited, DestructorAt.noConfusion⟩
    · exact ⟨hended.exited, DestructorAt.noConfusion⟩
    · exact ⟨hended.exited, DestructorAt.noConfusion⟩
    · exact ⟨fun hexited => ⟨(hended.exited hexited).1, rfl⟩, DestructorAt.noConfusion⟩
    · exact ⟨hended.exited, fun _ => hexited⟩
  | work stopped =>
    rcases work_cases h with ⟨t, q, hwaiting, -, rfl⟩ | ⟨-, htasks, hquit, rfl⟩ | ⟨t, ht, rfl⟩
    · refine ⟨StreamWorker.noConfusion, fun hdone => ?_⟩
      rw [hended.done hdone] at hwaiting
      cases hwaiting
    · exact ⟨fun _ => ⟨htasks, hquit⟩, fun _ => rfl⟩
    · have hrunning : s.destructor ≠ .done := by
        intro hdone
        rw [hended.done hdone] at ht
        cases ht
      rcases s.runTask_cases stopped t with ⟨c, w, -, hw, htask⟩ | ⟨-, htask⟩
      · rw [htask]
        exact ⟨fun hexited => absurd hexited hw, fun hdone => absurd hdone hrunning⟩
      · rw [htask]
        exact ⟨StreamWorker.noConfusion, fun hdone => absurd hdone hrunning⟩
  | finishedCallback =>
    obtain ⟨-, e, he, rfl⟩ := finishedCallback_cases h
    refine ⟨fun hexited => ?_, hended.done⟩
    have hquit := (hended.exited hexited).2
    rw [(ThreadPool.quit_of_enqueue he).1] at hquit
    cases hquit

/-- Nothing is left when the destructor has returned. -/
theorem not_pending_of_done (hended : Ended s) (hdone : s.destructor = .done) : ¬ s.Pending := by
  have hexited := hended.done hdone
  rintro (htasks | ⟨t, ht⟩)
  · exact htasks (hended.exited hexited).1
  · rw [hexited] at ht
    cases ht

/-! ### Runs -/

theorem early_start (paStream : Bool) (tasks : List StreamTask) (running : Option StreamTaskAt) :
    Early (start paStream tasks running) :=
  ⟨List.not_mem_nil, DestructorAt.noConfusion⟩

theorem ended_start (paStream : Bool) (tasks : List StreamTask) (running : Option StreamTaskAt) :
    Ended (start paStream tasks running) := by
  refine ⟨fun hexited => ?_, DestructorAt.noConfusion⟩
  cases running <;> cases hexited

/-- The stream is closed once. -/
theorem early_or_late (h : Run step (start paStream tasks running) tr s) : Early s ∨ Late s := by
  refine h.invariant (I := fun t => Early t ∨ Late t)
    (Or.inl (early_start paStream tasks running)) fun t a u ht hu => ?_
  rcases ht with hearly | hlate
  · by_cases hcloses : Closes (t, a)
    · exact Or.inr (close_step hearly hcloses hu).1
    · exact Or.inl (early_step hearly hcloses hu)
  · exact Or.inr (late_step hlate hu).1

/-- What is pending at the close is what is due from then on. -/
theorem due_iff (h : Run step (start paStream tasks running) tr s) {p : PcmClose × Action}
    (hp : p ∈ tr) (hcloses : Closes p) : Due s ↔ p.1.Pending := by
  obtain ⟨tr₁, tr₂, rfl⟩ := List.append_of_mem hp
  obtain ⟨hbefore, u, hu, hafter⟩ := h.split
  have hearly : Early p.1 :=
    (early_or_late hbefore).resolve_right fun hlate => hlate.not_close hcloses.2
  have hkeep : ∀ t a v, (Late t ∧ (Due t ↔ p.1.Pending)) → step t a = some v →
      Late v ∧ (Due v ↔ p.1.Pending) := by
    rintro t a v ⟨hlate, hdue⟩ hv
    obtain ⟨hlate, hsame⟩ := late_step hlate hv
    exact ⟨hlate, hsame.trans hdue⟩
  exact (Run.invariant (I := fun t => Late t ∧ (Due t ↔ p.1.Pending))
    (close_step hearly hcloses hu) hkeep hafter).2

/-- Without a close there is no call behind it. -/
theorem not_calledLate_of_open (h : Run step (start paStream tasks running) tr s)
    (hopen : ∀ p ∈ tr, ¬ Closes p) : ¬ CalledLate s.log := by
  have hearly : Early s :=
    h.invariant_of (C := fun t a => ¬ Closes (t, a)) (early_start paStream tasks running)
      (fun _ _ _ ht ha hu => early_step ht ha hu) hopen
  exact fun hlate => hearly.log (closeStream_mem_of_calledLate hlate)

/-- **No call is made on the closed stream in a run that closes it when no task
is queued or running**, behind the callbacks of the close itself; and when the
destructor has returned, in no other. -/
theorem no_late_calls (h : Run step (start paStream tasks running) tr s) :
    ((∀ p ∈ tr, Closes p → ¬ p.1.Pending) → ¬ CalledLate s.log) ∧
      (s.destructor = .done → ¬ CalledLate s.log → ∀ p ∈ tr, Closes p → ¬ p.1.Pending) := by
  constructor
  · intro hquiet hlate
    refine not_calledLate_of_open h (fun p hp hcloses => ?_) hlate
    exact hquiet p hp hcloses ((due_iff h hp hcloses).mp (Or.inl hlate))
  · intro hdone hnone p hp hcloses hpending
    have hended : Ended s :=
      h.invariant (ended_start paStream tasks running) fun _ _ _ ht hu => ended_step ht hu
    rcases (due_iff h hp hcloses).mpr hpending with hlate | hleft
    · exact hnone hlate
    · exact not_pending_of_done hended hdone hleft

/-- The worker has started the stream, and stops it between the abort and the
close. -/
theorem no_late_calls_of_drained :
    ∃ tr s, Run step (start true [.play] none) tr s ∧ s.destructor = .done ∧
      ¬ CalledLate s.log := by
  have h : Run step (start true [.play] none) _ _ :=
    Run.of_exec [.work false, .work false, .destructor, .finishedCallback, .work false,
      .work false, .destructor, .destructor, .destructor, .work false, .destructor] rfl
  exact ⟨_, _, h, rfl, (no_late_calls h).1 (by decide)⟩

/-- A queued task of `play` starts the stream that has been closed. -/
theorem plays_on_closed_stream :
    ¬ ∀ (paStream : Bool) (tasks : List StreamTask) (running : Option StreamTaskAt)
      (tr : List (PcmClose × Action)) (s : PcmClose),
      Run step (start paStream tasks running) tr s → ¬ CalledLate s.log := by
  intro hall
  have h : Run step (start true [.play] none) _ _ :=
    Run.of_exec [.destructor, .destructor, .work false, .work false] rfl
  exact hall _ _ _ _ _ h ⟨[.abortStream], [.startStream], .startStream, rfl, by simp, trivial⟩

end PcmClose

end MicAgent
