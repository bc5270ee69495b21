/-
The pool of IFLYOSThreadPool with any number of workers.

A worker looks at `quit` and `tasks` under the lock.  It takes the front task,
returns, or waits for `condition`; `enqueue` and `safeQuit` notify behind the
lock, so that a notification may be late, and `wait` may wake without one.  One
step is a critical section, a notification, or the end of a task.

* `WorkerPool.step` — one step of a worker or of a caller;
* `WorkerPool.Inv` — who is awake while there is something to do;
* `WorkerPool.rank` — what the workers can still do by themselves;
* `WorkerPool.tasks_once` — the tasks begin in the order of `enqueue`, each of
  them once;
* `WorkerPool.drains` — **no task is forgotten**: there is no lost wake-up.
-/
import Mathlib.Algebra.Order.BigOperators.Group.Finset
import Mathlib.Data.Fintype.BigOperators
import IflyosSDK.Runs
import IflyosSDK.ThreadPool

/-- Where a worker thread stands in its loop. -/
inductive PoolWorker (τ : Type*)
  /-- In front of the lock, or woken up: it looks at `quit` and `tasks` next. -/
  | looking
  /-- In `condition.wait`. -/
  | waiting
  | running (t : τ)
  | returned
  deriving DecidableEq, Repr

namespace PoolWorker

variable {τ : Type*}

def isWaiting : PoolWorker τ → Bool
  | .waiting => true
  | .looking | .running _ | .returned => false

def wake : PoolWorker τ → PoolWorker τ
  | .waiting => .looking
  | w => w

theorem isWaiting_iff {w : PoolWorker τ} : w.isWaiting = true ↔ w = .waiting := by
  cases w <;> simp [isWaiting]

theorem wake_ne_waiting (w : PoolWorker τ) : w.wake ≠ .waiting := by
  cases w <;> simp [wake]

theorem wake_eq_returned_iff {w : PoolWorker τ} : w.wake = .returned ↔ w = .returned := by
  cases w <;> simp [wake]

theorem wake_eq_running_iff {w : PoolWorker τ} {t : τ} : w.wake = .running t ↔ w = .running t := by
  cases w <;> simp [wake]

end PoolWorker

/-- The pool, its workers, and the calls of `notify_one` and `notify_all` that
are still to come. -/
structure WorkerPool (τ : Type*) (n : ℕ) where
  queue : ThreadPool τ
  workers : Fin n → PoolWorker τ
  notifyOne : ℕ
  notifyAll : ℕ

namespace WorkerPool

variable {τ : Type*} {n : ℕ}

/-- The constructor has launched the workers. -/
def new (τ : Type*) (n : ℕ) : WorkerPool τ n := ⟨.new, fun _ => .looking, 0, 0⟩

inductive Action (τ : Type*) (n : ℕ)
  | enqueue (t : τ)
  | safeQuit
  /-- A `notify_one` that wakes this worker, or nobody. -/
  | notifyOne (woken : Option (Fin n))
  | notifyAll
  /-- `wait` wakes without a notification. -/
  | spurious (i : Fin n)
  | look (i : Fin n)
  /-- `task()` returns. -/
  | finish (i : Fin n)
  deriving DecidableEq

def put (s : WorkerPool τ n) (i : Fin n) (w : PoolWorker τ) : WorkerPool τ n :=
  { s with workers := Function.update s.workers i w }

/-- `enqueue` up to its `notify_one`; when it throws, nothing is changed. -/
def enqueue (t : τ) (s : WorkerPool τ n) : WorkerPool τ n :=
  match s.queue.enqueue t with
  | none => s
  | some q => { s with queue := q, notifyOne := s.notifyOne + 1 }

/-- `safeQuit` up to its `notify_all`. -/
def safeQuit (s : WorkerPool τ n) : WorkerPool τ n :=
  { s with queue := { s.queue with quit := true }, notifyAll := s.notifyAll + 1 }

def wakeOne (woken : Option (Fin n)) (s : WorkerPool τ n) : Option (WorkerPool τ n) :=
  if s.notifyOne = 0 then none
  else
    match woken with
    | some i =>
      if (s.workers i).isWaiting then
        some { s.put i .looking with notifyOne := s.notifyOne - 1 }
      else none
    -- one of the waiting workers is woken when there is one
    | none =>
      if ∃ i, (s.workers i).isWaiting then none
      else some { s with notifyOne := s.notifyOne - 1 }

def wakeAll (s : WorkerPool τ n) : Option (WorkerPool τ n) :=
  if s.notifyAll = 0 then none
  else some { s with workers := fun i => (s.workers i).wake, notifyAll := s.notifyAll - 1 }

def spurious (i : Fin n) (s : WorkerPool τ n) : Option (WorkerPool τ n) :=
  if (s.workers i).isWaiting then some (s.put i .looking) else none

/-- The worker's critical section. -/
def look (i : Fin n) (s : WorkerPool τ n) : Option (WorkerPool τ n) :=
  match s.workers i with
  | .looking =>
    match s.queue.take with
    | some (t, q) => some ({ s with queue := q }.put i (.running t))
    | none => some (s.put i (if s.queue.quit then .returned else .waiting))
  | .waiting | .running _ | .returned => none

def finish (i : Fin n) (s : WorkerPool τ n) : Option (WorkerPool τ n) :=
  match s.workers i with
  | .running _ => some (s.put i .looking)
  | .looking | .waiting | .returned => none

def step (s : WorkerPool τ n) : Action τ n → Option (WorkerPool τ n)
  | .enqueue t => some (s.enqueue t)
  | .safeQuit => some s.safeQuit
  | .notifyOne woken => s.wakeOne woken
  | .notifyAll => s.wakeAll
  | .spurious i => s.spurious i
  | .look i => s.look i
  | .finish i => s.finish i

/-! ### What a step does -/

inductive Step (s : WorkerPool τ n) : Action τ n → WorkerPool τ n → Prop
  | enqueued {t : τ} {q : ThreadPool τ} (h : s.queue.enqueue t = some q) :
      Step s (.enqueue t) { s with queue := q, notifyOne := s.notifyOne + 1 }
  | refused {t : τ} (h : s.queue.quit = true) : Step s (.enqueue t) s
  | quit : Step s .safeQuit s.safeQuit
  | woken {i : Fin n} (hpos : 0 < s.notifyOne) (hi : s.workers i = .waiting) :
      Step s (.notifyOne (some i)) { s.put i .looking with notifyOne := s.notifyOne - 1 }
  | nobody (hpos : 0 < s.notifyOne) (hnot : ∀ i, s.workers i ≠ .waiting) :
      Step s (.notifyOne none) { s with notifyOne := s.notifyOne - 1 }
  | all (hpos : 0 < s.notifyAll) :
      Step s .notifyAll
        { s with workers := fun i => (s.workers i).wake, notifyAll := s.notifyAll - 1 }
  | spurious {i : Fin n} (hi : s.workers i = .waiting) : Step s (.spurious i) (s.put i .looking)
  | took {i : Fin n} {t : τ} {q : ThreadPool τ} (hi : s.workers i = .looking)
      (h : s.queue.take = some (t, q)) :
      Step s (.look i) ({ s with queue := q }.put i (.running t))
  | waits {i : Fin n} (hi : s.workers i = .looking) (htasks : s.queue.tasks = [])
      (hquit : s.queue.quit = false) : Step s (.look i) (s.put i .waiting)
  | returns {i : Fin n} (hi : s.workers i = .looking) (htasks : s.queue.tasks = [])
      (hquit : s.queue.quit = true) : Step s (.look i) (s.put i .returned)
  | finished {i : Fin n} {t : τ} (hi : s.workers i = .running t) :
      Step s (.finish i) (s.put i .looking)

section Step

variable {s u : WorkerPool τ n} {a : Action τ n}

theorem wakeOne_cases {woken : Option (Fin n)} (h : s.wakeOne woken = some u) :
    Step s (.notifyOne woken) u := by
  unfold wakeOne at h
  by_cases hzero : s.notifyOne = 0
  · rw [if_pos hzero] at h
    cases h
  rw [if_neg hzero] at h
  have hpos : 0 < s.notifyOne := Nat.pos_of_ne_zero hzero
  cases woken with
  | some i =>
    dsimp only at h
    split_ifs at h with hi
    rw [← Option.some.inj h]
    exact .woken hpos (PoolWorker.isWaiting_iff.mp hi)
  | none =>
    dsimp only at h
    split_ifs at h with hnot
    rw [← Option.some.inj h]
    exact .nobody hpos fun i hi => hnot ⟨i, PoolWorker.isWaiting_iff.mpr hi⟩

theorem look_cases {i : Fin n} (h : s.look i = some u) : Step s (.look i) u := by
  rw [look] at h
  split at h
  · rename_i hi
    split at h
    · rename_i t q htake
      rw [← Option.some.inj h]
      exact .took hi htake
    · rename_i htake
      have htasks := ThreadPool.tasks_of_take_none htake
      rw [← Option.some.inj h]
      cases hquit : s.queue.quit with
      | true => exact .returns hi htasks hquit
      | false => exact .waits hi htasks hquit
  all_goals cases h

theorem step_cases (h : step s a = some u) : Step s a u := by
  cases a with
  | enqueue t =>
    rw [step, Option.some.injEq, enqueue] at h
    subst h
    split
    · rename_i hnone
      exact .refused (ThreadPool.quit_of_enqueue_none hnone)
    · rename_i q hq
      exact .enqueued hq
  | safeQuit =>
    rw [step, Option.some.injEq] at h
    subst h
    exact .quit
  | notifyOne woken => exact wakeOne_cases h
  | notifyAll =>
    rw [step, wakeAll] at h
    split_ifs at h with hpos
    rw [← Option.some.inj h]
    exact .all (Nat.pos_of_ne_zero hpos)
  | spurious i =>
    rw [step, WorkerPool.spurious] at h
    split_ifs at h with hi
    rw [← Option.some.inj h]
    exact .spurious (PoolWorker.isWaiting_iff.mp hi)
  | look i => exact look_cases h
  | finish i =>
    rw [step, finish] at h
    split at h
    · rename_i t hi
      rw [← Option.some.inj h]
      exact .finished hi
    all_goals cases h

end Step

/-! ### Who is awake -/

/-- The worker looks at the queue without being notified. -/
def Awake (w : PoolWorker τ) : Prop := w ≠ .waiting ∧ w ≠ .returned

/-- Nobody waits while there is something to do, unless a notification is on its
way. -/
structure Inv (s : WorkerPool τ n) : Prop where
  returned : ∀ i, s.workers i = .returned → s.queue.quit = true ∧ s.queue.tasks = []
  waiting : s.queue.quit = true → s.notifyAll = 0 → ∀ i, s.workers i ≠ .waiting
  awake : 0 < n → s.queue.tasks ≠ [] → s.notifyOne = 0 → ∃ i, Awake (s.workers i)

section Inv

variable {s u : WorkerPool τ n} {a : Action τ n}

theorem inv_new : Inv (new τ n) where
  returned i h := by cases h
  waiting h := by cases h
  awake _ h := absurd rfl h

@[simp]
theorem workers_put_self (i : Fin n) (w : PoolWorker τ) : (s.put i w).workers i = w := by
  simp [put]

theorem workers_put_of_ne {i j : Fin n} (w : PoolWorker τ) (h : j ≠ i) :
    (s.put i w).workers j = s.workers j := by
  simp [put, h]

theorem awake_looking : Awake (.looking : PoolWorker τ) := by simp [Awake]

theorem awake_running (t : τ) : Awake (.running t) := by simp [Awake]

theorem inv_enqueue {t : τ} {q : ThreadPool τ} (hinv : Inv s) (h : s.queue.enqueue t = some q) :
    Inv { s with queue := q, notifyOne := s.notifyOne + 1 } := by
  obtain ⟨hquit, hquit'⟩ := ThreadPool.quit_of_enqueue h
  refine ⟨fun i hi => ?_, fun hq => ?_, fun _ _ hzero => absurd hzero (Nat.succ_ne_zero _)⟩
  · have hreturned := (hinv.returned i hi).1
    rw [hquit] at hreturned
    cases hreturned
  · rw [show q.quit = true from hq] at hquit'
    cases hquit'

theorem inv_safeQuit (hinv : Inv s) : Inv s.safeQuit where
  returned i hi := ⟨rfl, (hinv.returned i hi).2⟩
  waiting _ hzero := absurd hzero (Nat.succ_ne_zero _)
  awake := hinv.awake

/-- A worker that goes on looking for a task, or runs one. -/
theorem inv_put {i : Fin n} {w : PoolWorker τ} (hinv : Inv s) (hw : Awake w) (k : ℕ) :
    Inv { s.put i w with notifyOne := k } := by
  refine ⟨fun j h => ?_, fun hquit hall j h => ?_, fun _ _ _ => ⟨i, ?_⟩⟩
  · by_cases hj : j = i
    · subst hj
      exact absurd ((workers_put_self j w).symm.trans h) hw.2
    · exact hinv.returned j ((workers_put_of_ne w hj).symm.trans h)
  · by_cases hj : j = i
    · subst hj
      exact hw.1 ((workers_put_self j w).symm.trans h)
    · exact hinv.waiting hquit hall j ((workers_put_of_ne w hj).symm.trans h)
  · show Awake ((s.put i w).workers i)
    rw [workers_put_self]
    exact hw

/-- A worker that finds nothing to do. -/
theorem inv_idle {i : Fin n} {w : PoolWorker τ} (hinv : Inv s) (htasks : s.queue.tasks = [])
    (hw : w = if s.queue.quit then .returned else .waiting) : Inv (s.put i w) := by
  refine ⟨fun j h => ⟨?_, htasks⟩, fun hquit hall j h => ?_, fun _ hne => absurd htasks hne⟩
  · by_cases hj : j = i
    · subst hj
      rw [workers_put_self, hw] at h
      show s.queue.quit = true
      by_contra hquit
      rw [if_neg hquit] at h
      cases h
    · exact (hinv.returned j ((workers_put_of_ne w hj).symm.trans h)).1
  · by_cases hj : j = i
    · subst hj
      have hquit : s.queue.quit = true := hquit
      rw [workers_put_self, hw, if_pos hquit] at h
      cases h
    · exact hinv.waiting hquit hall j ((workers_put_of_ne w hj).symm.trans h)

theorem inv_nobody (hinv : Inv s) (hnot : ∀ i, s.workers i ≠ .waiting) :
    Inv { s with notifyOne := s.notifyOne - 1 } := by
  refine ⟨hinv.returned, hinv.waiting, fun hn hne _ => ⟨⟨0, hn⟩, hnot _, fun hreturned => ?_⟩⟩
  exact hne (hinv.returned _ hreturned).2

theorem inv_wakeAll (hinv : Inv s) :
    Inv { s with workers := fun i => (s.workers i).wake, notifyAll := s.notifyAll - 1 } := by
  refine ⟨fun i hi => hinv.returned i (PoolWorker.wake_eq_returned_iff.mp hi),
    fun _ _ i => PoolWorker.wake_ne_waiting _, fun hn hne hzero => ?_⟩
  obtain ⟨i, hwaiting, hreturned⟩ := hinv.awake hn hne hzero
  refine ⟨i, PoolWorker.wake_ne_waiting _, fun h => hreturned ?_⟩
  exact PoolWorker.wake_eq_returned_iff.mp h

theorem inv_take {i : Fin n} {t : τ} {q : ThreadPool τ} (hinv : Inv s)
    (h : s.queue.take = some (t, q)) : Inv ({ s with queue := q }.put i (.running t)) := by
  have htasks := ThreadPool.tasks_of_take h
  have hq : Inv { s with queue := q } := by
    refine ⟨fun j hj => ?_, fun hquit => ?_, fun hn _ hzero => ?_⟩
    · have hnil := (hinv.returned j hj).2
      rw [htasks] at hnil
      cases hnil
    · exact hinv.waiting ((ThreadPool.quit_of_take h).symm.trans hquit)
    · exact hinv.awake hn (by rw [htasks]; exact List.cons_ne_nil t q.tasks) hzero
  exact inv_put hq (awake_running t) s.notifyOne

theorem inv_step (hinv : Inv s) (h : step s a = some u) : Inv u := by
  cases step_cases h with
  | enqueued henqueue => exact inv_enqueue hinv henqueue
  | refused => exact hinv
  | quit => exact inv_safeQuit hinv
  | woken _ _ => exact inv_put hinv awake_looking _
  | nobody _ hnot => exact inv_nobody hinv hnot
  | all _ => exact inv_wakeAll hinv
  | spurious _ => exact inv_put hinv awake_looking s.notifyOne
  | took _ htake => exact inv_take hinv htake
  | waits _ htasks hquit => exact inv_idle hinv htasks (by rw [hquit]; rfl)
  | returns _ htasks hquit => exact inv_idle hinv htasks (by rw [hquit]; rfl)
  | finished _ => exact inv_put hinv awake_looking s.notifyOne

/-- Only `safeQuit` quits. -/
theorem quit_eq_of_step (ha : a ≠ .safeQuit) (h : step s a = some u) :
    u.queue.quit = s.queue.quit := by
  cases step_cases h with
  | enqueued henqueue =>
    obtain ⟨hquit, hquit'⟩ := ThreadPool.quit_of_enqueue henqueue
    exact hquit'.trans hquit.symm
  | took _ htake => exact ThreadPool.quit_of_take htake
  | quit => exact absurd rfl ha
  | refused _ | woken _ _ | nobody _ _ | all _ | spurious _ | waits _ _ _ | returns _ _ _
  | finished _ => rfl

theorem quit_step (hquit : s.queue.quit = true) (h : step s a = some u) :
    u.queue.quit = true := by
  by_cases ha : a = .safeQuit
  · subst ha
    rw [← Option.some.inj h]
    rfl
  · exact (quit_eq_of_step ha h).trans hquit

/-- A worker that has returned takes no step. -/
theorem returned_step {i : Fin n} (hi : s.workers i = .returned) (h : step s a = some u) :
    u.workers i = .returned := by
  have hput : ∀ {j : Fin n} {w w' : PoolWorker τ}, s.workers j = w → w ≠ .returned →
      (s.put j w').workers i = .returned := by
    rintro j w w' rfl hw
    have hne : i ≠ j := by
      rintro rfl
      exact hw hi
    rw [workers_put_of_ne w' hne, hi]
  cases step_cases h with
  | enqueued _ | refused _ | quit | nobody _ _ => exact hi
  | all _ =>
    show (s.workers i).wake = .returned
    rw [hi]
    rfl
  | woken _ hj => exact hput hj (by simp)
  | spurious hj => exact hput hj (by simp)
  | took hj _ => exact hput hj (by simp)
  | waits hj _ _ => exact hput hj (by simp)
  | returns hj _ _ => exact hput hj (by simp)
  | finished hj => exact hput hj (by simp)

theorem inv_run {tr : List (WorkerPool τ n × Action τ n)} (h : Run step (new τ n) tr s) : Inv s :=
  h.invariant inv_new fun _ _ _ => inv_step

end Inv

/-! ### Coming to rest -/

/-- A step that the pool takes by itself. -/
def Own : Action τ n → Prop
  | .notifyOne _ | .notifyAll | .look _ | .finish _ => True
  | .enqueue _ | .safeQuit | .spurious _ => False

def workerRank : PoolWorker τ → ℕ
  | .returned | .waiting => 0
  | .looking => 1
  | .running _ => 2

/-- What the pool can still do by itself. -/
def rank (s : WorkerPool τ n) : ℕ :=
  2 * s.queue.tasks.length + ∑ i, workerRank (s.workers i) + 2 * s.notifyOne +
    (n + 1) * s.notifyAll

/-- No own step is possible. -/
def Rests (s : WorkerPool τ n) : Prop := ∀ a, Own a → step s a = none

section Rank

variable {s u : WorkerPool τ n} {a : Action τ n}

theorem sum_put (f : PoolWorker τ → ℕ) (i : Fin n) (w : PoolWorker τ) :
    ∑ j, f ((s.put i w).workers j) + f (s.workers i) = ∑ j, f (s.workers j) + f w := by
  rw [← Finset.add_sum_erase Finset.univ (fun j => f ((s.put i w).workers j)) (Finset.mem_univ i),
    ← Finset.add_sum_erase Finset.univ (fun j => f (s.workers j)) (Finset.mem_univ i)]
  have hothers : ∑ j ∈ Finset.univ.erase i, f ((s.put i w).workers j) =
      ∑ j ∈ Finset.univ.erase i, f (s.workers j) := by
    refine Finset.sum_congr rfl fun j hj => ?_
    rw [workers_put_of_ne w (Finset.ne_of_mem_erase hj)]
  rw [workers_put_self, hothers]
  omega

theorem sum_wake_le (s : WorkerPool τ n) :
    ∑ i, workerRank (s.workers i).wake ≤ ∑ i, workerRank (s.workers i) + n := by
  calc ∑ i, workerRank (s.workers i).wake
      ≤ ∑ i, (workerRank (s.workers i) + 1) := by
        refine Finset.sum_le_sum fun i _ => ?_
        cases s.workers i <;> simp [PoolWorker.wake, workerRank]
    _ = ∑ i, workerRank (s.workers i) + n := by
        rw [Finset.sum_add_distrib]
        simp

theorem rank_put (s : WorkerPool τ n) (i : Fin n) (w : PoolWorker τ) :
    rank (s.put i w) + workerRank (s.workers i) = rank s + workerRank w := by
  have hsum := sum_put (s := s) workerRank i w
  show 2 * s.queue.tasks.length + ∑ j, workerRank ((s.put i w).workers j) + 2 * s.notifyOne +
    (n + 1) * s.notifyAll + workerRank (s.workers i) = rank s + workerRank w
  rw [rank]
  omega

/-- Every own step takes away from what the pool can do. -/
theorem rank_lt_of_own (ha : Own a) (h : step s a = some u) : rank u < rank s := by
  cases step_cases h with
  | enqueued _ | refused _ | quit | spurious _ => exact absurd ha id
  | @woken i hpos hi =>
    have hput := rank_put { s with notifyOne := s.notifyOne - 1 } i .looking
    have hless : rank { s with notifyOne := s.notifyOne - 1 } + 2 = rank s := by
      simp only [rank]
      omega
    rw [hi, workerRank, workerRank] at hput
    show rank ({ s with notifyOne := s.notifyOne - 1 }.put i .looking) < rank s
    omega
  | nobody hpos _ =>
    simp only [rank]
    omega
  | all hpos =>
    have hsum := sum_wake_le s
    have hmul : (n + 1) * s.notifyAll = (n + 1) * (s.notifyAll - 1) + (n + 1) := by
      obtain ⟨k, hk⟩ := Nat.exists_eq_succ_of_ne_zero hpos.ne'
      rw [hk, Nat.succ_sub_one, Nat.mul_succ]
    simp only [rank]
    omega
  | @took i t q hi htake =>
    have hput := rank_put { s with queue := q } i (.running t)
    have hless : rank { s with queue := q } + 2 = rank s := by
      have htasks := congrArg List.length (ThreadPool.tasks_of_take htake)
      rw [List.length_cons] at htasks
      simp only [rank]
      omega
    rw [hi, workerRank, workerRank] at hput
    omega
  | @waits i hi _ _ =>
    have hput := rank_put s i .waiting
    rw [hi, workerRank, workerRank] at hput
    omega
  | @returns i hi _ _ =>
    have hput := rank_put s i .returned
    rw [hi, workerRank, workerRank] at hput
    omega
  | @finished i t hi =>
    have hput := rank_put s i .looking
    rw [hi, workerRank, workerRank] at hput
    omega

/-- A run of own steps. -/
def OnlyOwn (tr : List (WorkerPool τ n × Action τ n)) : Prop := ∀ p ∈ tr, Own p.2

theorem rank_safeQuit (s : WorkerPool τ n) : rank s.safeQuit = rank s + (n + 1) := by
  show 2 * s.queue.tasks.length + ∑ i, workerRank (s.workers i) + 2 * s.notifyOne +
    (n + 1) * (s.notifyAll + 1) = _
  rw [rank, Nat.mul_succ]
  omega

theorem length_le_rank {tr : List (WorkerPool τ n × Action τ n)} (h : Run step s tr u)
    (hown : OnlyOwn tr) : tr.length + rank u ≤ rank s :=
  h.length_add_le (I := fun _ => True) (C := fun _ a => Own a) trivial
    (fun _ _ _ _ ha hu => ⟨trivial, rank_lt_of_own ha hu⟩) hown

theorem own_of_notifyOne (hpos : 0 < s.notifyOne) : ¬ Rests s := by
  intro hrests
  by_cases hwaiting : ∃ i, (s.workers i).isWaiting
  · obtain ⟨i, hi⟩ := hwaiting
    have hnone := hrests (.notifyOne (some i)) trivial
    simp [step, wakeOne, hpos.ne', hi] at hnone
  · have hnone := hrests (.notifyOne none) trivial
    simp [step, wakeOne, hpos.ne', hwaiting] at hnone

theorem own_of_notifyAll (hpos : 0 < s.notifyAll) : ¬ Rests s := by
  intro hrests
  have hnone := hrests .notifyAll trivial
  simp [step, wakeAll, hpos.ne'] at hnone

theorem own_of_awake {i : Fin n} (hawake : Awake (s.workers i)) : ¬ Rests s := by
  intro hrests
  cases hi : s.workers i with
  | waiting => exact hawake.1 hi
  | returned => exact hawake.2 hi
  | looking =>
    have hnone := hrests (.look i) trivial
    rw [step, look, hi] at hnone
    cases htake : s.queue.take with
    | none => simp [htake] at hnone
    | some r => simp [htake] at hnone
  | running t =>
    have hnone := hrests (.finish i) trivial
    rw [step, finish, hi] at hnone
    cases hnone

/-- **A pool that rests has nothing left to do.** -/
theorem idle_of_rests (hn : 0 < n) (hinv : Inv s) (hrests : Rests s) :
    s.queue.tasks = [] ∧ (∀ i, ¬ Awake (s.workers i)) ∧
      (s.queue.quit = true → ∀ i, s.workers i = .returned) := by
  have hasleep : ∀ i, ¬ Awake (s.workers i) := fun i hi => own_of_awake hi hrests
  refine ⟨?_, hasleep, fun hquit i => ?_⟩
  · by_contra hne
    have hzero : s.notifyOne = 0 := by
      by_contra hpos
      exact own_of_notifyOne (Nat.pos_of_ne_zero hpos) hrests
    obtain ⟨i, hi⟩ := hinv.awake hn hne hzero
    exact hasleep i hi
  · have hzero : s.notifyAll = 0 := by
      by_contra hpos
      exact own_of_notifyAll (Nat.pos_of_ne_zero hpos) hrests
    by_contra hreturned
    exact hasleep i ⟨hinv.waiting hquit hzero i, hreturned⟩

end Rank

/-! ### The tasks -/

/-- The task that a step puts into the queue. -/
def accepts (p : WorkerPool τ n × Action τ n) : Option τ :=
  match p.2 with
  | .enqueue t => if p.1.queue.quit then none else some t
  | _ => none

/-- The task that a step begins. -/
def begins (p : WorkerPool τ n × Action τ n) : Option τ :=
  match p.2 with
  | .look _ => p.1.queue.take.map Prod.fst
  | _ => none

/-- The task that a step ends. -/
def ends (p : WorkerPool τ n × Action τ n) : Option τ :=
  match p.2 with
  | .finish i =>
    match p.1.workers i with
    | .running t => some t
    | .looking | .waiting | .returned => none
  | _ => none

def accepted (tr : List (WorkerPool τ n × Action τ n)) : List τ := tr.filterMap accepts

def begun (tr : List (WorkerPool τ n × Action τ n)) : List τ := tr.filterMap begins

def finished (tr : List (WorkerPool τ n × Action τ n)) : List τ := tr.filterMap ends

/-- How many workers run the task. -/
def running [DecidableEq τ] (workers : Fin n → PoolWorker τ) (t : τ) : ℕ :=
  ∑ i, if workers i = .running t then 1 else 0

section Tasks

variable {s u : WorkerPool τ n} {a : Action τ n} {tr : List (WorkerPool τ n × Action τ n)}

theorem accepted_snoc : accepted (tr ++ [(s, a)]) = accepted tr ++ (accepts (s, a)).toList := by
  rw [accepted, List.filterMap_append]
  cases h : accepts (s, a) <;> simp [h, accepted]

theorem begun_snoc : begun (tr ++ [(s, a)]) = begun tr ++ (begins (s, a)).toList := by
  rw [begun, List.filterMap_append]
  cases h : begins (s, a) <;> simp [h, begun]

theorem finished_snoc : finished (tr ++ [(s, a)]) = finished tr ++ (ends (s, a)).toList := by
  rw [finished, List.filterMap_append]
  cases h : ends (s, a) <;> simp [h, finished]

/-- What a step puts into the queue goes behind what is there, and what it
begins stood in front. -/
theorem tasks_step (h : step s a = some u) :
    s.queue.tasks ++ (accepts (s, a)).toList = (begins (s, a)).toList ++ u.queue.tasks := by
  cases step_cases h with
  | enqueued henqueue =>
    obtain ⟨hquit, -⟩ := ThreadPool.quit_of_enqueue henqueue
    simp [accepts, begins, hquit, ThreadPool.tasks_of_enqueue henqueue]
  | refused hquit => simp [accepts, begins, hquit]
  | quit | woken _ _ | nobody _ _ | all _ | spurious _ | finished _ =>
    simp [accepts, begins, put, safeQuit]
  | took _ htake => simp [accepts, begins, put, htake, ThreadPool.tasks_of_take htake]
  | waits _ htasks _ | returns _ htasks _ =>
    simp [accepts, begins, put, htasks, ThreadPool.take]

section Count

variable [DecidableEq τ]

theorem running_put (s : WorkerPool τ n) (i : Fin n) (w : PoolWorker τ) (t : τ) :
    running (s.put i w).workers t + (if s.workers i = .running t then 1 else 0) =
      running s.workers t + if w = .running t then 1 else 0 :=
  sum_put (fun w => if w = .running t then 1 else 0) i w

/-- A worker that begins no task and ends none. -/
theorem running_put_of_ne {i : Fin n} {w : PoolWorker τ} {t : τ} (hi : s.workers i ≠ .running t)
    (hw : w ≠ .running t) : running (s.put i w).workers t = running s.workers t := by
  have hput := running_put s i w t
  rwa [if_neg hi, if_neg hw] at hput

theorem count_singleton_eq (t t' : τ) :
    [t'].count t = if (.running t' : PoolWorker τ) = .running t then 1 else 0 := by
  by_cases h : t' = t
  · simp [h]
  · simp [h]

/-- A task that is begun runs until it ends. -/
theorem running_step (h : step s a = some u) (t : τ) :
    (ends (s, a)).toList.count t + running u.workers t =
      running s.workers t + (begins (s, a)).toList.count t := by
  have hfree : ∀ {i : Fin n} {w : PoolWorker τ}, s.workers i = w → w ≠ .running t →
      s.workers i ≠ .running t := by
    rintro i w rfl hw
    exact hw
  cases step_cases h with
  | enqueued _ | refused _ | quit | nobody _ _ => simp [ends, begins, safeQuit]
  | all _ => simp [ends, begins, running, PoolWorker.wake_eq_running_iff]
  | @woken i _ hi =>
    have hput := running_put_of_ne (w := .looking) (hfree hi (by simp)) (by simp)
    simpa [ends, begins] using hput
  | @spurious i hi =>
    have hput := running_put_of_ne (w := .looking) (hfree hi (by simp)) (by simp)
    simpa [ends, begins] using hput
  | @waits i hi htasks _ =>
    have hput := running_put_of_ne (w := .waiting) (hfree hi (by simp)) (by simp)
    simpa [ends, begins, ThreadPool.take, htasks] using hput
  | @returns i hi htasks _ =>
    have hput := running_put_of_ne (w := .returned) (hfree hi (by simp)) (by simp)
    simpa [ends, begins, ThreadPool.take, htasks] using hput
  | @took i t' q hi htake =>
    have hput := running_put s i (.running t') t
    rw [if_neg (hfree hi (by simp)), ← count_singleton_eq] at hput
    simpa [ends, begins, htake, put] using hput
  | @finished i t' hi =>
    have hput := running_put s i .looking t
    rw [hi, ← count_singleton_eq, if_neg (by simp)] at hput
    simp only [ends, begins, hi, Option.toList_some, Option.toList_none, List.count_nil]
    omega

/-- The tasks begin in the order of `enqueue`, each of them once, and a task that
has begun has ended or is running. -/
theorem tasks_once (h : Run step (new τ n) tr s) :
    accepted tr = begun tr ++ s.queue.tasks ∧
      ∀ t, (begun tr).count t = (finished tr).count t + running s.workers t := by
  refine h.history (I := fun tr s => accepted tr = begun tr ++ s.queue.tasks ∧
    ∀ t, (begun tr).count t = (finished tr).count t + running s.workers t) ⟨rfl, fun t => ?_⟩ ?_
  · simp [begun, finished, running, new]
  · rintro tr s a u ⟨hqueue, hcount⟩ hu
    rw [accepted_snoc, begun_snoc, finished_snoc, hqueue, List.append_assoc, List.append_assoc,
      tasks_step hu]
    refine ⟨rfl, fun t => ?_⟩
    have hstep := running_step hu t
    rw [List.count_append, List.count_append, hcount t]
    omega

/-- **No task is forgotten.**  Left to itself the pool comes to rest, in at most
`rank s` steps whatever their order; when it rests, the tasks that `enqueue` has
accepted have begun in their order and run to their end, each of them once, and
the workers of a pool that has quit have returned. -/
theorem drains (hn : 0 < n) (h : Run step (new τ n) tr s) :
    (∃ tr' u, Run step s tr' u ∧ OnlyOwn tr' ∧ Rests u) ∧
      ∀ tr' u, Run step s tr' u → OnlyOwn tr' → tr'.length ≤ rank s ∧
        (Rests u → begun (tr ++ tr') = accepted (tr ++ tr') ∧
          (finished (tr ++ tr')).Perm (accepted (tr ++ tr')) ∧
          (u.queue.quit = true → ∀ i, u.workers i = .returned)) := by
  refine ⟨Run.exists_rests (I := fun _ => True) (C := fun _ a => Own a) (f := rank)
    (fun _ _ _ _ ha hu => ⟨trivial, rank_lt_of_own ha hu⟩) trivial,
    fun tr' u h' hown => ⟨?_, fun hrests => ?_⟩⟩
  · have hlength := length_le_rank h' hown
    omega
  · have hrun : Run step (new τ n) (tr ++ tr') u := Run.append_iff.mpr ⟨s, h, h'⟩
    obtain ⟨htasks, hasleep, hreturned⟩ := idle_of_rests hn (inv_run hrun) hrests
    obtain ⟨hqueue, hcount⟩ := tasks_once hrun
    rw [htasks, List.append_nil] at hqueue
    refine ⟨hqueue.symm, List.perm_iff_count.mpr fun t => ?_, hreturned⟩
    have hzero : running u.workers t = 0 := by
      refine Finset.sum_eq_zero fun i _ => if_neg fun hi => hasleep i ?_
      rw [hi]
      exact awake_running t
    rw [hqueue, hcount t, hzero, Nat.add_zero]

/-- Two workers, two tasks and a pool that has quit. -/
theorem drains_two_workers :
    ∃ tr s, Run step (new ℕ 2) tr s ∧
      tr.map Prod.snd = [.enqueue 5, .look 0, .enqueue 7, .safeQuit] ∧
      ∃ tr' u, Run step s tr' u ∧ Rests u ∧
        (finished (tr ++ tr')).Perm (accepted (tr ++ tr')) ∧ ∀ i, u.workers i = .returned := by
  obtain ⟨tr, s, h, hlabels, hquit⟩ : ∃ tr s, Run step (new ℕ 2) tr s ∧
      tr.map Prod.snd = [.enqueue 5, .look 0, .enqueue 7, .safeQuit] ∧ s.queue.quit = true :=
    ⟨_, _, Run.of_exec [.enqueue 5, .look 0, .enqueue 7, .safeQuit] rfl, rfl, rfl⟩
  obtain ⟨⟨tr', u, h', hown, hrests⟩, hdrains⟩ := drains (by decide) h
  obtain ⟨-, hperm, hreturned⟩ := (hdrains tr' u h' hown).2 hrests
  have hstays : u.queue.quit = true :=
    Run.invariant (I := fun u => u.queue.quit = true) hquit (fun _ _ _ => quit_step) h'
  exact ⟨tr, s, h, hlabels, tr', u, h', hrests, hperm, hreturned hstays⟩

end Count

end Tasks

end WorkerPool
