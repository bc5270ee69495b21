/-
The executor of IFLYOSThreadPool with one worker.

Every executor of the two programs is a `ThreadPool(1)`: its single worker
takes the front of `tasks` and runs it to its end before it takes the next, so
the pool is a FIFO queue.  What a task does belongs to the program that
enqueues it; here are the queue operations.

* `ThreadPool.enqueue` — appends a task, or throws once `quit` is set;
* `ThreadPool.take` — the worker takes the front task.
-/
import Mathlib.Data.List.Basic

/-- The pool: the queued tasks, front first, and the `quit` flag. -/
structure ThreadPool (τ : Type*) where
  tasks : List τ
  quit : Bool
  deriving DecidableEq, Repr

namespace ThreadPool

variable {τ : Type*} {p q : ThreadPool τ} {t : τ}

/-- A freshly constructed pool. -/
def new : ThreadPool τ := ⟨[], false⟩

/-- Append a task; `none` is the `runtime_error` of a stopped pool. -/
def enqueue (p : ThreadPool τ) (t : τ) : Option (ThreadPool τ) :=
  if p.quit then none else some { p with tasks := p.tasks ++ [t] }

/-- The worker takes the front task; `none` while it waits on an empty queue. -/
def take (p : ThreadPool τ) : Option (τ × ThreadPool τ) :=
  match p.tasks with
  | [] => none
  | t :: ts => some (t, { p with tasks := ts })

theorem tasks_of_enqueue (h : p.enqueue t = some q) : q.tasks = p.tasks ++ [t] := by
  unfold enqueue at h
  split at h
  · exact absurd h (by simp)
  · rw [Option.some.injEq] at h
    rw [← h]

theorem tasks_of_take (h : p.take = some (t, q)) : p.tasks = t :: q.tasks := by
  unfold take at h
  split at h
  · exact absurd h (by simp)
  · rename_i hp
    simp only [Option.some.injEq, Prod.mk.injEq] at h
    obtain ⟨rfl, rfl⟩ := h
    exact hp

theorem quit_of_enqueue (h : p.enqueue t = some q) : p.quit = false ∧ q.quit = false := by
  unfold enqueue at h
  split at h
  · cases h
  · rename_i hp
    rw [← Option.some.inj h]
    exact ⟨Bool.eq_false_iff.mpr hp, Bool.eq_false_iff.mpr hp⟩

theorem quit_of_enqueue_none (h : p.enqueue t = none) : p.quit = true := by
  unfold enqueue at h
  split at h
  · rename_i hp
    exact hp
  · cases h

theorem quit_of_take (h : p.take = some (t, q)) : q.quit = p.quit := by
  unfold take at h
  split at h
  · cases h
  · obtain ⟨-, rfl⟩ := Prod.mk.inj (Option.some.inj h)
    rfl

theorem tasks_of_take_none (h : p.take = none) : p.tasks = [] := by
  unfold take at h
  split at h
  · rename_i hp
    exact hp
  · cases h

end ThreadPool
