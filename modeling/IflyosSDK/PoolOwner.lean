/-
What a pool is for those who own it.

Every executor of the two programs has one worker.  Such a pool is a
`ThreadPool` whose tasks run one after the other.  At its end an owner quits
the pool, joins the workers and destroys it: `Recorder::stop` and
`PCMPlayer::~PCMPlayer` make the three calls in this order, `main` of the
umbrella leaves the join out, and `main` of MicAgent joins a pool that nobody
quits.  The members of a pool are destroyed in the reverse of their order: the
condition variable, the mutex and the queue, which a worker that has not returned
still uses, come before the threads.

* `Single.step` — a `ThreadPool` and the task that is run;
* `WorkerPool.simulates_single` — a pool of one worker simulates it;
* `WorkerPool.one_after_the_other` — **so its tasks end in the order of
  `enqueue`**;
* `Owned.step` — a pool of any size, and the calls its owner has still to make;
* `outcomeOf` — how these calls end, read off them alone;
* `Owned.closes` — **they do end so**, in every run.
-/
import IflyosSDK.Simulation
import IflyosSDK.WorkerPool

/-! ### A pool with one worker -/

/-- A `ThreadPool`, and the task its worker runs. -/
structure Single (τ : Type*) where
  pool : ThreadPool τ
  task : Option τ

namespace Single

variable {τ : Type*}

def new (τ : Type*) : Single τ := ⟨.new, none⟩

inductive Action (τ : Type*)
  | enqueue (t : τ)
  | safeQuit
  | take
  | finish

def step (s : Single τ) : Action τ → Option (Single τ)
  | .enqueue t => some { s with pool := (s.pool.enqueue t).getD s.pool }
  | .safeQuit => some { s with pool := { s.pool with quit := true } }
  | .take =>
    match s.task with
    | some _ => none
    | none => s.pool.take.map fun r => ⟨r.2, some r.1⟩
  | .finish => s.task.map fun _ => { s with task := none }

/-- The task that a step puts into the queue. -/
def accepts (p : Single τ × Action τ) : Option τ :=
  match p.2 with
  | .enqueue t => if p.1.pool.quit then none else some t
  | .safeQuit | .take | .finish => none

/-- The task that a step ends. -/
def ends (p : Single τ × Action τ) : Option τ :=
  match p.2 with
  | .finish => p.1.task
  | .enqueue _ | .safeQuit | .take => none

variable {s u : Single τ} {a : Action τ} {tr : List (Single τ × Action τ)}

/-- The tasks that are not finished, in the order they will be. -/
def ahead (s : Single τ) : List τ := s.task.toList ++ s.pool.tasks

theorem ahead_step (h : step s a = some u) :
    ahead s ++ (accepts (s, a)).toList = (ends (s, a)).toList ++ ahead u := by
  cases a with
  | enqueue t =>
    rw [step, Option.some.injEq] at h
    subst h
    cases henqueue : s.pool.enqueue t with
    | none =>
      have hquit := ThreadPool.quit_of_enqueue_none henqueue
      simp [ahead, accepts, ends, hquit]
    | some q =>
      obtain ⟨hquit, -⟩ := ThreadPool.quit_of_enqueue henqueue
      simp [ahead, accepts, ends, hquit, ThreadPool.tasks_of_enqueue henqueue]
  | safeQuit =>
    rw [step, Option.some.injEq] at h
    subst h
    simp [ahead, accepts, ends]
  | take =>
    rw [step] at h
    split at h
    · cases h
    · rename_i htask
      obtain ⟨⟨t, q⟩, htake, rfl⟩ := Option.map_eq_some_iff.mp h
      simp [ahead, accepts, ends, htask, ThreadPool.tasks_of_take htake]
  | finish =>
    obtain ⟨t, htask, rfl⟩ := Option.map_eq_some_iff.mp h
    simp [ahead, accepts, ends, htask]

theorem fifo (h : Run step (new τ) tr s) :
    tr.filterMap accepts = tr.filterMap ends ++ ahead s := by
  refine h.history (I := fun tr s => tr.filterMap accepts = tr.filterMap ends ++ ahead s) rfl ?_
  intro tr s a u hfifo hu
  have hone : ∀ f : Single τ × Action τ → Option τ,
      [(s, a)].filterMap f = (f (s, a)).toList := by
    intro f
    cases hf : f (s, a) <;> simp [hf]
  rw [List.filterMap_append, List.filterMap_append, hone, hone, hfifo, List.append_assoc,
    List.append_assoc, ahead_step hu]

end Single

namespace WorkerPool

variable {τ : Type*}

/-- The task that a worker runs. -/
def taskOf : PoolWorker τ → Option τ
  | .running t => some t
  | .looking | .waiting | .returned => none

def single (s : WorkerPool τ 1) : Single τ := ⟨s.queue, taskOf (s.workers 0)⟩

/-- What a step is for a pool with one worker; notifications and looks into an
empty queue are nothing. -/
def singleLabel (p : WorkerPool τ 1 × Action τ 1) : Option (Single.Action τ) :=
  match p.2 with
  | .enqueue t => some (.enqueue t)
  | .safeQuit => some .safeQuit
  | .look _ => p.1.queue.take.map fun _ => .take
  | .finish _ => some .finish
  | .notifyOne _ | .notifyAll | .spurious _ => none

theorem taskOf_put (s : WorkerPool τ 1) (i : Fin 1) (w : PoolWorker τ) :
    taskOf ((s.put i w).workers 0) = taskOf w := by
  rw [Subsingleton.elim i 0, workers_put_self]

theorem taskOf_wake (w : PoolWorker τ) : taskOf w.wake = taskOf w := by
  cases w <;> rfl

theorem single_put_of_free {s : WorkerPool τ 1} {i : Fin 1} {w : PoolWorker τ}
    (hi : taskOf (s.workers i) = none) (hw : taskOf w = none) :
    single (s.put i w) = single s := by
  rw [Subsingleton.elim i 0] at hi
  rw [single, taskOf_put, hw, single, hi]
  rfl

/-- **A pool with one worker is a `ThreadPool` and the task being run.** -/
theorem simulates_single :
    Simulates (step (n := 1)) (Single.step (τ := τ)) (fun _ => True) single singleLabel := by
  refine ⟨fun _ _ _ _ _ => trivial, fun s a u _ h => ?_⟩
  have htask : ∀ i, s.workers i = s.workers 0 := fun i => by rw [Subsingleton.elim i 0]
  cases step_cases h with
  | @enqueued t q henqueue =>
    refine Or.inr ⟨.enqueue t, rfl, ?_⟩
    simp [Single.step, single, henqueue]
  | @refused t hquit =>
    refine Or.inr ⟨.enqueue t, rfl, ?_⟩
    simp [Single.step, single, ThreadPool.enqueue, hquit]
  | quit => exact Or.inr ⟨.safeQuit, rfl, rfl⟩
  | @woken i _ hi => exact Or.inl ⟨rfl, single_put_of_free (by rw [hi]; rfl) rfl⟩
  | nobody _ _ => exact Or.inl ⟨rfl, rfl⟩
  | all _ =>
    exact Or.inl ⟨rfl, congrArg (Single.mk s.queue) (taskOf_wake (s.workers 0))⟩
  | @spurious i hi => exact Or.inl ⟨rfl, single_put_of_free (by rw [hi]; rfl) rfl⟩
  | @took i t q hi htake =>
    refine Or.inr ⟨.take, by rw [singleLabel]; simp [htake], ?_⟩
    rw [htask i] at hi
    rw [single, single, taskOf_put, Single.step, hi]
    simp [taskOf, htake, put]
  | @waits i hi htasks _ =>
    refine Or.inl ⟨?_, single_put_of_free (by rw [hi]; rfl) rfl⟩
    simp [singleLabel, ThreadPool.take, htasks]
  | @returns i hi htasks _ =>
    refine Or.inl ⟨?_, single_put_of_free (by rw [hi]; rfl) rfl⟩
    simp [singleLabel, ThreadPool.take, htasks]
  | @finished i t hi =>
    refine Or.inr ⟨.finish, rfl, ?_⟩
    rw [htask i] at hi
    rw [single, single, taskOf_put, Single.step, hi]
    rfl

variable {s : WorkerPool τ 1} {tr : List (WorkerPool τ 1 × Action τ 1)}

theorem accepted_view : (view single singleLabel tr).filterMap Single.accepts = accepted tr := by
  rw [view, List.filterMap_filterMap, accepted]
  refine congrArg (List.filterMap · tr) (funext fun p => ?_)
  obtain ⟨s, a⟩ := p
  cases a with
  | look i => cases htake : s.queue.take <;> simp [singleLabel, accepts, Single.accepts, htake]
  | enqueue _ | safeQuit | finish _ | notifyOne _ | notifyAll | spurious _ =>
    simp [singleLabel, accepts, Single.accepts, single]

theorem finished_view : (view single singleLabel tr).filterMap Single.ends = finished tr := by
  rw [view, List.filterMap_filterMap, finished]
  refine congrArg (List.filterMap · tr) (funext fun p => ?_)
  obtain ⟨s, a⟩ := p
  cases a with
  | look i => cases htake : s.queue.take <;> simp [singleLabel, ends, Single.ends, htake]
  | finish i =>
    rw [Subsingleton.elim i 0]
    cases hi : s.workers 0 <;> simp [singleLabel, ends, Single.ends, single, taskOf, hi]
  | enqueue _ | safeQuit | notifyOne _ | notifyAll | spurious _ =>
    simp [singleLabel, ends, Single.ends]

/-- **The tasks of a pool with one worker run one after the other**, in the
order of `enqueue`: finished, running and queued ones together are those that
were accepted. -/
theorem one_after_the_other (h : Run step (new τ 1) tr s) :
    Run Single.step (Single.new τ) (view single singleLabel tr) (single s) ∧
      accepted tr = finished tr ++ (taskOf (s.workers 0)).toList ++ s.queue.tasks := by
  have hrun := simulates_single.run trivial h
  have hfifo := Single.fifo hrun
  rw [accepted_view, finished_view, Single.ahead, ← List.append_assoc] at hfifo
  exact ⟨hrun, hfifo⟩

/-- The second task waits until the first is finished. -/
theorem one_after_the_other_two_tasks :
    ∃ tr s, Run step (new ℕ 1) tr s ∧
      tr.map Prod.snd = [.enqueue 5, .enqueue 7, .look 0, .finish 0, .look 0] ∧
      accepted tr = finished tr ++ (taskOf (s.workers 0)).toList ++ s.queue.tasks ∧
      finished tr = [5] ∧ taskOf (s.workers 0) = some 7 := by
  obtain ⟨tr, s, h, hlabels, hfinished, htask⟩ : ∃ tr s, Run step (new ℕ 1) tr s ∧
      tr.map Prod.snd = [.enqueue 5, .enqueue 7, .look 0, .finish 0, .look 0] ∧
      finished tr = [5] ∧ taskOf (s.workers 0) = some 7 :=
    ⟨_, _, Run.of_exec [.enqueue 5, .enqueue 7, .look 0, .finish 0, .look 0] rfl, rfl, rfl, rfl⟩
  exact ⟨tr, s, h, hlabels, (one_after_the_other h).2, hfinished, htask⟩

end WorkerPool

/-! ### The calls of an owner -/

inductive OwnerCall
  | safeQuit
  | join
  | destroy
  deriving DecidableEq, Repr

/-- What has become of the pool. -/
inductive PoolLife
  | alive
  | destroyed
  /-- `std::terminate`, of the destructor of a thread that is not joined, or of
  an exception of `join`. -/
  | terminated
  /-- What a worker uses has been destroyed: nothing is said of what follows. -/
  | undefined
  deriving DecidableEq, Repr

/-- A pool, the calls that its owner has still to make, which threads can be
joined, and how many the running call of `join` has joined. -/
structure Owned (τ : Type*) (n : ℕ) where
  pool : WorkerPool τ n
  calls : List OwnerCall
  joinable : Fin n → Bool
  joined : ℕ
  life : PoolLife

/-- How the calls end: the pool is destroyed, the process is terminated by a
second `join`, `join` blocks for ever, the pool is kept, or it is destroyed with
workers that are not joined. -/
inductive PoolOutcome
  | destroyed
  | terminated
  | blocked
  | kept
  | unjoined
  deriving DecidableEq, Repr

/-- The end of the calls, when the pool has quit or not, and has been joined or
not. -/
def outcomeOf (quit joined : Bool) : List OwnerCall → PoolOutcome
  | [] => .kept
  | .safeQuit :: calls => outcomeOf true joined calls
  | .join :: calls =>
    if joined then .terminated
    else if quit then outcomeOf quit true calls
    else .blocked
  | .destroy :: _ => if joined then .destroyed else .unjoined

/-- `Recorder::stop`, and `PCMPlayer::~PCMPlayer` with the destructor of its
member. -/
def recorderStop : List OwnerCall := [.safeQuit, .join, .destroy]

/-- `main` of the umbrella, and the destructor of the static `exector` behind
it. -/
def umbrellaExit : List OwnerCall := [.safeQuit, .destroy]

/-- The end of MicAgent's `main`. -/
def micAgentExit : List OwnerCall := [.join]

example : outcomeOf false false recorderStop = .destroyed ∧
    outcomeOf false false umbrellaExit = .unjoined ∧
    outcomeOf false false micAgentExit = .blocked := by decide

namespace Owned

variable {τ : Type*} {n : ℕ}

def start (τ : Type*) (n : ℕ) (calls : List OwnerCall) : Owned τ n :=
  ⟨.new τ n, calls, fun _ => true, 0, .alive⟩

inductive Action (τ : Type*) (n : ℕ)
  | pool (a : WorkerPool.Action τ n)
  | owner

/-- `join`, in front of the rest of the calls: one thread more, or its end. -/
def join (calls : List OwnerCall) (s : Owned τ n) : Option (Owned τ n) :=
  if h : s.joined < n then
    if s.joinable ⟨s.joined, h⟩ then
      match s.pool.workers ⟨s.joined, h⟩ with
      | .returned =>
        some { s with
          joinable := Function.update s.joinable ⟨s.joined, h⟩ false
          joined := s.joined + 1 }
      | .looking | .waiting | .running _ => none
    -- `std::system_error`, which nobody catches
    else some { s with life := .terminated }
  else some { s with calls := calls, joined := 0 }

def hasReturned : PoolWorker τ → Bool
  | .returned => true
  | .looking | .waiting | .running _ => false

theorem hasReturned_iff {w : PoolWorker τ} : hasReturned w = true ↔ w = .returned := by
  cases w <;> simp [hasReturned]

/-- `~ThreadPool`: the destructors of its condition variable, mutex and queue, and
then those of its threads. -/
def destroy (calls : List OwnerCall) (s : Owned τ n) : Owned τ n :=
  { s with
    calls := calls
    life :=
      if ∃ i, hasReturned (s.pool.workers i) = false then .undefined
      else if ∃ i, s.joinable i then .terminated
      else .destroyed }

/-- The owner goes on once its `notify_all` is made. -/
def ownerStep (s : Owned τ n) : Option (Owned τ n) :=
  if s.pool.notifyAll ≠ 0 then none
  else
    match s.calls with
    | [] => none
    | .safeQuit :: calls => some { s with pool := s.pool.safeQuit, calls := calls }
    | .join :: calls => s.join calls
    | .destroy :: calls => some (s.destroy calls)

def act (s : Owned τ n) : Action τ n → Option (Owned τ n)
  -- only the owner quits the pool
  | .pool .safeQuit => none
  | .pool a => (s.pool.step a).map fun p => { s with pool := p }
  | .owner => s.ownerStep

def step (s : Owned τ n) (a : Action τ n) : Option (Owned τ n) :=
  if s.life = .alive then s.act a else none

/-! ### What a step does -/

inductive Step (s : Owned τ n) : Action τ n → Owned τ n → Prop
  | pool {a : WorkerPool.Action τ n} {p : WorkerPool τ n} (ha : a ≠ .safeQuit)
      (h : s.pool.step a = some p) : Step s (.pool a) { s with pool := p }
  | quits {calls : List OwnerCall} (hcalls : s.calls = .safeQuit :: calls) :
      Step s .owner { s with pool := s.pool.safeQuit, calls := calls }
  | joins {calls : List OwnerCall} (hcalls : s.calls = .join :: calls) (hlt : s.joined < n)
      (hjoinable : s.joinable ⟨s.joined, hlt⟩ = true)
      (hreturned : s.pool.workers ⟨s.joined, hlt⟩ = .returned) :
      Step s .owner { s with
        joinable := Function.update s.joinable ⟨s.joined, hlt⟩ false
        joined := s.joined + 1 }
  | throws {calls : List OwnerCall} (hcalls : s.calls = .join :: calls) (hlt : s.joined < n)
      (hjoinable : s.joinable ⟨s.joined, hlt⟩ = false) :
      Step s .owner { s with life := .terminated }
  | joined {calls : List OwnerCall} (hcalls : s.calls = .join :: calls) (hge : n ≤ s.joined) :
      Step s .owner { s with calls := calls, joined := 0 }
  | destroys {calls : List OwnerCall} (hcalls : s.calls = .destroy :: calls) :
      Step s .owner (s.destroy calls)

section Step

variable {s u : Owned τ n} {a : Action τ n}

theorem act_of_step (h : step s a = some u) : s.life = .alive ∧ s.act a = some u := by
  rw [step] at h
  split at h
  · exact ⟨‹_›, h⟩
  · cases h

theorem join_cases {calls : List OwnerCall} (hcalls : s.calls = .join :: calls)
    (h : s.join calls = some u) : Step s .owner u := by
  unfold join at h
  split_ifs at h with hlt hjoinable
  · split at h
    · rename_i hreturned
      rw [← Option.some.inj h]
      exact .joins hcalls hlt hjoinable hreturned
    all_goals cases h
  · rw [← Option.some.inj h]
    exact .throws hcalls hlt (Bool.eq_false_iff.mpr hjoinable)
  · rw [← Option.some.inj h]
    exact .joined hcalls (Nat.le_of_not_lt hlt)

theorem step_cases (h : step s a = some u) : s.life = .alive ∧ Step s a u := by
  obtain ⟨hlife, h⟩ := act_of_step h
  refine ⟨hlife, ?_⟩
  cases a with
  | owner =>
    rw [act, ownerStep] at h
    split_ifs at h with hnotify
    split at h
    · cases h
    · rename_i hcalls
      rw [← Option.some.inj h]
      exact .quits hcalls
    · rename_i hcalls
      exact join_cases hcalls h
    · rename_i hcalls
      rw [← Option.some.inj h]
      exact .destroys hcalls
  | pool b =>
    have hb : b ≠ .safeQuit := by
      rintro rfl
      cases h
    have hpool : s.act (.pool b) = (s.pool.step b).map fun p => { s with pool := p } := by
      cases b <;> first | rfl | exact absurd rfl hb
    rw [hpool] at h
    obtain ⟨p, hp, rfl⟩ := Option.map_eq_some_iff.mp h
    exact .pool hb hp

end Step

/-! ### Where the calls lead -/

/-- The owner has joined the pool or not, and the calls that are left end like
all of them. -/
structure At (calls : List OwnerCall) (joined : Bool) (s : Owned τ n) : Prop where
  inv : s.pool.Inv
  outcome : outcomeOf s.pool.queue.quit joined s.calls = outcomeOf false false calls
  joinable : ∀ i : Fin n, s.joinable i = (!joined && decide (s.joined ≤ i))
  returned : ∀ i, s.joinable i = false → s.pool.workers i = .returned
  midway : 0 < s.joined →
    s.pool.queue.quit = true ∧ joined = false ∧ ∃ rest, s.calls = .join :: rest
  le : s.joined ≤ n

/-- What is known of a pool whose owner had these calls to make. -/
def Inv (calls : List OwnerCall) (s : Owned τ n) : Prop :=
  match s.life with
  | .alive => ∃ joined, At calls joined s
  | .destroyed => outcomeOf false false calls = .destroyed ∧ s.pool.Inv ∧
      ∀ i, s.pool.workers i = .returned
  | .terminated => outcomeOf false false calls = .terminated ∨
      outcomeOf false false calls = .unjoined ∧ ∀ i, s.pool.workers i = .returned
  | .undefined => outcomeOf false false calls = .unjoined ∧ ∃ i, s.pool.workers i ≠ .returned

section Inv

variable {s u : Owned τ n} {a : Action τ n} {calls : List OwnerCall} {joined : Bool}

theorem inv_start : Inv calls (start τ n calls) :=
  ⟨false, WorkerPool.inv_new, rfl, fun i => by simp [start], fun i hi => Bool.noConfusion hi,
    fun h => absurd h (lt_irrefl 0), Nat.zero_le n⟩

theorem At.pool {b : WorkerPool.Action τ n} {p : WorkerPool τ n} (h : At calls joined s)
    (hb : b ≠ .safeQuit) (hp : s.pool.step b = some p) :
    At calls joined { s with pool := p } := by
  have hquit := WorkerPool.quit_eq_of_step hb hp
  refine ⟨WorkerPool.inv_step h.inv hp, ?_, h.joinable, ?_, ?_, h.le⟩
  · show outcomeOf p.queue.quit joined s.calls = _
    rw [hquit, h.outcome]
  · exact fun i hi => WorkerPool.returned_step (h.returned i hi) hp
  · intro hpos
    obtain ⟨hmid, hrest⟩ := h.midway hpos
    exact ⟨hquit.trans hmid, hrest⟩

/-- Between two calls no join is under way. -/
theorem At.joined_eq_zero (h : At calls joined s) (hcalls : ∀ rest, s.calls ≠ .join :: rest) :
    s.joined = 0 := by
  by_contra hne
  obtain ⟨-, -, rest, hrest⟩ := h.midway (Nat.pos_of_ne_zero hne)
  exact hcalls rest hrest

theorem At.quits {rest : List OwnerCall} (h : At calls joined s)
    (hcalls : s.calls = .safeQuit :: rest) :
    At calls joined { s with pool := s.pool.safeQuit, calls := rest } := by
  have hzero : s.joined = 0 := h.joined_eq_zero fun rest' => by simp [hcalls]
  refine ⟨WorkerPool.inv_safeQuit h.inv, ?_, h.joinable, h.returned, fun hpos => ?_, h.le⟩
  · have houtcome := h.outcome
    rw [hcalls, outcomeOf] at houtcome
    exact houtcome
  · exact absurd hzero (Nat.pos_iff_ne_zero.mp hpos)

theorem At.joins {rest : List OwnerCall} (h : At calls joined s)
    (hcalls : s.calls = .join :: rest) (hlt : s.joined < n)
    (hjoinable : s.joinable ⟨s.joined, hlt⟩ = true)
    (hreturned : s.pool.workers ⟨s.joined, hlt⟩ = .returned) :
    At calls joined { s with
      joinable := Function.update s.joinable ⟨s.joined, hlt⟩ false
      joined := s.joined + 1 } := by
  have hnot : joined = false := by
    have hat := h.joinable ⟨s.joined, hlt⟩
    rw [hjoinable] at hat
    cases joined with
    | false => rfl
    | true => simp at hat
  refine ⟨h.inv, h.outcome, fun i => ?_, fun i hi => ?_, fun _ => ?_, hlt⟩
  · show Function.update s.joinable ⟨s.joined, hlt⟩ false i = _
    by_cases heq : i = ⟨s.joined, hlt⟩
    · subst heq
      simp
    · have hne : (i : ℕ) ≠ s.joined := fun hval => heq (Fin.ext hval)
      rw [Function.update_of_ne heq, h.joinable i]
      congr 2
      rw [eq_iff_iff]
      show s.joined ≤ i ↔ s.joined + 1 ≤ i
      omega
  · by_cases heq : i = ⟨s.joined, hlt⟩
    · subst heq
      exact hreturned
    · have hi : Function.update s.joinable ⟨s.joined, hlt⟩ false i = false := hi
      rw [Function.update_of_ne heq] at hi
      exact h.returned i hi
  · exact ⟨(h.inv.returned _ hreturned).1, hnot, rest, hcalls⟩

theorem At.done {rest : List OwnerCall} (hn : 0 < n) (h : At calls joined s)
    (hcalls : s.calls = .join :: rest) (hge : n ≤ s.joined) :
    At calls true { s with calls := rest, joined := 0 } := by
  obtain ⟨hquit, hnot, -⟩ := h.midway (hn.trans_le hge)
  have hfalse : ∀ i, s.joinable i = false := by
    intro i
    have hlt : ¬ s.joined ≤ i := by
      have := i.isLt
      omega
    rw [h.joinable i, decide_eq_false hlt, Bool.and_false]
  refine ⟨h.inv, ?_, fun i => ?_, fun i _ => h.returned i (hfalse i),
    fun hpos => absurd hpos (lt_irrefl 0), Nat.zero_le n⟩
  · have houtcome := h.outcome
    rw [hcalls, outcomeOf, hnot, hquit] at houtcome
    rw [← houtcome]
    show outcomeOf s.pool.queue.quit true rest = _
    rw [hquit]
    rfl
  · show s.joinable i = _
    rw [hfalse i]
    rfl

theorem At.throws {rest : List OwnerCall} (h : At calls joined s)
    (hcalls : s.calls = .join :: rest) (hlt : s.joined < n)
    (hjoinable : s.joinable ⟨s.joined, hlt⟩ = false) :
    outcomeOf false false calls = .terminated := by
  have hat := h.joinable ⟨s.joined, hlt⟩
  rw [hjoinable] at hat
  have hjoined : joined = true := by simpa using hat.symm
  rw [← h.outcome, hcalls, hjoined]
  rfl

theorem At.destroys {rest : List OwnerCall} (hn : 0 < n) (h : At calls joined s)
    (hcalls : s.calls = .destroy :: rest) : Inv calls (s.destroy rest) := by
  have hzero : s.joined = 0 := h.joined_eq_zero fun rest' => by simp [hcalls]
  have hat : ∀ i, s.joinable i = !joined := fun i => by rw [h.joinable i, hzero]; simp
  have houtcome := h.outcome
  rw [hcalls] at houtcome
  cases joined with
  | true =>
    have hall : ∀ i, s.pool.workers i = .returned := fun i => h.returned i (hat i)
    have hlife : (s.destroy rest).life = .destroyed := by
      simp [destroy, hall, hat, hasReturned]
    rw [Inv, hlife]
    exact ⟨houtcome.symm, h.inv, hall⟩
  | false =>
    by_cases hall : ∀ i, s.pool.workers i = .returned
    · have hlife : (s.destroy rest).life = .terminated := by
        have hsome : ∃ i, s.joinable i = true := ⟨⟨0, hn⟩, hat _⟩
        simp [destroy, hall, hasReturned, hsome]
      rw [Inv, hlife]
      exact Or.inr ⟨houtcome.symm, hall⟩
    · obtain ⟨i, hi⟩ := not_forall.mp hall
      have hlife : (s.destroy rest).life = .undefined :=
        if_pos ⟨i, Bool.eq_false_iff.mpr fun hreturned => hi (hasReturned_iff.mp hreturned)⟩
      rw [Inv, hlife]
      exact ⟨houtcome.symm, i, hi⟩

theorem inv_step (hn : 0 < n) (hinv : Inv calls s) (h : step s a = some u) : Inv calls u := by
  obtain ⟨hlife, h⟩ := step_cases h
  rw [Inv, hlife] at hinv
  obtain ⟨joined, hat⟩ := hinv
  have halive : ∀ {v : Owned τ n} {joined}, v.life = .alive → At calls joined v → Inv calls v := by
    intro v joined hv hvat
    rw [Inv, hv]
    exact ⟨joined, hvat⟩
  cases h with
  | pool hb hp => exact halive hlife (hat.pool hb hp)
  | quits hcalls => exact halive hlife (hat.quits hcalls)
  | joins hcalls hlt hjoinable hreturned =>
    exact halive hlife (hat.joins hcalls hlt hjoinable hreturned)
  | throws hcalls hlt hjoinable => exact Or.inl (hat.throws hcalls hlt hjoinable)
  | joined hcalls hge => exact halive hlife (hat.done hn hcalls hge)
  | destroys hcalls => exact hat.destroys hn hcalls

end Inv

/-! ### The end -/

/-- A step that the owner or the pool takes by itself. -/
def Own : Action τ n → Prop
  | .pool a => WorkerPool.Own a
  | .owner => True

def OnlyOwn (tr : List (Owned τ n × Action τ n)) : Prop := ∀ p ∈ tr, Own p.2

/-- No own step is possible. -/
def Rests (s : Owned τ n) : Prop := ∀ a, Own a → step s a = none

/-- What owner and pool can still do by themselves. -/
def rank (s : Owned τ n) : ℕ :=
  s.pool.rank + ((n + 3) * s.calls.length - s.joined) + if s.life = .alive then 1 else 0

/-- The pool is in the state that an outcome names. -/
def EndsAs (s : Owned τ n) : PoolOutcome → Prop
  | .destroyed => s.life = .destroyed
  | .terminated => s.life = .terminated
  | .blocked => s.life = .alive ∧ s.pool.queue.quit = false ∧ ∃ rest, s.calls = .join :: rest
  | .kept => s.life = .alive ∧ s.calls = []
  | .unjoined => s.life = .terminated ∧ (∀ i, s.pool.workers i = .returned) ∨
      s.life = .undefined ∧ ∃ i, s.pool.workers i ≠ .returned

/-- What a step is for the pool. -/
def poolLabel (p : Owned τ n × Action τ n) : Option (WorkerPool.Action τ n) :=
  match p.2 with
  | .pool a => some a
  | .owner =>
    match p.1.calls with
    | .safeQuit :: _ => some .safeQuit
    | _ => none

/-- The steps of the pool in a run. -/
def poolSteps (tr : List (Owned τ n × Action τ n)) :
    List (WorkerPool τ n × WorkerPool.Action τ n) :=
  view pool poolLabel tr

theorem simulates_pool :
    Simulates (step (τ := τ) (n := n)) WorkerPool.step (fun _ => True) pool poolLabel := by
  refine ⟨fun _ _ _ _ _ => trivial, fun s a u _ h => ?_⟩
  cases (step_cases h).2 with
  | @pool b p _ hp => exact Or.inr ⟨b, rfl, hp⟩
  | quits hcalls =>
    refine Or.inr ⟨.safeQuit, ?_, rfl⟩
    simp [poolLabel, hcalls]
  | joins hcalls _ _ _ | throws hcalls _ _ | joined hcalls _ | destroys hcalls =>
    refine Or.inl ⟨?_, rfl⟩
    simp [poolLabel, hcalls]

section End

variable {s u : Owned τ n} {a : Action τ n} {calls : List OwnerCall} {joined : Bool}
  {tr : List (Owned τ n × Action τ n)}

theorem rank_lt_of_own (hinv : Inv calls s) (ha : Own a) (h : step s a = some u) :
    rank u < rank s := by
  obtain ⟨hlife, h⟩ := step_cases h
  rw [Inv, hlife] at hinv
  obtain ⟨joined, hat⟩ := hinv
  have hle := hat.le
  have hrest : ∀ {c : OwnerCall} {rest : List OwnerCall}, s.calls = c :: rest →
      (n + 3) * s.calls.length = (n + 3) * rest.length + (n + 3) := by
    intro c rest hcalls
    rw [hcalls, List.length_cons, Nat.mul_succ]
  cases h with
  | pool _ hp =>
    have hlt := WorkerPool.rank_lt_of_own ha hp
    simp only [rank]
    omega
  | quits hcalls =>
    have hzero : s.joined = 0 := hat.joined_eq_zero fun rest' => by simp [hcalls]
    have hlength := hrest hcalls
    simp only [rank, WorkerPool.rank_safeQuit, hzero]
    omega
  | joins hcalls hlt _ _ =>
    have hlength := hrest hcalls
    simp only [rank]
    omega
  | throws hcalls _ _ =>
    simp only [rank, hlife]
    simp
  | joined hcalls _ =>
    have hlength := hrest hcalls
    simp only [rank]
    omega
  | @destroys rest hcalls =>
    have hlength := hrest hcalls
    have hdead : (s.destroy rest).life ≠ .alive := by
      rw [destroy]
      split_ifs <;> simp
    rw [rank, rank, if_pos hlife, if_neg hdead]
    show s.pool.rank + ((n + 3) * rest.length - s.joined) + 0 < _
    omega

theorem join_eq_none {rest : List OwnerCall} (h : s.join rest = none) :
    ∃ hlt : s.joined < n, s.joinable ⟨s.joined, hlt⟩ = true ∧
      s.pool.workers ⟨s.joined, hlt⟩ ≠ .returned := by
  unfold join at h
  split_ifs at h with hlt hjoinable
  refine ⟨hlt, hjoinable, fun hreturned => ?_⟩
  simp [hreturned] at h

theorem endsAs_of_rests (hn : 0 < n) (hinv : Inv calls s) (hrests : Rests s) :
    EndsAs s (outcomeOf false false calls) := by
  cases hlife : s.life with
  | destroyed =>
    rw [Inv, hlife] at hinv
    rw [hinv.1]
    exact hlife
  | terminated =>
    rw [Inv, hlife] at hinv
    rcases hinv with hinv | ⟨hinv, hall⟩
    · rw [show outcomeOf false false calls = .terminated from hinv]
      exact hlife
    · rw [hinv]
      exact Or.inl ⟨hlife, hall⟩
  | undefined =>
    rw [Inv, hlife] at hinv
    rw [hinv.1]
    exact Or.inr ⟨hlife, hinv.2⟩
  | alive =>
    rw [Inv, hlife] at hinv
    obtain ⟨joined, hat⟩ := hinv
    have hpool : WorkerPool.Rests s.pool := by
      intro a ha
      have hnone := hrests (.pool a) ha
      rw [step, if_pos hlife] at hnone
      cases a with
      | enqueue _ | safeQuit | spurious _ => exact absurd ha id
      | notifyOne _ | notifyAll | look _ | finish _ => exact Option.map_eq_none_iff.mp hnone
    obtain ⟨-, -, hreturned⟩ := WorkerPool.idle_of_rests hn hat.inv hpool
    have hnotify : s.pool.notifyAll = 0 := by
      by_contra hpos
      exact WorkerPool.own_of_notifyAll (Nat.pos_of_ne_zero hpos) hpool
    have howner := hrests .owner trivial
    rw [step, if_pos hlife, act, ownerStep, if_neg (not_not.mpr hnotify)] at howner
    rw [← hat.outcome]
    cases hcalls : s.calls with
    | nil => exact ⟨hlife, hcalls⟩
    | cons c rest =>
      rw [hcalls] at howner
      cases c with
      | safeQuit | destroy => cases howner
      | join =>
        -- the next worker has not returned
        obtain ⟨hlt, hjoinable, hrunning⟩ := join_eq_none howner
        have hquit : s.pool.queue.quit = false := by
          by_contra hquit
          exact hrunning (hreturned (Bool.eq_true_of_not_eq_false hquit) _)
        have hnot : joined = false := by
          have := hat.joinable ⟨s.joined, hlt⟩
          rw [hjoinable] at this
          cases joined with
          | false => rfl
          | true => simp at this
        rw [hquit, hnot, outcomeOf]
        exact ⟨hlife, hquit, rest, hcalls⟩

/-- **How the calls of an owner end is read off them alone.**  Whatever tasks
there are and in whatever order the threads run, owner and pool come to rest in
at most `rank s` steps of their own, and when they rest, the calls have ended as
`outcomeOf` says; a pool that is destroyed with workers that are not joined ends
the process when they have all returned, and else nothing is said.  A pool is
only destroyed as it should be when all tasks it has accepted are finished. -/
theorem closes [DecidableEq τ] (hn : 0 < n) (h : Run step (start τ n calls) tr s) :
    (∃ tr' u, Run step s tr' u ∧ OnlyOwn tr' ∧ Rests u) ∧
      (∀ tr' u, Run step s tr' u → OnlyOwn tr' → tr'.length ≤ rank s ∧
        (Rests u → EndsAs u (outcomeOf false false calls))) ∧
      (s.life = .destroyed → (WorkerPool.finished (poolSteps tr)).Perm
        (WorkerPool.accepted (poolSteps tr))) := by
  have hkeeps : ∀ (t : Owned τ n) a u, Inv calls t → Own a → step t a = some u →
      Inv calls u ∧ rank u < rank t :=
    fun t a u ht ha hu => ⟨inv_step hn ht hu, rank_lt_of_own ht ha hu⟩
  have hinv : Inv calls s := h.invariant inv_start fun _ _ _ ht hu => inv_step hn ht hu
  refine ⟨Run.exists_rests (C := fun _ a => Own a) hkeeps hinv,
    fun tr' u h' hown => ⟨?_, fun hrests => ?_⟩, fun hlife => ?_⟩
  · have hlength := h'.length_add_le (C := fun _ a => Own a) hinv hkeeps hown
    omega
  · exact endsAs_of_rests hn (h'.invariant hinv fun _ _ _ ht hu => inv_step hn ht hu) hrests
  · rw [Inv, hlife] at hinv
    obtain ⟨-, hpool, hreturned⟩ := hinv
    have hrun : Run WorkerPool.step (.new τ n) (poolSteps tr) s.pool := simulates_pool.run trivial h
    have htasks : s.pool.queue.tasks = [] := (hpool.returned ⟨0, hn⟩ (hreturned _)).2
    obtain ⟨hqueue, hcount⟩ := WorkerPool.tasks_once hrun
    refine List.perm_iff_count.mpr fun t => ?_
    have hzero : WorkerPool.running s.pool.workers t = 0 := by
      refine Finset.sum_eq_zero fun i _ => if_neg ?_
      rw [hreturned i]
      simp
    rw [hqueue, htasks, List.append_nil, hcount t, hzero, Nat.add_zero]

/-- `Recorder::stop` while a task is running and another is queued. -/
theorem closes_recorder_stop :
    ∃ tr s, Run step (start ℕ 1 recorderStop) tr s ∧
      tr.map Prod.snd = [.pool (.enqueue 5), .pool (.look 0), .pool (.enqueue 7), .owner] ∧
      ∃ tr' u, Run step s tr' u ∧ OnlyOwn tr' ∧ tr'.length ≤ rank s ∧ u.life = .destroyed := by
  obtain ⟨tr, s, h, hlabels⟩ : ∃ tr s, Run step (start ℕ 1 recorderStop) tr s ∧
      tr.map Prod.snd = [.pool (.enqueue 5), .pool (.look 0), .pool (.enqueue 7), .owner] :=
    ⟨_, _, Run.of_exec [.pool (.enqueue 5), .pool (.look 0), .pool (.enqueue 7), .owner] rfl, rfl⟩
  obtain ⟨⟨tr', u, h', hown, hrests⟩, hends, -⟩ := closes (by decide) h
  obtain ⟨hlength, hu⟩ := hends tr' u h' hown
  exact ⟨tr, s, h, hlabels, tr', u, h', hown, hlength, hu hrests⟩

end End

end Owned
