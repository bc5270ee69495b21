/-
The network monitor of MicAgent: setting the clock, then probing.

The worker thread fetches the time until `m_timeSet` is set, then probes the
network; the status changes with a successful probe and with the third failure
in a row, and the observers registered at that moment are told.  `addObserver`
and `reset` change nothing else.  Each of the three takes `m_mutex`, and is one
step here.

* `NetworkMonitor.step` — an attempt to set the clock, a probe, `addObserver`,
  `reset` or the destructor's `m_quit`;
* `clockInv_run`, `not_synchronises` — **the clock phase ends with the first
  failure**;
* `consistent_iff` — **the runs in which the observers know the status**.
-/
import Mathlib.Data.Finset.Insert
import IflyosSDK.Jnh
import IflyosSDK.Runs

namespace NetworkMonitor

inductive NetworkStatus
  | networkFail
  | httpsOk
  deriving DecidableEq, Repr

/-- `LOSE_CHECK`, in seconds. -/
def loseCheck : ℕ := 10

/-- What `jnh_get` returns, and the status code it stores. -/
structure Get where
  ret : ℤ
  code : ℤ
  deriving DecidableEq, Repr

/-- `fetchAndSetTime`; `date` is the exit status of the command that sets the
clock. -/
def fetchAndSetTime (get : Get) (date : ℤ) : Bool :=
  if get.ret ≠ JNHE_OK then false
  else if get.code ≠ 200 then false
  else if date = 0 then true
  else false

def testConnection (get : Get) : Bool :=
  if get.ret ≠ JNHE_OK then false
  else if get.code ≠ 200 then false
  else true

/-- The monitor, with the locals `first` and `failTimes` of its thread.
`attempts` records every attempt to set the clock, with the seconds slept
before it, and `told` what each observer has been told. -/
structure State (O : Type*) where
  status : NetworkStatus
  observers : Finset O
  timeSet : Bool
  quit : Bool
  first : Bool
  failTimes : ℕ
  attempts : List (ℕ × Bool)
  told : O → List NetworkStatus

/-- What can happen next. -/
inductive Action (O : Type*)
  | fetch (get : Get) (date : ℤ)
  | probe (get : Get)
  | addObserver (o : O)
  | reset
  | quit

variable {O : Type*}

/-- The thread has just been started. -/
def init : State O where
  status := .networkFail
  observers := ∅
  timeSet := false
  quit := false
  first := true
  failTimes := 0
  attempts := []
  told := fun _ => []

section Step

variable [DecidableEq O] (s : State O)

/-- An iteration of the first loop, with the result of `fetchAndSetTime`. -/
def fetch (ok : Bool) : State O :=
  let s := { s with attempts := s.attempts ++ [(if ¬ s.first then loseCheck else 0, ok)] }
  if ok then s else { s with timeSet := true }

/-- `onNetworkStatusChanged` for every observer. -/
def notify (status : NetworkStatus) : State O :=
  { s with
    status := status
    told := fun o => if o ∈ s.observers then s.told o ++ [status] else s.told o }

/-- An iteration of the second loop, with the result of `testConnection`. -/
def probe (ok : Bool) : State O :=
  let s :=
    if ¬ ok ∧ s.failTimes ≥ 2 ∧ s.status ≠ .networkFail then notify s .networkFail else s
  let s := if ok ∧ s.status = .networkFail then notify s .httpsOk else s
  if ok then { s with failTimes := 0 } else { s with failTimes := s.failTimes + 1 }

def addObserver (o : O) : State O := { s with observers := insert o s.observers }

def reset : State O := { s with status := .networkFail }

def step : Action O → Option (State O)
  | .fetch get date =>
    if ¬ s.quit ∧ ¬ s.timeSet then some (fetch s (fetchAndSetTime get date)) else none
  | .probe get =>
    -- the first loop has ended
    if s.timeSet ∧ ¬ s.quit then some (probe s (testConnection get)) else none
  | .addObserver o => some (addObserver s o)
  | .reset => some (reset s)
  | .quit => some { s with quit := true }

end Step

/-! ### Setting the clock -/

section Clock

variable [DecidableEq O] {s u : State O} {a : Action O} {tr : List (State O × Action O)}

/-- What the first loop has done: no attempt has waited, and the flag says that
one has failed. -/
structure ClockInv (s : State O) : Prop where
  first : s.first = true
  unpaused : ∀ attempt ∈ s.attempts, attempt.1 = 0
  timeSet : s.timeSet = true ↔ ∃ attempt ∈ s.attempts, attempt.2 = false

/-- A probe leaves the variables of the first loop alone. -/
theorem probe_frame (s : State O) (ok : Bool) : (probe s ok).first = s.first ∧
    (probe s ok).attempts = s.attempts ∧ (probe s ok).timeSet = s.timeSet := by
  rw [probe]
  split
  · split
    · split <;> exact ⟨rfl, rfl, rfl⟩
    · split <;> exact ⟨rfl, rfl, rfl⟩
  · split
    · split <;> exact ⟨rfl, rfl, rfl⟩
    · split <;> exact ⟨rfl, rfl, rfl⟩

theorem fetch_of_step {get : Get} {date : ℤ} (h : step s (.fetch get date) = some u) :
    s.quit = false ∧ s.timeSet = false ∧ u = fetch s (fetchAndSetTime get date) := by
  rw [step] at h
  split at h
  · rename_i hloop
    refine ⟨?_, ?_, (Option.some.inj h).symm⟩
    · exact Bool.eq_false_iff.mpr hloop.1
    · exact Bool.eq_false_iff.mpr hloop.2
  · cases h

theorem probe_of_step {get : Get} (h : step s (.probe get) = some u) :
    u = probe s (testConnection get) := by
  rw [step] at h
  split at h
  · exact (Option.some.inj h).symm
  · cases h

theorem clockInv_step (hinv : ClockInv s) (h : step s a = some u) : ClockInv u := by
  cases a with
  | fetch get date =>
    obtain ⟨-, htimeSet, rfl⟩ := fetch_of_step h
    have hnone : ¬ ∃ attempt ∈ s.attempts, attempt.2 = false := by
      rw [← hinv.timeSet, htimeSet]
      exact Bool.noConfusion
    have hpause : (if ¬ s.first = true then loseCheck else 0) = 0 := by
      rw [if_neg (not_not.mpr hinv.first)]
    have hunpaused : ∀ ok, ∀ attempt ∈ s.attempts ++ [(0, ok)], attempt.1 = 0 := by
      intro ok attempt hmem
      rcases List.mem_append.mp hmem with hmem | hmem
      · exact hinv.unpaused attempt hmem
      · rw [List.mem_singleton.mp hmem]
    rw [fetch, hpause]
    cases fetchAndSetTime get date with
    | true =>
      refine ⟨hinv.first, hunpaused true, iff_of_false (Bool.eq_false_iff.mp htimeSet) ?_⟩
      rintro ⟨attempt, hmem, hfalse⟩
      rcases List.mem_append.mp hmem with hmem | hmem
      · exact hnone ⟨attempt, hmem, hfalse⟩
      · rw [List.mem_singleton.mp hmem] at hfalse
        cases hfalse
    | false =>
      have hfailed : ((0, false) : ℕ × Bool) ∈ s.attempts ++ [(0, false)] :=
        List.mem_append_right _ List.mem_cons_self
      exact ⟨hinv.first, hunpaused false, iff_of_true rfl ⟨_, hfailed, rfl⟩⟩
  | probe get =>
    obtain rfl := probe_of_step h
    obtain ⟨hfirst, hattempts, htimeSet⟩ := probe_frame s (testConnection get)
    refine ⟨hfirst.trans hinv.first, ?_, ?_⟩
    · rw [hattempts]
      exact hinv.unpaused
    · rw [hattempts, htimeSet]
      exact hinv.timeSet
  | addObserver o | reset | quit =>
    rw [← Option.some.inj h]
    exact ⟨hinv.first, hinv.unpaused, hinv.timeSet⟩

/-- **The flag `m_timeSet` says that an attempt has failed**, and no attempt
waits for the pause. -/
theorem clockInv_run (h : Run step init tr s) : ClockInv s := by
  refine h.invariant (I := ClockInv) ⟨rfl, ?_, ?_⟩ fun _ _ _ hs hu => clockInv_step hs hu
  · intro attempt hmem
    cases hmem
  · simp [init]

/-- The thread makes all of these attempts and then leaves the loop, with the
flag set exactly when one has succeeded, and with the pause before every attempt
but the first. -/
def Synchronises (O : Type*) [DecidableEq O] (attempts : List (Get × ℤ)) : Prop :=
  ∃ tr s, Run step (init : State O) tr s ∧
    tr.map Prod.snd = attempts.map (fun a => .fetch a.1 a.2) ∧
    (∀ get date, step s (.fetch get date) = none) ∧
    (s.timeSet = true ↔ ∃ attempt ∈ s.attempts, attempt.2 = true) ∧
    ∀ attempt ∈ s.attempts.tail, attempt.1 = loseCheck

/-- A success does not end the loop. -/
theorem not_synchronises_append {attempts : List (Get × ℤ)} {get : Get} {date : ℤ}
    (hok : fetchAndSetTime get date = true) : ¬ Synchronises O (attempts ++ [(get, date)]) := by
  rintro ⟨tr, s, hrun, hlabels, hleft, -⟩
  rw [List.map_append, List.map_singleton] at hlabels
  obtain ⟨tr₁, tr₂, rfl, -, hlast⟩ := List.map_eq_append_iff.mp hlabels
  obtain ⟨p, rfl, hp⟩ := List.map_eq_singleton_iff.mp hlast
  obtain ⟨-, hstep⟩ := Run.snoc_iff.mp hrun
  rw [hp] at hstep
  obtain ⟨hquit, htimeSet, rfl⟩ := fetch_of_step hstep
  have hleft := hleft get date
  rw [hok, fetch, step] at hleft
  simp [hquit, htimeSet] at hleft

/-- **The clock phase never does what it is for**: whatever the number of
failures before the first success. -/
theorem not_synchronises {attempts : List (Get × ℤ)} {k : ℕ}
    (h : attempts.map (fun a => fetchAndSetTime a.1 a.2) = List.replicate k false ++ [true]) :
    ¬ Synchronises O attempts := by
  obtain ⟨before, last, rfl, -, hlast⟩ := List.map_eq_append_iff.mp h
  obtain ⟨⟨get, date⟩, rfl, hok⟩ := List.map_eq_singleton_iff.mp hlast
  exact not_synchronises_append hok

/-- The server answers at the second attempt. -/
theorem not_synchronises_after_failure :
    ¬ Synchronises Unit [(⟨JNHE_TIMEOUT, 0⟩, 0), (⟨JNHE_OK, 200⟩, 0)] :=
  not_synchronises (k := 1) (by decide)

/-- **A clock that is set at once is set again**, for ever. -/
theorem not_synchronises_at_once : ¬ Synchronises Unit [(⟨JNHE_OK, 200⟩, 0)] :=
  @not_synchronises_append Unit _ [] _ _ (by decide)

end Clock

/-! ### What the observers know -/

section Observers

variable {s u : State O} {a : Action O} {tr : List (State O × Action O)}

/-- What an observer was told last; NETWORK_FAIL when it was told nothing. -/
def lastTold (s : State O) (o : O) : NetworkStatus := (s.told o).getLast?.getD .networkFail

/-- Every observer knows the status. -/
def Consistent (s : State O) : Prop := ∀ o ∈ s.observers, lastTold s o = s.status

/-- Nobody else has been told anything. -/
def Silent (s : State O) : Prop := ∀ o ∉ s.observers, s.told o = []

/-- The status is set back under an observer, or a new observer comes, while
the network is there. -/
def Unreported (s : State O) : Action O → Prop
  | .reset => s.status ≠ .networkFail ∧ s.observers ≠ ∅
  | .addObserver o => s.status ≠ .networkFail ∧ o ∉ s.observers
  | .fetch _ _ | .probe _ | .quit => False

def Action.isProbe : Action O → Bool
  | .probe _ => true
  | _ => false

variable [DecidableEq O]

instance (s : State O) : DecidablePred (Unreported s)
  | .reset => inferInstanceAs (Decidable (_ ∧ _))
  | .addObserver _ => inferInstanceAs (Decidable (_ ∧ _))
  | .fetch _ _ => isFalse id
  | .probe _ => isFalse id
  | .quit => isFalse id

theorem lastTold_notify {status : NetworkStatus} {o : O} (ho : o ∈ s.observers) :
    lastTold (notify s status) o = status := by
  show ((if o ∈ s.observers then s.told o ++ [status] else s.told o).getLast?).getD _ = status
  rw [if_pos ho, List.getLast?_concat, Option.getD_some]

theorem told_notify {status : NetworkStatus} {o : O} (ho : o ∉ s.observers) :
    (notify s status).told o = s.told o := if_neg ho

/-- What a probe leaves of the counter and the status, and what it tells. -/
theorem probe_spec (s : State O) (ok : Bool) :
    (probe s ok).observers = s.observers ∧
      (probe s ok).failTimes = (if ok then 0 else s.failTimes + 1) ∧
      ((probe s ok).status = .httpsOk ↔ ok = true ∨ s.status = .httpsOk ∧ s.failTimes < 2) ∧
      (probe s ok).told =
        if (probe s ok).status = s.status then s.told else (notify s (probe s ok).status).told := by
  cases ok with
  | true =>
    cases hstatus : s.status with
    | networkFail => simp [probe, hstatus, notify]
    | httpsOk => simp [probe, hstatus]
  | false =>
    cases hstatus : s.status with
    | networkFail => simp [probe, hstatus]
    | httpsOk =>
      by_cases hfail : s.failTimes ≥ 2
      · simp only [probe, Bool.false_eq_true, ↓reduceIte, not_false_eq_true, ge_iff_le, hfail,
          hstatus, ne_eq, reduceCtorEq, and_self, notify, and_true, true_and, false_or, false_iff,
          not_lt]
      · simp [probe, hstatus, hfail, Nat.lt_of_not_le hfail]

theorem silent_step (hsilent : Silent s) (h : step s a = some u) : Silent u := by
  cases a with
  | fetch get date =>
    obtain ⟨-, -, rfl⟩ := fetch_of_step h
    rw [fetch]
    split <;> exact hsilent
  | probe get =>
    obtain rfl := probe_of_step h
    obtain ⟨hobservers, -, -, htold⟩ := probe_spec s (testConnection get)
    intro o ho
    rw [hobservers] at ho
    rw [htold]
    split
    · exact hsilent o ho
    · exact (told_notify ho).trans (hsilent o ho)
  | addObserver o =>
    rw [← Option.some.inj h]
    exact fun o' ho' => hsilent o' fun hmem => ho' (Finset.mem_insert_of_mem hmem)
  | reset | quit =>
    rw [← Option.some.inj h]
    exact hsilent

/-- The steps that keep the observers informed. -/
theorem consistent_step (hcons : Consistent s) (hsilent : Silent s) (ha : ¬ Unreported s a)
    (h : step s a = some u) : Consistent u := by
  cases a with
  | fetch get date =>
    obtain ⟨-, -, rfl⟩ := fetch_of_step h
    rw [fetch]
    split <;> exact hcons
  | probe get =>
    obtain rfl := probe_of_step h
    obtain ⟨hobservers, -, -, htold⟩ := probe_spec s (testConnection get)
    intro o ho
    rw [hobservers] at ho
    rw [lastTold, htold]
    split
    · rename_i hsame
      rw [hsame]
      exact hcons o ho
    · exact lastTold_notify ho
  | addObserver o =>
    rw [← Option.some.inj h]
    intro o' ho'
    by_cases hmem : o' ∈ s.observers
    · exact hcons o' hmem
    · -- a new observer, which has been told nothing
      obtain rfl : o' = o := by
        rcases Finset.mem_insert.mp ho' with heq | hmem'
        · exact heq
        · exact absurd hmem' hmem
      have hstatus : s.status = .networkFail := by
        by_contra hne
        exact ha ⟨hne, hmem⟩
      show ((s.told o').getLast?).getD _ = s.status
      rw [hsilent o' hmem, hstatus]
      rfl
  | reset =>
    rw [← Option.some.inj h]
    intro o ho
    have hstatus : s.status = .networkFail := by
      by_contra hne
      exact ha ⟨hne, Finset.ne_empty_of_mem ho⟩
    exact (hcons o ho).trans hstatus
  | quit =>
    rw [← Option.some.inj h]
    exact hcons

/-- The steps that leave an observer uninformed. -/
theorem not_consistent_of_unreported (hcons : Consistent s) (hsilent : Silent s)
    (ha : Unreported s a) (h : step s a = some u) : ¬ Consistent u := by
  cases a with
  | reset =>
    obtain ⟨hstatus, hne⟩ := ha
    obtain ⟨o, ho⟩ := Finset.nonempty_iff_ne_empty.mpr hne
    rw [← Option.some.inj h]
    intro hu
    exact hstatus ((hcons o ho).symm.trans (hu o ho))
  | addObserver o =>
    obtain ⟨hstatus, ho⟩ := ha
    rw [← Option.some.inj h]
    intro hu
    have hlast : ((s.told o).getLast?).getD .networkFail = s.status :=
      hu o (Finset.mem_insert_self o _)
    rw [hsilent o ho] at hlast
    exact hstatus hlast.symm
  | fetch get date | probe get | quit => exact ha.elim

/-- After a reset an observer that knows the network as there is told a status
again, with the third probe at the latest. -/
def ReportsReset (tr : List (State O × Action O)) : Prop :=
  ∀ tr₁ p tr₂ u, tr₁ ++ p :: tr₂ <+: tr → Run step p.1 (p :: tr₂) u → p.2 = .reset →
    ∀ o ∈ p.1.observers, lastTold p.1 o = .httpsOk →
      3 ≤ tr₂.countP (fun q => q.2.isProbe) → (p.1.told o).length < (u.told o).length

/-- **The runs in which the observers know the status**: those in which the
status is not set back under an observer, and no observer is added, while the
network is there. -/
theorem consistent_iff (h : Run step init tr s) :
    ((∀ p ∈ tr, Consistent p.1) ∧ Consistent s ∧ ReportsReset tr) ↔
      ∀ p ∈ tr, ¬ Unreported p.1 p.2 := by
  have h0 : Silent (init : State O) := fun _ _ => rfl
  have hsilent : (∀ p ∈ tr, Silent p.1) ∧ Silent s :=
    ⟨h.states h0 fun _ _ _ hs hu => silent_step hs hu,
      h.invariant h0 fun _ _ _ hs hu => silent_step hs hu⟩
  have hstep : ∀ t a u, Consistent (O := O) t ∧ Silent t → step t a = some u →
      (Consistent u ∧ Silent u ↔ ¬ Unreported t a) := by
    rintro t a u ⟨hcons, hsil⟩ hu
    constructor
    · exact fun hcons' hun => not_consistent_of_unreported hcons hsil hun hu hcons'.1
    · exact fun ha => ⟨consistent_step hcons hsil ha hu, silent_step hsil hu⟩
  have hstates := Run.states_iff (I := fun s => Consistent (O := O) s ∧ Silent s)
    (C := fun s a => ¬ Unreported s a) ⟨fun o ho => absurd ho (Finset.notMem_empty o), h0⟩ hstep h
  constructor
  · rintro ⟨htr, hs, -⟩
    exact hstates.mp ⟨fun p hp => ⟨htr p hp, hsilent.1 p hp⟩, hs, hsilent.2⟩
  · intro hC
    obtain ⟨htr, hs, -⟩ := hstates.mpr hC
    refine ⟨fun p hp => (htr p hp).1, hs, ?_⟩
    -- a reset finds no observer that knows the network as there
    intro tr₁ p tr₂ u hprefix _ hreset o ho hlast _
    have hp : p ∈ tr := hprefix.subset (by simp)
    have hnot := hC p hp
    rw [hreset] at hnot
    refine absurd ⟨?_, Finset.ne_empty_of_mem ho⟩ hnot
    rw [← (htr p hp).1 o ho, hlast]
    exact NetworkStatus.noConfusion

/-- The clock phase is over, an observer is registered, the network comes and
is lost. -/
def networkLost : List (Action Unit) :=
  [.fetch ⟨JNHE_TIMEOUT, 0⟩ 0, .addObserver (), .probe ⟨JNHE_OK, 200⟩, .probe ⟨JNHE_TIMEOUT, 0⟩,
    .probe ⟨JNHE_TIMEOUT, 0⟩, .probe ⟨JNHE_TIMEOUT, 0⟩]

/-- The network comes, the monitor is reset, and the network is lost. -/
def resetThenLost : List (Action Unit) :=
  [.fetch ⟨JNHE_TIMEOUT, 0⟩ 0, .addObserver (), .probe ⟨JNHE_OK, 200⟩, .reset,
    .probe ⟨JNHE_TIMEOUT, 0⟩, .probe ⟨JNHE_TIMEOUT, 0⟩, .probe ⟨JNHE_TIMEOUT, 0⟩]

/-- An observer is told that the network comes and that it is lost. -/
theorem consistent_when_network_lost :
    ∃ tr s, Run step init tr s ∧ tr.map Prod.snd = networkLost ∧
      s.told () = [.httpsOk, .networkFail] ∧ Consistent s := by
  have h : Run step init _ _ := Run.of_exec networkLost rfl
  exact ⟨_, _, h, rfl, rfl, ((consistent_iff h).mpr (by decide)).2.1⟩

/-- **A reset is not reported**: three failed probes later the observer still
knows the network as there, and the status is NETWORK_FAIL. -/
theorem reset_not_reported :
    ∃ tr s, Run step init tr s ∧ tr.map Prod.snd = resetThenLost ∧ () ∈ s.observers ∧
      s.told () = [.httpsOk] ∧ s.status = .networkFail :=
  ⟨_, _, Run.of_exec resetThenLost rfl, rfl, by decide, rfl, rfl⟩

end Observers

end NetworkMonitor
