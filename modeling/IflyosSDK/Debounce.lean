/-
The status of the network monitor over a sequence of probes.

A success makes the status HTTPS_OK; only the third failure in a row makes it
NETWORK_FAIL again.  The counter is tested before it is incremented, and set
back by a success alone.

* `trailing` — the failures at the end of a sequence;
* `NetworkMonitor.DebounceInv` — counter, status and observers against the
  probes so far;
* `NetworkMonitor.debounced` — **what the status says, and what the observers
  are told**.
-/
import IflyosSDK.NetworkMonitor

/-! ### Sequences of results -/

/-- The failures at the end. -/
def trailing (w : List Bool) : ℕ := (w.reverse.takeWhile (· = false)).length

theorem trailing_snoc_true (w : List Bool) : trailing (w ++ [true]) = 0 := by
  simp [trailing]

theorem trailing_snoc_false (w : List Bool) : trailing (w ++ [false]) = trailing w + 1 := by
  simp [trailing]

theorem replicate_suffix_iff {n : ℕ} {w : List Bool} :
    List.replicate n false <:+ w ↔ n ≤ trailing w := by
  induction w using List.reverseRecOn generalizing n with
  | nil =>
    rw [List.suffix_nil, List.replicate_eq_nil_iff]
    exact Nat.le_zero.symm
  | append_singleton w ok ih =>
    cases n with
    | zero => exact iff_of_true (List.nil_suffix) (Nat.zero_le _)
    | succ n =>
      rw [List.replicate_succ', List.suffix_concat_iff]
      cases ok with
      | true =>
        rw [trailing_snoc_true]
        simp
      | false =>
        rw [trailing_snoc_false]
        simp [ih]

namespace NetworkMonitor

variable {O : Type*}

/-- HTTPS_OK, NETWORK_FAIL, HTTPS_OK, ... -/
def alternating (n : ℕ) : List NetworkStatus :=
  (List.range n).map fun i => if i % 2 = 0 then .httpsOk else .networkFail

theorem alternating_succ (n : ℕ) :
    alternating (n + 1) = alternating n ++ [if n % 2 = 0 then .httpsOk else .networkFail] := by
  rw [alternating, List.range_succ, List.map_append]
  rfl

section Debounce

variable [DecidableEq O]

/-- The result of a probe. -/
def result : Action O → Option Bool
  | .probe get => some (testConnection get)
  | .fetch _ _ | .addObserver _ | .reset | .quit => none

/-- The results of the probes of a run. -/
def results (tr : List (State O × Action O)) : List Bool := tr.filterMap fun p => result p.2

/-- The status that a step sets, when it is not the one before. -/
def change (p : State O × Action O) : Option NetworkStatus :=
  (step p.1 p.2).bind fun u => if u.status = p.1.status then none else some u.status

/-- The changes of the status in a run. -/
def changes (tr : List (State O × Action O)) : List NetworkStatus := tr.filterMap change

variable {s₀ s u : State O} {a : Action O} {get : Get} {tr₀ tr : List (State O × Action O)}
  {o : O}

/-- Nothing has been probed. -/
structure Fresh (s : State O) : Prop where
  status : s.status = .networkFail
  failTimes : s.failTimes = 0
  told : ∀ o, s.told o = []

theorem fresh_step (hs : Fresh s) (ha : ¬ a.isProbe) (h : step s a = some u) : Fresh u := by
  cases a with
  | fetch get date =>
    obtain ⟨-, -, rfl⟩ := fetch_of_step h
    rw [fetch]
    split <;> exact ⟨hs.status, hs.failTimes, hs.told⟩
  | probe get => exact absurd rfl ha
  | addObserver o | quit =>
    rw [← Option.some.inj h]
    exact ⟨hs.status, hs.failTimes, hs.told⟩
  | reset =>
    rw [← Option.some.inj h]
    exact ⟨rfl, hs.failTimes, hs.told⟩

theorem fresh_of_run (h : Run step init tr₀ s₀) (hpre : ∀ p ∈ tr₀, ¬ p.2.isProbe) : Fresh s₀ :=
  h.invariant_of (C := fun _ a => ¬ a.isProbe) ⟨rfl, rfl, fun _ => rfl⟩
    (fun _ _ _ hs ha hu => fresh_step hs ha hu) hpre

/-! ### Runs of probes -/

omit [DecidableEq O] in
theorem results_snoc :
    results (tr ++ [(s, .probe get)]) = results tr ++ [testConnection get] := by
  rw [results, List.filterMap_append]
  rfl

theorem changes_snoc : changes (tr ++ [(s, a)]) = changes tr ++ (change (s, a)).toList := by
  rw [changes, List.filterMap_append, List.filterMap_cons]
  cases change (s, a) <;> rfl

theorem change_of_step (h : step s a = some u) :
    change (s, a) = if u.status = s.status then none else some u.status := by
  show (step s a).bind _ = _
  rw [h, Option.bind_some]

/-- Counter, status and observers against the probes so far. -/
structure DebounceInv (s₀ : State O) (tr : List (State O × Action O)) (s : State O) : Prop where
  observers : s.observers = s₀.observers
  failTimes : s.failTimes = trailing (results tr)
  status : s.status = .httpsOk ↔ true ∈ results tr ∧ trailing (results tr) < 3
  parity : s.status = .httpsOk ↔ (changes tr).length % 2 = 1
  alternates : changes tr = alternating (changes tr).length
  told : ∀ o, s.told o = if o ∈ s₀.observers then changes tr else []

theorem debounceInv_start (h : Fresh s₀) : DebounceInv s₀ [] s₀ where
  observers := rfl
  failTimes := h.failTimes
  status := by
    rw [h.status]
    simp [results]
  parity := by
    rw [h.status]
    simp [changes]
  alternates := rfl
  told := fun o => by
    rw [h.told]
    exact (ite_self _).symm

/-- The other status. -/
theorem httpsOk_iff_of_ne {st st' : NetworkStatus} (h : st ≠ st') :
    st = .httpsOk ↔ ¬ st' = .httpsOk := by
  cases st <;> cases st' <;> simp_all

theorem status_snoc (hinv : DebounceInv s₀ tr s) (h : step s (.probe get) = some u) :
    u.failTimes = trailing (results tr ++ [testConnection get]) ∧
      (u.status = .httpsOk ↔ true ∈ results tr ++ [testConnection get] ∧
        trailing (results tr ++ [testConnection get]) < 3) := by
  obtain ⟨-, hfailTimes, hstatus, -⟩ := probe_spec s (testConnection get)
  rw [← probe_of_step h] at hfailTimes hstatus
  rw [hfailTimes, hstatus]
  cases testConnection get with
  | true =>
    rw [trailing_snoc_true]
    simp
  | false =>
    -- the third failure finds the counter at two
    rw [trailing_snoc_false, hinv.status, hinv.failTimes, List.mem_append]
    simp only [Bool.false_eq_true, if_false, List.mem_singleton, or_false, false_or, true_and,
      Bool.true_eq_false]
    constructor
    · rintro ⟨⟨hmem, -⟩, hlt⟩
      exact ⟨hmem, by omega⟩
    · rintro ⟨hmem, hlt⟩
      exact ⟨⟨hmem, by omega⟩, by omega⟩

theorem changes_of_ne (hinv : DebounceInv s₀ tr s) (hne : u.status ≠ s.status) :
    (u.status = .httpsOk ↔ ((changes tr).length + 1) % 2 = 1) ∧
      changes tr ++ [u.status] = alternating ((changes tr).length + 1) := by
  have hparity : u.status = .httpsOk ↔ (changes tr).length % 2 = 0 := by
    rw [httpsOk_iff_of_ne hne, hinv.parity]
    omega
  refine ⟨by rw [hparity]; omega, ?_⟩
  rw [alternating_succ, ← hinv.alternates]
  congr 2
  split
  · rename_i heven
    exact hparity.mpr heven
  · rename_i hodd
    have hnot := fun hok => hodd (hparity.mp hok)
    revert hnot
    cases u.status <;> simp

theorem debounceInv_snoc (hinv : DebounceInv s₀ tr s) (ha : a.isProbe)
    (h : step s a = some u) : DebounceInv s₀ (tr ++ [(s, a)]) u := by
  cases a with
  | probe get =>
    obtain ⟨hobservers, -, -, htold⟩ := probe_spec s (testConnection get)
    rw [← probe_of_step h] at hobservers htold
    obtain ⟨hfailTimes, hstatus⟩ := status_snoc hinv h
    rw [← results_snoc (s := s)] at hfailTimes hstatus
    by_cases hsame : u.status = s.status
    · have hchanges : changes (tr ++ [(s, .probe get)]) = changes tr := by
        rw [changes_snoc, change_of_step h, if_pos hsame, Option.toList_none, List.append_nil]
      rw [if_pos hsame] at htold
      refine ⟨hobservers.trans hinv.observers, hfailTimes, hstatus, ?_, ?_, ?_⟩
      · rw [hchanges, hsame]
        exact hinv.parity
      · rw [hchanges]
        exact hinv.alternates
      · rw [hchanges, htold]
        exact hinv.told
    · have hchanges : changes (tr ++ [(s, .probe get)]) = changes tr ++ [u.status] := by
        rw [changes_snoc, change_of_step h, if_neg hsame, Option.toList_some]
      rw [if_neg hsame] at htold
      obtain ⟨hparity, halternates⟩ := changes_of_ne hinv hsame
      refine ⟨hobservers.trans hinv.observers, hfailTimes, hstatus, ?_, ?_, ?_⟩
      · rw [hchanges, List.length_append, List.length_singleton]
        exact hparity
      · rw [hchanges, List.length_append, List.length_singleton]
        exact halternates
      · intro o
        rw [hchanges, htold, notify]
        show (if o ∈ s.observers then s.told o ++ [u.status] else s.told o) = _
        rw [hinv.told o, hinv.observers]
        split <;> rfl
  | fetch | addObserver | reset | quit => cases ha

/-- **What the status says, and what the observers are told.**  Once the clock
phase is over and the observers are registered, the status is HTTPS_OK exactly
when a probe has succeeded and the last three have not all failed; and every
observer is told every change once, as it happens: HTTPS_OK, NETWORK_FAIL,
HTTPS_OK and so on. -/
theorem debounced (h₀ : Run step init tr₀ s₀) (hpre : ∀ p ∈ tr₀, ¬ p.2.isProbe)
    (h : Run step s₀ tr s) (hprobes : ∀ p ∈ tr, p.2.isProbe) :
    (s.status = .httpsOk ↔
        true ∈ results tr ∧ ¬ [false, false, false] <:+ results tr) ∧
      (∀ o ∈ s₀.observers, s.told o = changes tr) ∧
      changes tr = alternating (changes tr).length ∧
      ∀ p ∈ tr, ∀ u, step p.1 p.2 = some u → ∀ o ∈ s₀.observers,
        u.told o = p.1.told o ++ (change p).toList := by
  have hinv : ∀ {tr s}, Run step s₀ tr s → (∀ p ∈ tr, p.2.isProbe) → DebounceInv s₀ tr s := by
    intro tr s h hprobes
    refine h.history_of (C := fun _ a => a.isProbe) ?_ ?_ hprobes
    · exact debounceInv_start (fresh_of_run h₀ hpre)
    · exact fun _ _ _ _ hi ha hu => debounceInv_snoc hi ha hu
  have hend := hinv h hprobes
  refine ⟨?_, ?_, hend.alternates, ?_⟩
  · have hsuffix : [false, false, false] <:+ results tr ↔ 3 ≤ trailing (results tr) :=
      replicate_suffix_iff (n := 3)
    rw [hend.status, hsuffix, not_le]
  · intro o ho
    rw [hend.told, if_pos ho]
  · intro p hp u hu o ho
    obtain ⟨tr₁, tr₂, rfl⟩ := List.append_of_mem hp
    have h₁ := h.split.1
    have hprobes₁ : ∀ q ∈ tr₁ ++ [p], q.2.isProbe := by
      intro q hq
      exact hprobes q (by simpa [or_assoc] using Or.inl (List.mem_append.mp hq))
    have hbefore := hinv h₁ fun q hq => hprobes₁ q (List.mem_append_left _ hq)
    have hafter := hinv (Run.snoc_iff.mpr ⟨h₁, hu⟩) hprobes₁
    rw [hbefore.told, hafter.told, if_pos ho, if_pos ho, changes_snoc]

/-- The observers before the first probe. -/
def fixedObservers : List (Action Unit) := [.fetch ⟨JNHE_TIMEOUT, 0⟩ 0, .addObserver ()]

/-- The network comes after a failure, two more failures pass, and the third in
a row is told. -/
def thirdFailure : List (Action Unit) :=
  [.probe ⟨JNHE_TIMEOUT, 0⟩, .probe ⟨JNHE_OK, 200⟩, .probe ⟨JNHE_TIMEOUT, 0⟩,
    .probe ⟨JNHE_TIMEOUT, 0⟩, .probe ⟨JNHE_TIMEOUT, 0⟩]

theorem debounced_third_failure :
    ∃ tr₀ s₀ tr s, Run step init tr₀ s₀ ∧ tr₀.map Prod.snd = fixedObservers ∧
      Run step s₀ tr s ∧ tr.map Prod.snd = thirdFailure ∧
      s.status ≠ .httpsOk ∧ s.told () = [.httpsOk, .networkFail] := by
  have h₀ : Run step init _ (addObserver (fetch init false) ()) :=
    Run.of_exec (r := (_, _)) fixedObservers rfl
  have h : Run step (addObserver (fetch init false) ()) _ _ := Run.of_exec thirdFailure rfl
  obtain ⟨hstatus, htold, -, -⟩ := debounced h₀ (by decide) h (by decide)
  refine ⟨_, _, _, _, h₀, rfl, h, rfl, ?_, ?_⟩
  · intro hok
    exact (hstatus.mp hok).2 (by decide)
  · exact htold () (by decide)

end Debounce

end NetworkMonitor
