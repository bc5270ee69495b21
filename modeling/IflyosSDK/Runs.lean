/-
Runs of a labelled transition function.

A system is a partial function `step : σ → α → Option σ`.  The label carries
everything the environment chooses, and `none` says that the label cannot
happen in that state.  `Run step s tr t` is a finite run from `s` to `t`; its
trace `tr` lists every state that took a step with the label taken there, so
that a condition on every step of a run reads `∀ p ∈ tr, C p.1 p.2`.

* `Run.invariant` and `Run.invariant_of` — an invariant kept by every step (by
  every step that meets a condition) holds in the last state;
* `Run.states` and `Run.states_of` — and in every state of the trace;
* `Run.states_iff` and `Run.iff_forall` — the runs that keep an invariant, from
  the steps that do;
* `Run.countP_add_le` — a measure bounds the steps of a kind;
* `Run.exists_rests` — steps that all lower a measure lead to rest;
* `Run.history_of` and `Run.history_iff` — the same for invariants that look
  back at the trace;
* `Run.split` and `Run.exists_next` — a run passes through each of its trace's
  states, and what stands behind a step;
* `Run.unique` and `Run.prefix_of_labels` — the labels determine a run, and its
  starts;
* `Run.of_exec` — executing a list of labels gives a run.
-/
import Mathlib.Data.List.Induction

variable {σ α : Type*}

/-- Finite runs of `step` from `s`: the trace of the steps taken and the state
reached. -/
inductive Run (step : σ → α → Option σ) (s : σ) : List (σ × α) → σ → Prop
  | nil : Run step s [] s
  | snoc {tr : List (σ × α)} {t : σ} {a : α} {u : σ} :
      Run step s tr t → step t a = some u → Run step s (tr ++ [(t, a)]) u

namespace Run

variable {step : σ → α → Option σ} {s t u : σ} {a : α} {tr : List (σ × α)}

theorem nil_iff : Run step s [] t ↔ t = s := by
  constructor
  · intro h
    generalize htr : ([] : List (σ × α)) = tr at h
    cases h with
    | nil => rfl
    | snoc _ _ => simp at htr
  · rintro rfl
    exact Run.nil

theorem snoc_iff {p : σ × α} :
    Run step s (tr ++ [p]) u ↔ Run step s tr p.1 ∧ step p.1 p.2 = some u := by
  constructor
  · intro h
    generalize htr : tr ++ [p] = tr' at h
    cases h with
    | nil => simp at htr
    | snoc h' hstep =>
      obtain ⟨rfl, hp⟩ := List.append_inj' htr rfl
      rw [List.cons.injEq] at hp
      obtain ⟨rfl, -⟩ := hp
      exact ⟨h', hstep⟩
  · rintro ⟨h, hstep⟩
    exact Run.snoc h hstep

theorem append_iff {tr₁ tr₂ : List (σ × α)} :
    Run step s (tr₁ ++ tr₂) t ↔ ∃ m, Run step s tr₁ m ∧ Run step m tr₂ t := by
  induction tr₂ using List.reverseRecOn generalizing t with
  | nil =>
    rw [List.append_nil]
    exact ⟨fun h => ⟨t, h, Run.nil⟩, fun ⟨m, h, h'⟩ => nil_iff.mp h' ▸ h⟩
  | append_singleton tr₂ p ih =>
    rw [← List.append_assoc, snoc_iff, ih]
    constructor
    · rintro ⟨⟨m, h, h'⟩, hstep⟩
      exact ⟨m, h, snoc_iff.mpr ⟨h', hstep⟩⟩
    · rintro ⟨m, h, h'⟩
      obtain ⟨h', hstep⟩ := snoc_iff.mp h'
      exact ⟨⟨m, h, h'⟩, hstep⟩

theorem cons_iff {p : σ × α} :
    Run step s (p :: tr) t ↔ p.1 = s ∧ ∃ u, step p.1 p.2 = some u ∧ Run step u tr t := by
  rw [← List.singleton_append, append_iff]
  constructor
  · rintro ⟨m, h, h'⟩
    rw [← List.nil_append [p], snoc_iff, nil_iff] at h
    exact ⟨h.1, m, h.2, h'⟩
  · rintro ⟨rfl, u, hu, h'⟩
    exact ⟨u, Run.snoc Run.nil hu, h'⟩

/-- A run passes through every state of its trace. -/
theorem split {tr₁ tr₂ : List (σ × α)} {p : σ × α} (h : Run step s (tr₁ ++ p :: tr₂) t) :
    Run step s tr₁ p.1 ∧ ∃ u, step p.1 p.2 = some u ∧ Run step u tr₂ t := by
  obtain ⟨m, h₁, h₂⟩ := append_iff.mp h
  obtain ⟨rfl, hrest⟩ := cons_iff.mp h₂
  exact ⟨h₁, hrest⟩

/-- The state behind a step is the last one, or the next one of the trace. -/
theorem exists_next {p : σ × α} (h : Run step s tr t) (hp : p ∈ tr) :
    ∃ u, step p.1 p.2 = some u ∧ (u = t ∨ ∃ q ∈ tr, q.1 = u) := by
  obtain ⟨tr₁, tr₂, rfl⟩ := List.append_of_mem hp
  obtain ⟨-, u, hu, hrest⟩ := h.split
  refine ⟨u, hu, ?_⟩
  cases tr₂ with
  | nil => exact Or.inl (nil_iff.mp hrest).symm
  | cons q tr₂ => exact Or.inr ⟨q, by simp, (cons_iff.mp hrest).1⟩

/-! ### Invariants -/

section Invariant

variable {I : σ → Prop} {C : σ → α → Prop}

/-- An invariant kept by every step that meets the condition `C` holds at the
end of a run whose steps all meet it. -/
theorem invariant_of (h0 : I s)
    (hstep : ∀ t a u, I t → C t a → step t a = some u → I u)
    (h : Run step s tr t) (hC : ∀ p ∈ tr, C p.1 p.2) : I t := by
  induction h with
  | nil => exact h0
  | @snoc tr t a u _ hu ih =>
    have ht : I t := ih fun p hp => hC p (List.mem_append_left _ hp)
    exact hstep t a u ht (hC (t, a) (by simp)) hu

/-- An invariant kept by every step holds at the end of every run. -/
theorem invariant (h0 : I s) (hstep : ∀ t a u, I t → step t a = some u → I u)
    (h : Run step s tr t) : I t :=
  invariant_of (C := fun _ _ => True) h0 (fun t a u ht _ => hstep t a u ht) h
    fun _ _ => trivial

/-- Under the same assumptions the invariant holds in every state of the
trace. -/
theorem states_of (h0 : I s)
    (hstep : ∀ t a u, I t → C t a → step t a = some u → I u)
    (h : Run step s tr t) (hC : ∀ p ∈ tr, C p.1 p.2) : ∀ p ∈ tr, I p.1 := by
  intro p hp
  obtain ⟨tr₁, tr₂, rfl⟩ := List.append_of_mem hp
  exact invariant_of h0 hstep h.split.1 fun q hq => hC q (List.mem_append_left _ hq)

theorem states (h0 : I s) (hstep : ∀ t a u, I t → step t a = some u → I u)
    (h : Run step s tr t) : ∀ p ∈ tr, I p.1 :=
  states_of (C := fun _ _ => True) h0 (fun t a u ht _ => hstep t a u ht) h
    fun _ _ => trivial

/-- An invariant that a step keeps exactly when it meets `C` holds in all states
of the runs whose steps all meet `C`, and of no other run. -/
theorem states_iff (h0 : I s) (hstep : ∀ t a u, I t → step t a = some u → (I u ↔ C t a))
    (h : Run step s tr t) : ((∀ p ∈ tr, I p.1) ∧ I t) ↔ ∀ p ∈ tr, C p.1 p.2 := by
  constructor
  · rintro ⟨htr, ht⟩ p hp
    obtain ⟨u, hu, hnext⟩ := h.exists_next hp
    refine (hstep _ _ _ (htr p hp) hu).mp ?_
    rcases hnext with rfl | ⟨q, hq, rfl⟩
    · exact ht
    · exact htr q hq
  · intro hC
    have hkeep : ∀ t a u, I t → C t a → step t a = some u → I u :=
      fun t a u ht ha hu => (hstep t a u ht hu).mpr ha
    exact ⟨states_of h0 hkeep h hC, invariant_of h0 hkeep h hC⟩

/-- What the first step that does not meet `C` ends for good. -/
theorem iff_forall (h0 : I s) (hstep : ∀ t a u, step t a = some u → (I u ↔ I t ∧ C t a))
    (h : Run step s tr t) : I t ↔ ∀ p ∈ tr, C p.1 p.2 := by
  induction h with
  | nil => exact iff_of_true h0 (by simp)
  | @snoc tr t a u _ hu ih =>
    rw [hstep t a u hu, ih, List.forall_mem_append, List.forall_mem_singleton]

/-- A measure that no step raises and every step of a kind lowers bounds how
often that kind of step is taken. -/
theorem countP_add_le {f : σ → ℕ} {D : σ × α → Bool} (h0 : I s)
    (hstep : ∀ t a u, I t → C t a → step t a = some u → I u ∧ f u ≤ f t ∧
      (D (t, a) → f u < f t))
    (h : Run step s tr t) (hC : ∀ p ∈ tr, C p.1 p.2) : tr.countP D + f t ≤ f s := by
  induction h with
  | nil => simp
  | @snoc tr t a u ht hu ih =>
    rw [List.forall_mem_append, List.forall_mem_singleton] at hC
    have hI : I t := invariant_of h0 (fun t a u ht ha hu => (hstep t a u ht ha hu).1) ht hC.1
    obtain ⟨-, hle, hlt⟩ := hstep t a u hI hC.2 hu
    have hbefore := ih hC.1
    rw [List.countP_append, List.countP_singleton]
    split
    · rename_i hD
      have := hlt hD
      omega
    · omega

section Rest

variable {f : σ → ℕ}

/-- A run of steps that all lower a measure is no longer than the measure. -/
theorem length_add_le (h0 : I s)
    (hstep : ∀ t a u, I t → C t a → step t a = some u → I u ∧ f u < f t)
    (h : Run step s tr t) (hC : ∀ p ∈ tr, C p.1 p.2) : tr.length + f t ≤ f s := by
  have hcount := h.countP_add_le (f := f) (D := fun _ => true) h0
    (fun t a u ht ha hu => ⟨(hstep t a u ht ha hu).1, Nat.le_of_lt (hstep t a u ht ha hu).2,
      fun _ => (hstep t a u ht ha hu).2⟩) hC
  rwa [List.countP_true] at hcount

/-- Such steps lead to a state in which none of them is possible. -/
theorem exists_rests (hstep : ∀ t a u, I t → C t a → step t a = some u → I u ∧ f u < f t)
    (h0 : I s) :
    ∃ tr t, Run step s tr t ∧ (∀ p ∈ tr, C p.1 p.2) ∧ ∀ a, C t a → step t a = none := by
  generalize hk : f s = k
  induction k using Nat.strongRecOn generalizing s with
  | ind k ih =>
    by_cases hrests : ∀ a, C s a → step s a = none
    · exact ⟨[], s, Run.nil, by simp, hrests⟩
    · obtain ⟨a, ha, hsome⟩ : ∃ a, C s a ∧ step s a ≠ none := by
        by_contra hno
        exact hrests fun a ha => by_contra fun hsome => hno ⟨a, ha, hsome⟩
      obtain ⟨u, hu⟩ := Option.ne_none_iff_exists'.mp hsome
      obtain ⟨hIu, hlt⟩ := hstep s a u h0 ha hu
      obtain ⟨tr, t, hrun, hC, ht⟩ := ih (f u) (hk ▸ hlt) hIu rfl
      refine ⟨(s, a) :: tr, t, Run.cons_iff.mpr ⟨rfl, u, hu, hrun⟩, ?_, ht⟩
      exact List.forall_mem_cons.mpr ⟨ha, hC⟩

end Rest

end Invariant

/-! ### Invariants that look back -/

section History

variable {I : List (σ × α) → σ → Prop} {C : σ → α → Prop}

/-- An invariant of the trace and the state reached, kept by every step that
meets `C`. -/
theorem history_of (h0 : I [] s)
    (hstep : ∀ tr t a u, I tr t → C t a → step t a = some u → I (tr ++ [(t, a)]) u)
    (h : Run step s tr t) (hC : ∀ p ∈ tr, C p.1 p.2) : I tr t := by
  induction h with
  | nil => exact h0
  | @snoc tr t a u _ hu ih =>
    have ht : I tr t := ih fun p hp => hC p (List.mem_append_left _ hp)
    exact hstep tr t a u ht (hC (t, a) (by simp)) hu

theorem history (h0 : I [] s)
    (hstep : ∀ tr t a u, I tr t → step t a = some u → I (tr ++ [(t, a)]) u)
    (h : Run step s tr t) : I tr t :=
  history_of (C := fun _ _ => True) h0 (fun tr t a u ht _ => hstep tr t a u ht) h
    fun _ _ => trivial

/-- One that a step keeps exactly when it meets `C` holds on the whole way
exactly when all steps meet `C`. -/
theorem history_iff (h0 : I [] s)
    (hstep : ∀ tr t a u, I tr t → step t a = some u → (I (tr ++ [(t, a)]) u ↔ C t a))
    (h : Run step s tr t) :
    (∀ tr₁ m, tr₁ <+: tr → Run step s tr₁ m → I tr₁ m) ↔ ∀ p ∈ tr, C p.1 p.2 := by
  induction h with
  | nil =>
    refine iff_of_true (fun tr₁ m hpre hm => ?_) (by simp)
    obtain rfl := List.prefix_nil.mp hpre
    rw [nil_iff.mp hm]
    exact h0
  | @snoc tr t a u ht hu ih =>
    rw [List.forall_mem_append, List.forall_mem_singleton, ← ih]
    constructor
    · intro hI
      have hbefore : ∀ tr₁ m, tr₁ <+: tr → Run step s tr₁ m → I tr₁ m :=
        fun tr₁ m hpre => hI tr₁ m (hpre.trans (List.prefix_append _ _))
      have hlast := hI _ u List.prefix_rfl (ht.snoc hu)
      exact ⟨hbefore, (hstep tr t a u (hbefore tr t List.prefix_rfl ht) hu).mp hlast⟩
    · rintro ⟨hbefore, ha⟩ tr₁ m hpre hm
      rcases List.prefix_concat_iff.mp hpre with rfl | hpre
      · obtain ⟨-, hm⟩ := snoc_iff.mp hm
        obtain rfl : u = m := Option.some.inj (hu.symm.trans hm)
        exact (hstep tr t a u (hbefore tr t List.prefix_rfl ht) hu).mpr ha
      · exact hbefore tr₁ m hpre hm

end History

/-! ### Executing labels -/

/-- Execute the labels one after the other, keeping the trace; `none` when one
of them cannot happen. -/
def exec (step : σ → α → Option σ) : σ → List α → Option (List (σ × α) × σ)
  | s, [] => some ([], s)
  | s, a :: as =>
    (step s a).bind fun u => (exec step u as).map fun r => ((s, a) :: r.1, r.2)

theorem of_exec (as : List α) : ∀ {s : σ} {r : List (σ × α) × σ},
    exec step s as = some r → Run step s r.1 r.2 := by
  induction as with
  | nil =>
    intro s r h
    simp only [exec, Option.some.injEq] at h
    subst h
    exact Run.nil
  | cons a as ih =>
    intro s r h
    obtain ⟨u, hu, h⟩ := Option.bind_eq_some_iff.mp h
    obtain ⟨q, hq, rfl⟩ := Option.map_eq_some_iff.mp h
    exact cons_iff.mpr ⟨rfl, u, hu, ih hq⟩

/-- The trace has the labels that were executed. -/
theorem labels_of_exec (as : List α) : ∀ {s : σ} {r : List (σ × α) × σ},
    exec step s as = some r → r.1.map Prod.snd = as := by
  induction as with
  | nil =>
    intro s r h
    rw [← Option.some.inj h]
    rfl
  | cons a as ih =>
    intro s r h
    obtain ⟨u, -, h⟩ := Option.bind_eq_some_iff.mp h
    obtain ⟨q, hq, rfl⟩ := Option.map_eq_some_iff.mp h
    rw [List.map_cons, ih hq]

/-- A run is determined by its labels. -/
theorem unique {tr' : List (σ × α)} {t' : σ} (h : Run step s tr t) (h' : Run step s tr' t')
    (hl : tr.map Prod.snd = tr'.map Prod.snd) : tr = tr' ∧ t = t' := by
  induction h generalizing tr' t' with
  | nil =>
    obtain rfl : tr' = [] := List.map_eq_nil_iff.mp hl.symm
    exact ⟨rfl, (nil_iff.mp h').symm⟩
  | @snoc tr t a u _ hu ih =>
    rcases List.eq_nil_or_concat tr' with rfl | ⟨tr₀, p, rfl⟩
    · simp at hl
    · rw [List.concat_eq_append] at h' hl ⊢
      obtain ⟨h₀, hp⟩ := snoc_iff.mp h'
      rw [List.map_append, List.map_append] at hl
      obtain ⟨hl, hlast⟩ := List.append_inj' hl rfl
      obtain ⟨rfl, rfl⟩ := ih h₀ hl
      obtain rfl : a = p.2 := by simpa using hlast
      rw [hu, Option.some.injEq] at hp
      exact ⟨rfl, hp⟩

/-- A run whose labels start another run's is the start of that run. -/
theorem prefix_of_labels {tr' : List (σ × α)} {t' : σ} (h : Run step s tr t)
    (h' : Run step s tr' t') (hl : tr.map Prod.snd <+: tr'.map Prod.snd) : tr <+: tr' := by
  have hlen : tr.length ≤ tr'.length := by simpa using hl.length_le
  have htake : tr.map Prod.snd = (tr'.take tr.length).map Prod.snd := by
    rw [List.map_take, ← List.length_map (f := Prod.snd), ← List.prefix_iff_eq_take]
    exact hl
  rw [← List.take_append_drop tr.length tr'] at h'
  obtain ⟨u, hu, -⟩ := append_iff.mp h'
  rw [(unique h hu htake).1]
  exact List.take_prefix _ _

end Run
