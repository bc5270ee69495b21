/-
Simulations between two labelled transition functions.

A system `step` simulates under `f` and `label` a specification `spec` when
every step, seen through `f`, is the step of `spec` that `label` names, and
leaves the view alone when `label` names none.  An invariant `I` of the system
may be assumed.

* `Simulates.run` — **the view of a run is a run of the specification**.
-/
import IflyosSDK.Runs

variable {σ α τ β : Type*}

/-- The trace of a run, as the specification sees it. -/
def view (f : σ → τ) (label : σ × α → Option β) (tr : List (σ × α)) : List (τ × β) :=
  tr.filterMap fun p => (label p).map fun b => (f p.1, b)

structure Simulates (step : σ → α → Option σ) (spec : τ → β → Option τ) (I : σ → Prop)
    (f : σ → τ) (label : σ × α → Option β) : Prop where
  kept : ∀ s a u, I s → step s a = some u → I u
  matched : ∀ s a u, I s → step s a = some u →
    (label (s, a) = none ∧ f u = f s) ∨
      ∃ b, label (s, a) = some b ∧ spec (f s) b = some (f u)

theorem view_append (f : σ → τ) (label : σ × α → Option β) (tr tr' : List (σ × α)) :
    view f label (tr ++ tr') = view f label tr ++ view f label tr' :=
  List.filterMap_append

namespace Simulates

variable {step : σ → α → Option σ} {spec : τ → β → Option τ} {I : σ → Prop} {f : σ → τ}
  {label : σ × α → Option β} {s u : σ} {tr : List (σ × α)}

/-- **The view of a run is a run of the specification.** -/
theorem run (h : Simulates step spec I f label) (hs : I s) (hrun : Run step s tr u) :
    Run spec (f s) (view f label tr) (f u) := by
  induction hrun with
  | nil => exact Run.nil
  | @snoc tr t a u hrun hu ih =>
    have ht : I t := Run.invariant hs h.kept hrun
    rw [view_append]
    rcases h.matched t a u ht hu with ⟨hb, hsame⟩ | ⟨b, hb, hspec⟩
    · have hview : view f label [(t, a)] = [] := by
        rw [view, List.filterMap_cons, hb]
        rfl
      rw [hview, List.append_nil, hsame]
      exact ih
    · have hview : view f label [(t, a)] = [(f t, b)] := by
        rw [view, List.filterMap_cons, hb]
        rfl
      rw [hview]
      exact ih.snoc hspec

end Simulates
