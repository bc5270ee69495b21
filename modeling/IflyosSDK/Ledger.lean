/-
Resources that are acquired, used and released.

`play` goes through a history of operations and keeps the live resources.  It
has no result when a resource is used or released that is not live, or one is
acquired that is.

* `play_append` — histories compose;
* `count_apply`, `count_acquire` — the live resources, counted;
* `play_releases` — when a list of resources can be released;
* `released_once` — **when nothing is left, each resource has been released as
  often as it was acquired**;
* `live_of_legal` — what an operation of a legal history is done with is live.
-/
import Mathlib.Data.Finset.Basic

namespace Ledger

variable {ρ : Type*}

inductive Op (ρ : Type*)
  | acquire (r : ρ)
  | use (r : ρ)
  | release (r : ρ)
  deriving DecidableEq, Repr

variable [DecidableEq ρ] {live live' : Finset ρ} {r : ρ} {o : Op ρ} {ops : List (Op ρ)}

/-- An operation, with the resources that are live behind it. -/
def Op.apply (live : Finset ρ) : Op ρ → Option (Finset ρ)
  | .acquire r => if r ∈ live then none else some (insert r live)
  | .use r => if r ∈ live then some live else none
  | .release r => if r ∈ live then some (live.erase r) else none

/-- The resources that are live behind a history. -/
def play (live : Finset ρ) : List (Op ρ) → Option (Finset ρ)
  | [] => some live
  | o :: ops => (o.apply live).bind fun l => play l ops

theorem play_append (live : Finset ρ) (a b : List (Op ρ)) :
    play live (a ++ b) = (play live a).bind fun l => play l b := by
  induction a generalizing live with
  | nil => rfl
  | cons o a ih =>
    rw [List.cons_append, play, play, Option.bind_assoc]
    exact Option.bind_congr fun l _ => ih l

theorem play_of_append {a b : List (Op ρ)} {l : Finset ρ} (h : play live a = some l) :
    play live (a ++ b) = play l b := by
  rw [play_append, h, Option.bind_some]

theorem play_singleton (live : Finset ρ) (o : Op ρ) : play live [o] = o.apply live :=
  Option.bind_fun_some (o.apply live)

/-- Uses of live resources change nothing. -/
theorem play_uses (h : ∀ o ∈ ops, ∃ r ∈ live, o = .use r) : play live ops = some live := by
  induction ops with
  | nil => rfl
  | cons o ops ih =>
    obtain ⟨⟨r, hr, rfl⟩, hrest⟩ := List.forall_mem_cons.mp h
    rw [play, Op.apply, if_pos hr]
    exact ih hrest

/-- Releasing a list of resources. -/
theorem play_releases (live : Finset ρ) (rs : List ρ) :
    play live (rs.map .release) =
      if rs.Nodup ∧ ∀ r ∈ rs, r ∈ live then some (live \ rs.toFinset) else none := by
  induction rs generalizing live with
  | nil => simp [play]
  | cons r rs ih =>
    rw [List.map_cons, play, Op.apply]
    by_cases hr : r ∈ live
    · rw [if_pos hr, Option.bind_some, ih]
      have hiff : (rs.Nodup ∧ ∀ r' ∈ rs, r' ∈ live.erase r) ↔
          (r :: rs).Nodup ∧ ∀ r' ∈ r :: rs, r' ∈ live := by
        rw [List.nodup_cons, List.forall_mem_cons]
        constructor
        · rintro ⟨hnodup, hlive⟩
          have hold : ∀ r' ∈ rs, r' ∈ live := fun r' hr' => Finset.mem_of_mem_erase (hlive r' hr')
          refine ⟨⟨fun hmem => ?_, hnodup⟩, hr, hold⟩
          exact Finset.notMem_erase r live (hlive r hmem)
        · rintro ⟨⟨hnew, hnodup⟩, -, hlive⟩
          refine ⟨hnodup, fun r' hr' => Finset.mem_erase.mpr ⟨?_, hlive r' hr'⟩⟩
          rintro rfl
          exact hnew hr'
      have hsdiff : live.erase r \ rs.toFinset = live \ (r :: rs).toFinset := by
        rw [List.toFinset_cons]
        ext x
        simp only [Finset.mem_sdiff, Finset.mem_erase, Finset.mem_insert]
        tauto
      rw [hsdiff]
      exact if_congr hiff rfl rfl
    · rw [if_neg hr, Option.bind_none, if_neg fun h => hr (h.2 r List.mem_cons_self)]

/-- What one operation does to the count of a resource. -/
theorem count_apply (h : o.apply live = some live') (r : ρ) :
    [o].count (.acquire r) + (if r ∈ live then 1 else 0) =
      [o].count (.release r) + (if r ∈ live' then 1 else 0) := by
  cases o with
  | acquire r' =>
    rw [Op.apply] at h
    split at h
    · cases h
    · rename_i hnew
      obtain rfl := Option.some.inj h
      by_cases hr : r' = r
      · subst hr
        simp [hnew]
      · simp [hr, Ne.symm hr]
  | use r' =>
    rw [Op.apply] at h
    split at h
    · obtain rfl := Option.some.inj h
      simp
    · cases h
  | release r' =>
    rw [Op.apply] at h
    split at h
    · rename_i hlive
      obtain rfl := Option.some.inj h
      by_cases hr : r' = r
      · subst hr
        simp [hlive]
      · simp [hr, Ne.symm hr]
    · cases h

/-- One acquisition more than releases behind a history for what is live, and
one less for what was live before. -/
theorem count_acquire (h : play live ops = some live') (r : ρ) :
    ops.count (.acquire r) + (if r ∈ live then 1 else 0) =
      ops.count (.release r) + (if r ∈ live' then 1 else 0) := by
  induction ops generalizing live with
  | nil =>
    obtain rfl := Option.some.inj h
    rfl
  | cons o ops ih =>
    obtain ⟨l, hl, hrest⟩ := Option.bind_eq_some_iff.mp h
    have hfirst := count_apply hl r
    have hcount := ih hrest
    rw [← List.singleton_append, List.count_append, List.count_append]
    omega

/-- **Nothing was live and nothing is**: every resource has been released as
often as it was acquired. -/
theorem released_once (h : play ∅ ops = some ∅) (r : ρ) :
    ops.count (.release r) = ops.count (.acquire r) := by
  have hcount := count_acquire h r
  rw [if_neg (Finset.notMem_empty r), Nat.add_zero, Nat.add_zero] at hcount
  exact hcount.symm

/-- What is used or released has been acquired, and not released since. -/
theorem live_of_legal {a b : List (Op ρ)} (h : (play ∅ (a ++ o :: b)).isSome)
    (ho : o = .use r ∨ o = .release r) :
    a.count (.acquire r) = a.count (.release r) + 1 := by
  rw [play_append] at h
  obtain ⟨l, hl⟩ := Option.isSome_iff_exists.mp (Option.isSome_of_isSome_bind h)
  rw [hl, Option.bind_some, play] at h
  have happly : (o.apply l).isSome := Option.isSome_of_isSome_bind h
  have hlive : r ∈ l := by
    by_contra hr
    rcases ho with rfl | rfl <;>
    · rw [Op.apply, if_neg hr] at happly
      cases happly
  have hcount := count_acquire hl r
  rw [if_neg (Finset.notMem_empty r), if_pos hlive] at hcount
  exact hcount

end Ledger
