/-
Tables of finite sets.

A `SetTable` maps a key that has an entry to a finite set.  Entries are made by
inserting one value under one key, as `table[key].insert(value)` does, and are
never removed.

* `mem_insertAll_iff` — what a table holds after a list of insertions;
* `Tight`, `Tight.insertAll` — no entry is empty, which insertions keep;
* `Tight.ext` — two tight tables with the same members are equal.
-/
import Mathlib.Data.Finset.Insert
import Mathlib.Logic.Function.Basic

/-- A table of finite sets; a key may have no entry. -/
abbrev SetTable (κ α : Type*) := κ → Option (Finset α)

namespace SetTable

variable {κ α : Type*}

/-- The table without entries. -/
def empty : SetTable κ α := fun _ => none

/-- The set under a key, which is empty when there is no entry. -/
def members (T : SetTable κ α) (k : κ) : Finset α := (T k).getD ∅

/-- No entry is empty. -/
def Tight (T : SetTable κ α) : Prop := ∀ k, (T k).isSome ↔ ∃ a, a ∈ T.members k

theorem members_empty (k : κ) : (empty : SetTable κ α).members k = ∅ := rfl

theorem members_of_eq_some {T : SetTable κ α} {k : κ} {A : Finset α} (h : T k = some A) :
    T.members k = A := by
  rw [members, h, Option.getD_some]

theorem tight_empty : (empty : SetTable κ α).Tight := by
  intro k
  simp [empty, members_empty]

/-- **A tight table is its membership relation.** -/
theorem Tight.ext {T T' : SetTable κ α} (hT : T.Tight) (hT' : T'.Tight)
    (h : ∀ k a, a ∈ T.members k ↔ a ∈ T'.members k) : T = T' := by
  funext k
  have hmem : T.members k = T'.members k := Finset.ext (h k)
  have hsome : (T k).isSome ↔ (T' k).isSome := by
    rw [hT k, hT' k, hmem]
  cases hk : T k with
  | none =>
    cases hk' : T' k with
    | none => rfl
    | some A' => simp [hk, hk'] at hsome
  | some A =>
    cases hk' : T' k with
    | none => simp [hk, hk'] at hsome
    | some A' => rw [← members_of_eq_some hk, ← members_of_eq_some hk', hmem]

variable [DecidableEq κ] [DecidableEq α]

/-- `table[k].insert(a)`. -/
def insert (T : SetTable κ α) (k : κ) (a : α) : SetTable κ α :=
  Function.update T k (some (Insert.insert a (T.members k)))

/-- The insertions of a list, one after the other. -/
def insertAll (T : SetTable κ α) (ps : List (κ × α)) : SetTable κ α :=
  ps.foldl (fun T p => T.insert p.1 p.2) T

variable {T : SetTable κ α} {k k' : κ} {a a' : α}

theorem insert_self : T.insert k a k = some (Insert.insert a (T.members k)) :=
  Function.update_self k _ T

theorem insert_of_ne (h : k' ≠ k) : T.insert k a k' = T k' := Function.update_of_ne h _ T

theorem mem_insert_iff :
    a' ∈ (T.insert k a).members k' ↔ a' ∈ T.members k' ∨ (k', a') = (k, a) := by
  by_cases h : k' = k
  · subst h
    rw [members_of_eq_some insert_self, Finset.mem_insert, Prod.mk.injEq, or_comm]
    simp
  · rw [members, insert_of_ne h, ← members]
    simp [h]

theorem Tight.insert (hT : T.Tight) : (T.insert k a).Tight := by
  intro k'
  by_cases h : k' = k
  · subst h
    rw [insert_self]
    exact iff_of_true rfl ⟨a, mem_insert_iff.mpr (Or.inr rfl)⟩
  · rw [members, insert_of_ne h, ← members]
    exact hT k'

theorem mem_insertAll_iff {ps : List (κ × α)} :
    a ∈ (T.insertAll ps).members k ↔ a ∈ T.members k ∨ (k, a) ∈ ps := by
  induction ps generalizing T with
  | nil => simp [insertAll]
  | cons p ps ih =>
    rw [insertAll, List.foldl_cons, ← insertAll, ih, mem_insert_iff, List.mem_cons, or_assoc]

theorem Tight.insertAll (hT : T.Tight) (ps : List (κ × α)) : (T.insertAll ps).Tight := by
  induction ps generalizing T with
  | nil => exact hT
  | cons p ps ih => exact ih hT.insert

/-- What is there stays there. -/
theorem mem_insertAll_of_mem (ps : List (κ × α)) (h : a ∈ T.members k) :
    a ∈ (T.insertAll ps).members k :=
  mem_insertAll_iff.mpr (Or.inl h)

end SetTable
