/-
The lines of a payload.

`IFLYOS_InterfaceGetLines` cuts a string at its newlines.  Its loop keeps the
position behind the last newline; the positions of a string lie below `npos`,
so what is left behind the loop is pushed as a line of its own, even when it is
empty.

* `getLinesLoop` — the loop, in a number of passes;
* `interfaceGetLines_eq` — the loop ends, with the parts between the newlines;
* `length_splitOn` — there is one line more than newlines.
-/
import IflyosSDK.CString

/-- `'\n'`. -/
def newline : UInt8 := 10

/-- `strVal.find_first_of('\n', pos)`; no position is `npos`. -/
def findNewline (s : Bytes) (pos : ℕ) : Option ℕ :=
  ((s.drop pos).findIdx? (· = newline)).map (pos + ·)

/-- At most `n` tests of the loop's condition; no result when it goes on. -/
def getLinesLoop (s : Bytes) : ℕ → ℕ → List Bytes → Option (List Bytes)
  | 0, _, _ => none
  | n + 1, nLast, vecStr =>
    match findNewline s nLast with
    | some nIndex =>
      getLinesLoop s n (nIndex + 1) (vecStr ++ [(s.drop nLast).take (nIndex - nLast)])
    -- `npos - nLast > 0`
    | none => some (vecStr ++ [s.drop nLast])

/-- `IFLYOS_InterfaceGetLines`. -/
def interfaceGetLines (s : Bytes) : Option (List Bytes) := getLinesLoop s (s.length + 1) 0 []

variable {s : Bytes} {n nLast : ℕ}

theorem findNewline_eq_none_iff : findNewline s nLast = none ↔ newline ∉ s.drop nLast := by
  rw [findNewline, Option.map_eq_none_iff, List.findIdx?_eq_none_iff]
  constructor
  · intro h hmem
    exact absurd (h newline hmem) (by simp)
  · intro h b hb
    have hne : b ≠ newline := fun heq => h (heq ▸ hb)
    simpa using hne

/-- What is found is the first newline at or behind the position. -/
theorem drop_of_findNewline {nIndex : ℕ} (h : findNewline s nLast = some nIndex) :
    nLast ≤ nIndex ∧ nIndex < s.length ∧
      s.drop nLast = (s.drop nLast).take (nIndex - nLast) ++ newline :: s.drop (nIndex + 1) ∧
      newline ∉ (s.drop nLast).take (nIndex - nLast) := by
  obtain ⟨i, hi, rfl⟩ := Option.map_eq_some_iff.mp h
  obtain ⟨hlt, hnewline, hbefore⟩ := List.findIdx?_eq_some_iff_getElem.mp hi
  have hget : (s.drop nLast)[i] = newline := by simpa using hnewline
  rw [Nat.add_sub_cancel_left]
  refine ⟨Nat.le_add_right _ _, ?_, ?_, ?_⟩
  · rw [List.length_drop] at hlt
    omega
  · calc s.drop nLast = (s.drop nLast).take i ++ (s.drop nLast).drop i :=
        (List.take_append_drop _ _).symm
      _ = (s.drop nLast).take i ++ newline :: s.drop (nLast + i + 1) := by
        rw [List.drop_eq_getElem_cons hlt, hget, List.drop_drop, ← Nat.add_assoc]
  · intro hmem
    obtain ⟨j, hj, hjnewline⟩ := List.mem_iff_getElem.mp hmem
    rw [List.length_take] at hj
    rw [List.getElem_take] at hjnewline
    exact absurd hjnewline (by simpa using hbefore j (by omega))

theorem getLinesLoop_eq (h : (s.drop nLast).length < n) (vecStr : List Bytes) :
    getLinesLoop s n nLast vecStr = some (vecStr ++ (s.drop nLast).splitOn newline) := by
  induction n generalizing nLast vecStr with
  | zero => omega
  | succ n ih =>
    rw [getLinesLoop]
    cases hfind : findNewline s nLast with
    | none => rw [List.splitOn_eq_singleton (findNewline_eq_none_iff.mp hfind)]
    | some nIndex =>
      obtain ⟨hle, hlt, hsplit, hbefore⟩ := drop_of_findNewline hfind
      have hlines : (s.drop nLast).splitOn newline =
          (s.drop nLast).take (nIndex - nLast) :: (s.drop (nIndex + 1)).splitOn newline := by
        rw [hsplit, List.splitOn_append_cons_self_of_not_mem hbefore, ← hsplit]
      have hrest : (s.drop (nIndex + 1)).length < n := by
        rw [List.length_drop] at h ⊢
        omega
      rw [hlines]
      dsimp only
      rw [ih hrest, List.append_assoc]
      rfl

/-- **The loop ends with the parts between the newlines.** -/
theorem interfaceGetLines_eq (s : Bytes) : interfaceGetLines s = some (s.splitOn newline) :=
  getLinesLoop_eq (Nat.lt_succ_self s.length) []

/-- There is one line more than newlines. -/
theorem length_splitOn (s : Bytes) : (s.splitOn newline).length = s.count newline + 1 := by
  induction s with
  | nil => rfl
  | cons b s ih =>
    rw [List.splitOn_cons_eq_if_modifyHead, List.count_cons]
    split
    · rw [List.length_cons, ih]
    · rw [List.length_modifyHead, ih, Nat.add_zero]
