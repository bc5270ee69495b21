/-
The lines of a payload, in the arithmetic of `size_t`.

`IFLYOS_InterfaceGetLines` pushes what is left behind its loop when
`nIndex - nLast > 0`.  By then `nIndex` is `npos`, the largest `size_t`, and
every string is shorter than that: the difference is positive, and a piece is
pushed also when nothing is left.

* `StdString.splitLoop_eq` — the loop is that of `Lines`;
* `StdString.lines_joined` — **lines joined by newlines come back**;
* `StdString.lines_terminated` — **lines ended by newlines come back with an
  empty line behind them**;
* `StdString.volChanged_terminated` — so that VOL_CHANGED ignores its two lines
  when they are ended by newlines.
-/
import IflyosSDK.MicAgentHandlers
import Mathlib.Algebra.Ring.Nat

/-- A `std::string` where `size_t` has `w` bits: its size is below `npos`. -/
structure StdString (w : ℕ) where
  bytes : Bytes
  size_lt : bytes.length < 2 ^ w - 1

namespace StdString

variable {w : ℕ}

/-- `std::string::npos`. -/
def npos (w : ℕ) : BitVec w := BitVec.allOnes w

/-- `find_first_of('\n', pos)`. -/
def findFirstOf (s : StdString w) (pos : BitVec w) : BitVec w :=
  match findNewline s.bytes pos.toNat with
  | some i => BitVec.ofNat w i
  | none => npos w

/-- `substr(pos, n)`; a position behind the end throws. -/
def substr (s : StdString w) (pos n : BitVec w) : Option Bytes :=
  if s.bytes.length < pos.toNat then none else some ((s.bytes.drop pos.toNat).take n.toNat)

/-- At most `n` tests of the loop's condition, and what follows the loop. -/
def splitLoop (s : StdString w) :
    ℕ → BitVec w → BitVec w → List Bytes → Option (List Bytes)
  | 0, _, _, _ => none
  | n + 1, nLast, nIndex, vecStr =>
    if nIndex ≠ npos w then
      (s.substr nLast (nIndex - nLast)).bind fun line =>
        s.splitLoop n (nIndex + 1) (s.findFirstOf (nIndex + 1)) (vecStr ++ [line])
    else if 0#w < nIndex - nLast then
      (s.substr nLast (nIndex - nLast)).map fun line => vecStr ++ [line]
    else some vecStr

/-- `vecStr.clear()`. -/
def clear (_ : List Bytes) : List Bytes := []

/-- `IFLYOS_InterfaceGetLines`, with one test of the condition for each byte and
one more. -/
def interfaceGetLines (s : StdString w) (vecStr : List Bytes) : Option (List Bytes) :=
  s.splitLoop (s.bytes.length + 1) 0#w (s.findFirstOf 0#w) (clear vecStr)

/-- `line1\nline2`, the form that MicAgent sends. -/
def joined (lines : List Bytes) : Bytes := [newline].intercalate lines

/-- `key1:value1\nkey2:value2\n`, the form of DO_START. -/
def terminated (lines : List Bytes) : Bytes := lines.flatMap fun line => line ++ [newline]

variable {s : StdString w} {nLast : BitVec w} {i n : ℕ} {lines : List Bytes}

/-! ### Positions -/

theorem toNat_ofNat_of_find (h : findNewline s.bytes nLast.toNat = some i) :
    (BitVec.ofNat w i).toNat = i := by
  have hi : i < s.bytes.length := (drop_of_findNewline h).2.1
  have hsize := s.size_lt
  rw [BitVec.toNat_ofNat]
  exact Nat.mod_eq_of_lt (by omega)

theorem toNat_succ_of_find (h : findNewline s.bytes nLast.toNat = some i) :
    (BitVec.ofNat w i + 1).toNat = i + 1 := by
  have hi : i < s.bytes.length := (drop_of_findNewline h).2.1
  have hsize := s.size_lt
  rw [show (1 : BitVec w) = BitVec.ofNat w 1 from rfl, ← BitVec.ofNat_add, BitVec.toNat_ofNat]
  exact Nat.mod_eq_of_lt (by omega)

/-- A position is not `npos`. -/
theorem ofNat_ne_npos (h : findNewline s.bytes nLast.toNat = some i) :
    BitVec.ofNat w i ≠ npos w := by
  intro heq
  have hi : i < s.bytes.length := (drop_of_findNewline h).2.1
  have hsize := s.size_lt
  have hnat := congrArg BitVec.toNat heq
  rw [toNat_ofNat_of_find h, npos, BitVec.toNat_allOnes] at hnat
  omega

/-- Nothing wraps around behind the loop. -/
theorem toNat_npos_sub (nLast : BitVec w) :
    (npos w - nLast).toNat = 2 ^ w - 1 - nLast.toNat := by
  have hle : nLast ≤ npos w := by
    rw [BitVec.le_def, npos, BitVec.toNat_allOnes]
    have hlt := nLast.isLt
    omega
  rw [BitVec.toNat_sub_of_le hle, npos, BitVec.toNat_allOnes]

/-- The guard is passed, whatever is left. -/
theorem npos_sub_pos (h : nLast.toNat ≤ s.bytes.length) : 0#w < npos w - nLast := by
  rw [BitVec.lt_def, toNat_npos_sub, BitVec.toNat_zero]
  exact Nat.sub_pos_of_lt (Nat.lt_of_le_of_lt h s.size_lt)

/-! ### The pieces -/

/-- `substr` of a piece that a newline ends. -/
theorem substr_of_find (h : findNewline s.bytes nLast.toNat = some i) :
    s.substr nLast (BitVec.ofNat w i - nLast) =
      some ((s.bytes.drop nLast.toNat).take (i - nLast.toNat)) := by
  obtain ⟨hle, hlt, -, -⟩ := drop_of_findNewline h
  have hnat := toNat_ofNat_of_find h
  have hbv : nLast ≤ BitVec.ofNat w i := by rwa [BitVec.le_def, hnat]
  rw [substr, if_neg (by omega), BitVec.toNat_sub_of_le hbv, hnat]

/-- `substr` of the rest. -/
theorem substr_rest (h : nLast.toNat ≤ s.bytes.length) :
    s.substr nLast (npos w - nLast) = some (s.bytes.drop nLast.toNat) := by
  have hsize := s.size_lt
  have htake : (s.bytes.drop nLast.toNat).length ≤ (npos w - nLast).toNat := by
    rw [toNat_npos_sub, List.length_drop]
    omega
  rw [substr, if_neg (by omega), List.take_of_length_le htake]

/-- The loop in `size_t` is the loop over positions. -/
theorem splitLoop_eq (h : nLast.toNat ≤ s.bytes.length) (vecStr : List Bytes) :
    s.splitLoop n nLast (s.findFirstOf nLast) vecStr =
      getLinesLoop s.bytes n nLast.toNat vecStr := by
  induction n generalizing nLast vecStr with
  | zero => rfl
  | succ n ih =>
    rw [splitLoop, getLinesLoop, findFirstOf]
    cases hfind : findNewline s.bytes nLast.toNat with
    | none =>
      dsimp only
      rw [if_neg (not_not.mpr rfl), if_pos (npos_sub_pos h), substr_rest h, Option.map_some]
    | some i =>
      have hnext := toNat_succ_of_find hfind
      have hle : (BitVec.ofNat w i + 1).toNat ≤ s.bytes.length := by
        rw [hnext]
        exact (drop_of_findNewline hfind).2.1
      dsimp only
      rw [if_pos (ofNat_ne_npos hfind), substr_of_find hfind, Option.bind_some, ih hle, hnext]

/-- **The loop ends, with the parts between the newlines.** -/
theorem interfaceGetLines_eq_splitOn (s : StdString w) (vecStr : List Bytes) :
    s.interfaceGetLines vecStr = some (s.bytes.splitOn newline) := by
  have hstart : (0#w).toNat ≤ s.bytes.length := by
    rw [BitVec.toNat_zero]
    exact Nat.zero_le _
  calc s.interfaceGetLines vecStr
      = getLinesLoop s.bytes (s.bytes.length + 1) (0#w).toNat [] :=
        splitLoop_eq hstart []
    _ = some (s.bytes.splitOn newline) := by
        rw [BitVec.toNat_zero]
        exact interfaceGetLines_eq s.bytes

/-! ### Joined and terminated lines -/

/-- **Lines joined by newlines come back, whatever the vector held; the loop ends
for every string.** -/
theorem lines_joined (vecStr : List Bytes) :
    (∀ s : StdString w, (s.interfaceGetLines vecStr).isSome) ∧
      ∀ (s : StdString w) (lines : List Bytes), lines ≠ [] → (∀ line ∈ lines, newline ∉ line) →
        s.bytes = joined lines → s.interfaceGetLines vecStr = some lines := by
  constructor
  · intro s
    rw [interfaceGetLines_eq_splitOn]
    rfl
  · intro s lines hne hlines hs
    rw [interfaceGetLines_eq_splitOn, hs, joined, List.splitOn_intercalate newline hlines hne]

theorem lines_joined_empty_lines :
    (⟨[10, 10, 97], by decide⟩ : StdString 32).interfaceGetLines [[98]] =
      some [[], [], [97]] :=
  (lines_joined [[98]]).2 _ [[], [], [97]] (by decide) (by decide) rfl

theorem splitOn_terminated (h : ∀ line ∈ lines, newline ∉ line) :
    (terminated lines).splitOn newline = lines ++ [[]] := by
  induction lines with
  | nil => rfl
  | cons line lines ih =>
    rw [List.forall_mem_cons] at h
    rw [terminated, List.flatMap_cons, List.append_assoc, List.singleton_append,
      List.splitOn_append_cons_self_of_not_mem h.1]
    exact congrArg (line :: ·) (ih h.2)

/-- **Lines ended by newlines never come back as they are: an empty line follows
them.** -/
theorem lines_terminated (vecStr : List Bytes) (h : ∀ line ∈ lines, newline ∉ line)
    (hs : s.bytes = terminated lines) :
    s.interfaceGetLines vecStr = some (lines ++ [[]]) ∧
      s.interfaceGetLines vecStr ≠ some lines := by
  have heq : s.interfaceGetLines vecStr = some (lines ++ [[]]) := by
    rw [interfaceGetLines_eq_splitOn, hs, splitOn_terminated h]
  refine ⟨heq, ?_⟩
  rw [heq]
  intro hlines
  have hlen := congrArg List.length (Option.some.inj hlines)
  rw [List.length_append, List.length_singleton] at hlen
  omega

theorem lines_terminated_two :
    (⟨[53, 10, 54, 10], by decide⟩ : StdString 32).interfaceGetLines [] =
        some [[53], [54], []] ∧
      (⟨[53, 10, 54, 10], by decide⟩ : StdString 32).interfaceGetLines [] ≠
        some [[53], [54]] :=
  lines_terminated [] (show ∀ line ∈ [[53], [54]], newline ∉ line by decide) rfl

/-- The empty text has a line. -/
theorem empty_text_has_line :
    ¬ ∀ (s : StdString 32) (vecStr lines : List Bytes),
      (∀ line ∈ lines, line ≠ [] ∧ newline ∉ line) → s.bytes = terminated lines →
        s.interfaceGetLines vecStr = some lines := by
  intro h
  exact absurd (h ⟨[], by decide⟩ [] [] (by decide) rfl) (by decide)

/-- VOL_CHANGED does nothing with two lines that are ended by newlines. -/
theorem volChanged_terminated {msg : CString} (h : ∀ line ∈ lines, newline ∉ line)
    (hlen : lines.length = 2) (hmsg : msg.bytes = terminated lines) :
    MicAgent.volChanged msg = [] := by
  have heq : MicAgent.linesOf msg = lines ++ [[]] := by
    rw [MicAgent.linesOf, interfaceGetLines_eq, hmsg, splitOn_terminated h]
    rfl
  rw [MicAgent.volChanged, heq, List.length_append, hlen]
  rfl

end StdString
