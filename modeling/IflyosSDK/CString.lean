/-
NUL-terminated strings.

A C string is a byte string without NUL, and a `std::string` built from one is
the same; `CString` carries that as a field.  `text m` is the C string that
starts a memory `m`: its bytes before the first NUL.

* `CString.ofMemory` — the string a receiver makes of its buffer;
* `CString.splitAt` — the two sides of the first occurrence of a byte
  (`find`, then `substr` on both sides);
* `CString.splitAt_eq_some_iff` — the split undoes the concatenation with a
  separator that the left side does not contain.
-/
import Mathlib.Data.List.TakeWhile
import Mathlib.Data.List.Lex
import Mathlib.Order.Hom.Basic

/-- A memory area, or a byte string. -/
abbrev Bytes := List UInt8

/-! ### The text of a memory -/

/-- The C string that starts the memory `m`: its bytes before the first NUL. -/
def text (m : Bytes) : Bytes := m.takeWhile (· ≠ 0)

theorem nul_not_mem_text (m : Bytes) : 0 ∉ text m := by
  intro h
  simpa using List.mem_takeWhile_imp h

theorem text_nul (m : Bytes) : text (0 :: m) = [] := by
  simp [text]

theorem text_cons {b : UInt8} (hb : b ≠ 0) (m : Bytes) : text (b :: m) = b :: text m := by
  simp [text, hb]

theorem text_append {a : Bytes} (b : Bytes) (ha : 0 ∉ a) : text (a ++ b) = a ++ text b := by
  induction a with
  | nil => rfl
  | cons x a ih =>
    rw [List.mem_cons, not_or] at ha
    have hx : x ≠ 0 := fun h => ha.1 h.symm
    rw [List.cons_append, text_cons hx, ih ha.2, List.cons_append]

theorem text_prefix_self (m : Bytes) : text m <+: m := List.takeWhile_prefix _

/-! ### Strings -/

/-- A string without NUL: a `const char*`, or a `std::string` made of one. -/
structure CString where
  bytes : Bytes
  noNul : 0 ∉ bytes
  deriving DecidableEq

namespace CString

theorem bytes_injective : Function.Injective bytes := by
  rintro ⟨a, ha⟩ ⟨b, hb⟩ h
  simpa using h

/-- `std::string` compares bytewise, the bytes being unsigned. -/
instance : LinearOrder CString :=
  LinearOrder.lift' (fun s => s.bytes.map UInt8.toNat)
    ((List.map_injective_iff.mpr fun _ _ => UInt8.toNat.inj).comp bytes_injective)

/-- `strlen`. -/
def length (s : CString) : ℕ := s.bytes.length

/-- `std::string(buf)`. -/
def ofMemory (m : Bytes) : CString := ⟨text m, nul_not_mem_text m⟩

theorem ofMemory_bytes (s : CString) : ofMemory s.bytes = s := by
  apply bytes_injective
  show text s.bytes = s.bytes
  have happ := text_append [] s.noNul
  rwa [List.append_nil, show text [] = [] from rfl, List.append_nil] at happ

def ofString (s : String) : CString := ofMemory s.toUTF8.toList

/-- `substr(0, n)`. -/
def take (n : ℕ) (s : CString) : CString :=
  ⟨s.bytes.take n, fun h => s.noNul (List.mem_of_mem_take h)⟩

/-- `substr(n)`. -/
def drop (n : ℕ) (s : CString) : CString :=
  ⟨s.bytes.drop n, fun h => s.noNul (List.mem_of_mem_drop h)⟩

/-- `find(c)`. -/
def find (c : UInt8) (s : CString) : Option ℕ := s.bytes.findIdx? (· = c)

/-- The parts of the string before and after the first `c`. -/
def splitAt (c : UInt8) (s : CString) : Option (CString × CString) :=
  (s.find c).map fun pos => (s.take pos, s.drop (pos + 1))

theorem find_eq_some_iff {c : UInt8} {s : CString} {pos : ℕ} :
    s.find c = some pos ↔ s.bytes[pos]? = some c ∧ c ∉ s.bytes.take pos := by
  rw [find, List.findIdx?_eq_some_iff_getElem]
  constructor
  · rintro ⟨hlt, hc, hbefore⟩
    refine ⟨by simpa [List.getElem?_eq_getElem hlt] using hc, fun hmem => ?_⟩
    obtain ⟨j, hj, hget⟩ := List.mem_iff_getElem.mp hmem
    rw [List.length_take] at hj
    rw [List.getElem_take] at hget
    exact absurd hget (by simpa using hbefore j (by omega))
  · rintro ⟨hget, hbefore⟩
    obtain ⟨hlt, hc⟩ := List.getElem?_eq_some_iff.mp hget
    refine ⟨hlt, by simpa using hc, fun j hj => ?_⟩
    have hjlt : j < s.bytes.length := by omega
    simp only [decide_eq_true_eq]
    rintro rfl
    exact hbefore (List.mem_iff_getElem.mpr
      ⟨j, by rw [List.length_take]; omega, List.getElem_take⟩)

theorem splitAt_eq_none_iff {c : UInt8} {s : CString} : s.splitAt c = none ↔ c ∉ s.bytes := by
  rw [splitAt, Option.map_eq_none_iff, find, List.findIdx?_eq_none_iff]
  constructor
  · intro h hc
    exact absurd (h c hc) (by simp)
  · rintro h x hx
    simp only [decide_eq_false_iff_not]
    rintro rfl
    exact h hx

/-- **A string splits into the two strings that the separator joins.** -/
theorem splitAt_eq_some_iff {c : UInt8} {s a b : CString} :
    s.splitAt c = some (a, b) ↔ s.bytes = a.bytes ++ c :: b.bytes ∧ c ∉ a.bytes := by
  rw [splitAt, Option.map_eq_some_iff]
  constructor
  · rintro ⟨pos, hpos, heq⟩
    obtain ⟨hget, hbefore⟩ := find_eq_some_iff.mp hpos
    obtain ⟨hlt, hc⟩ := List.getElem?_eq_some_iff.mp hget
    rw [Prod.mk.injEq] at heq
    obtain ⟨rfl, rfl⟩ := heq
    refine ⟨?_, hbefore⟩
    calc s.bytes = s.bytes.take pos ++ s.bytes.drop pos := (List.take_append_drop _ _).symm
      _ = s.bytes.take pos ++ c :: s.bytes.drop (pos + 1) := by
        rw [List.drop_eq_getElem_cons hlt, hc]
  · rintro ⟨hs, hc⟩
    refine ⟨a.bytes.length, find_eq_some_iff.mpr ⟨by simp [hs], by simpa [hs] using hc⟩, ?_⟩
    rw [Prod.mk.injEq]
    constructor
    · exact bytes_injective (by simp [take, hs])
    · exact bytes_injective (by simp [drop, hs])

end CString
