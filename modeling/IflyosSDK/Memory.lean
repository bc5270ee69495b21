/-
Byte arrays of a fixed size and the C functions that scan them.

An array carries its size, and a store outside it has no result.  A scan of a
memory that is not NUL-terminated may leave it: `strstr` and `atoi` say so.

* `Buffer.store` — `memcpy` into an array;
* `strstr_eq_found_iff`, `strstr_eq_absent_iff`, `strstr_eq_overrun_iff` — what
  each outcome of a search says about the text of the memory;
* `atoi_eq_none_iff` — a number is read unless it goes on to the end of the
  memory;
* `words_flatMap` — the words of a string come back from the joined string.
-/
import Mathlib.Algebra.Ring.Int.Defs
import Mathlib.Data.Nat.Find
import IflyosSDK.CString

/-! ### Arrays -/

/-- An array of `n` bytes. -/
structure Buffer (n : ℕ) where
  bytes : Bytes
  size : bytes.length = n
  deriving DecidableEq

namespace Buffer

variable {n : ℕ}

/-- `= {0}`. -/
def zeros (n : ℕ) : Buffer n := ⟨List.replicate n 0, List.length_replicate⟩

/-- `memcpy(&m[i], bs, bs.length)`; no result when that leaves the array. -/
def store (m : Buffer n) (i : ℕ) (bs : Bytes) : Option (Buffer n) :=
  if h : i + bs.length ≤ n then
    some ⟨m.bytes.take i ++ bs ++ m.bytes.drop (i + bs.length), by
      simp only [List.length_append, List.length_take, List.length_drop, m.size]
      omega⟩
  else none

/-- The `len` bytes at `&m[i]`; no result when they leave the array. -/
def load (m : Buffer n) (i len : ℕ) : Option Bytes :=
  if i + len ≤ n then some ((m.bytes.drop i).take len) else none

theorem store_eq_none_iff {m : Buffer n} {i : ℕ} {bs : Bytes} :
    m.store i bs = none ↔ n < i + bs.length := by
  rw [store]
  split
  · simp only [reduceCtorEq, false_iff]
    omega
  · simp only [true_iff]
    omega

theorem bytes_of_store {m m' : Buffer n} {i : ℕ} {bs : Bytes} (h : m.store i bs = some m') :
    m'.bytes = m.bytes.take i ++ bs ++ m.bytes.drop (i + bs.length) := by
  rw [store] at h
  split at h
  · cases h
    rfl
  · simp at h

/-- The array up to the end of what was stored. -/
theorem take_of_store {m m' : Buffer n} {i : ℕ} {bs : Bytes} (h : m.store i bs = some m')
    (hi : i ≤ n) : m'.bytes.take (i + bs.length) = m.bytes.take i ++ bs := by
  have hlen : (m.bytes.take i ++ bs).length = i + bs.length := by
    rw [List.length_append, List.length_take, m.size]
    omega
  rw [bytes_of_store h, ← hlen, List.take_left]

theorem length_le_of_store {m m' : Buffer n} {i : ℕ} {bs : Bytes} (h : m.store i bs = some m') :
    i + bs.length ≤ n := by
  by_contra hlt
  rw [store_eq_none_iff.mpr (by omega)] at h
  cases h

theorem exists_store (m : Buffer n) {i : ℕ} {bs : Bytes} (h : i + bs.length ≤ n) :
    ∃ m', m.store i bs = some m' := by
  rw [← Option.isSome_iff_exists, Option.isSome_iff_ne_none, Ne, store_eq_none_iff]
  omega

theorem exists_load (m : Buffer n) {i len : ℕ} (h : i + len ≤ n) :
    ∃ bs, m.load i len = some bs ∧ bs = (m.bytes.drop i).take len ∧ bs.length = len := by
  refine ⟨_, if_pos h, rfl, ?_⟩
  rw [List.length_take, List.length_drop, m.size]
  omega

/-- `memcpy` to the start of another array. -/
theorem exists_copy {k : ℕ} (m : Buffer n) (m' : Buffer k) (i len : ℕ) (h : i + len ≤ n)
    (h' : len ≤ k) : ∃ m'', (m.load i len).bind (m'.store 0) = some m'' ∧
      m''.bytes.take len = (m.bytes.drop i).take len := by
  obtain ⟨bs, hload, hbs, hlen⟩ := m.exists_load h
  obtain ⟨m'', hstore⟩ := m'.exists_store (show 0 + bs.length ≤ k by omega)
  refine ⟨m'', by rw [hload, Option.bind_some, hstore], ?_⟩
  rw [bytes_of_store hstore, List.take_zero, List.nil_append, ← hbs]
  exact List.take_left' hlen

theorem getElem?_store {m m' : Buffer n} {i j : ℕ} {bs : Bytes} (h : m.store i bs = some m')
    (hj : i + bs.length ≤ j) : m'.bytes[j]? = m.bytes[j]? := by
  have hle := length_le_of_store h
  have hi : (m.bytes.take i ++ bs).length = i + bs.length := by
    rw [List.length_append, List.length_take, m.size]
    omega
  rw [bytes_of_store h, List.getElem?_append_right (by omega), hi, List.getElem?_drop]
  congr 1
  omega

end Buffer

/-! ### Searching -/

/-- The outcome of a search for a string in a memory. -/
inductive Search
  | found (i : ℕ)
  /-- The text of the memory does not contain the string. -/
  | absent
  /-- The search left the memory. -/
  | overrun
  deriving DecidableEq

def Search.succ : Search → Search
  | .found i => .found (i + 1)
  | .absent => .absent
  | .overrun => .overrun

/-- `strstr(m, needle)` for a needle that is not empty. -/
def strstr (needle : Bytes) : Bytes → Search
  | [] => .overrun
  | b :: m =>
    if needle <+: b :: m then .found 0
    else if b = 0 then .absent
    else (strstr needle m).succ

/-- `needle` stands in `t` at `i`. -/
def OccursAt (needle t : Bytes) (i : ℕ) : Prop := needle <+: t.drop i

instance (needle t : Bytes) (i : ℕ) : Decidable (OccursAt needle t i) :=
  inferInstanceAs (Decidable (needle <+: t.drop i))

/-- The first place in `t` where `needle` stands. -/
def FirstAt (needle t : Bytes) (i : ℕ) : Prop :=
  OccursAt needle t i ∧ ∀ j < i, ¬ OccursAt needle t j

@[simp]
theorem occursAt_succ {needle t : Bytes} {b : UInt8} {i : ℕ} :
    OccursAt needle (b :: t) (i + 1) ↔ OccursAt needle t i := by
  rw [OccursAt, List.drop_succ_cons, OccursAt]

theorem getElem?_of_occursAt {needle t : Bytes} {i j : ℕ} (h : OccursAt needle t i)
    (hj : j < needle.length) : t[i + j]? = some (needle.get ⟨j, hj⟩) := by
  have hget := List.prefix_iff_getElem?.mp h j hj
  rwa [List.getElem?_drop] at hget

/-- What stands before a position does not change when what comes after it
does. -/
theorem occursAt_append {needle a b : Bytes} {i : ℕ} (h : i + needle.length ≤ a.length) :
    OccursAt needle (a ++ b) i ↔ OccursAt needle a i := by
  rw [OccursAt, OccursAt, List.drop_append_of_le_length (by omega)]
  refine ⟨fun hp => ?_, fun hp => hp.trans (List.prefix_append _ _)⟩
  exact List.prefix_of_prefix_length_le hp (List.prefix_append _ _)
    (by rw [List.length_drop]; omega)

theorem occursAt_append_right {needle a b : Bytes} {i : ℕ} :
    OccursAt needle (a ++ b) (a.length + i) ↔ OccursAt needle b i := by
  rw [OccursAt, List.drop_append, List.drop_eq_nil_of_le (by omega), List.nil_append,
    Nat.add_sub_cancel_left, OccursAt]

section Strstr

variable {needle : Bytes}

/-- A string without NUL starts a memory when it starts its text. -/
theorem prefix_text_iff (h0 : 0 ∉ needle) {m : Bytes} : needle <+: text m ↔ needle <+: m := by
  refine ⟨fun h => h.trans (text_prefix_self m), ?_⟩
  rintro ⟨r, rfl⟩
  rw [text_append r h0]
  exact List.prefix_append _ _

/-- **A search finds the first occurrence in the text.** -/
theorem strstr_eq_found_iff (hn : needle ≠ []) (h0 : 0 ∉ needle) {m : Bytes} {i : ℕ} :
    strstr needle m = .found i ↔ FirstAt needle (text m) i := by
  rw [FirstAt]
  -- on the memory, as `strstr` goes through it
  induction m generalizing i with
  | nil =>
    have hno : ∀ j, ¬ OccursAt needle (text []) j := by
      intro j h
      exact hn (List.prefix_nil.mp (by simpa [OccursAt, text] using h))
    simp [strstr, hno i]
  | cons b m ih =>
    rw [strstr]
    by_cases hp : needle <+: b :: m
    · have hat : OccursAt needle (text (b :: m)) 0 := (prefix_text_iff h0).mpr hp
      rw [if_pos hp, Search.found.injEq]
      constructor
      · rintro rfl
        exact ⟨hat, by simp⟩
      · rintro ⟨-, hfirst⟩
        by_contra hi
        exact hfirst 0 (by omega) hat
    have hnot : ¬ OccursAt needle (text (b :: m)) 0 := fun h => hp ((prefix_text_iff h0).mp h)
    rw [if_neg hp]
    by_cases hb : b = 0
    · -- the text ends here
      subst hb
      have hno : ∀ j, ¬ OccursAt needle (text (0 :: m)) j := by
        intro j h
        rw [text_nul] at h
        exact hn (List.prefix_nil.mp (by simpa [OccursAt] using h))
      simp [hno i]
    · rw [if_neg hb, text_cons hb]
      rw [text_cons hb] at hnot
      rcases i with _ | i
      · cases h : strstr needle m <;> simp [Search.succ, hnot]
      · have hsucc : (strstr needle m).succ = .found (i + 1) ↔ strstr needle m = .found i := by
          cases h : strstr needle m <;> simp [Search.succ]
        rw [hsucc, ih, occursAt_succ]
        constructor
        · rintro ⟨hat, hfirst⟩
          refine ⟨hat, fun j hj => ?_⟩
          rcases j with _ | j
          · exact hnot
          · rw [occursAt_succ]
            exact hfirst j (by omega)
        · rintro ⟨hat, hfirst⟩
          exact ⟨hat, fun j hj => by simpa using hfirst (j + 1) (by omega)⟩

/-- A search that finds nothing stops at a NUL, or leaves the memory. -/
theorem strstr_eq_ite (h0 : 0 ∉ needle) {m : Bytes}
    (h : ∀ j, ¬ OccursAt needle (text m) j) :
    strstr needle m = if 0 ∈ m then .absent else .overrun := by
  induction m with
  | nil => rfl
  | cons b m ih =>
    have hp : ¬ needle <+: b :: m := fun hp => h 0 ((prefix_text_iff h0).mpr hp)
    rw [strstr, if_neg hp]
    by_cases hb : b = 0
    · simp [hb]
    · rw [text_cons hb] at h
      rw [if_neg hb, ih fun j hj => h (j + 1) (occursAt_succ.mpr hj)]
      have hb' : ¬ 0 = b := fun h => hb h.symm
      by_cases hm : 0 ∈ m <;> simp [hm, hb', Search.succ]

theorem exists_found_of_occursAt (hn : needle ≠ []) (h0 : 0 ∉ needle) {m : Bytes} {i : ℕ}
    (h : OccursAt needle (text m) i) : ∃ j ≤ i, strstr needle m = .found j := by
  have hex : ∃ j, OccursAt needle (text m) j := ⟨i, h⟩
  classical
  refine ⟨Nat.find hex, Nat.find_min' hex h, (strstr_eq_found_iff hn h0).mpr ?_⟩
  exact ⟨Nat.find_spec hex, fun j hj => Nat.find_min hex hj⟩

theorem not_occursAt_of_strstr (hn : needle ≠ []) (h0 : 0 ∉ needle) {m : Bytes}
    (h : ∀ i, strstr needle m ≠ .found i) (j : ℕ) : ¬ OccursAt needle (text m) j := by
  intro hj
  obtain ⟨i, -, hi⟩ := exists_found_of_occursAt hn h0 hj
  exact h i hi

theorem strstr_eq_absent_iff (hn : needle ≠ []) (h0 : 0 ∉ needle) {m : Bytes} :
    strstr needle m = .absent ↔ 0 ∈ m ∧ ∀ j, ¬ OccursAt needle (text m) j := by
  constructor
  · intro h
    have hno := not_occursAt_of_strstr hn h0 (m := m) (by simp [h])
    rw [strstr_eq_ite h0 hno] at h
    refine ⟨?_, hno⟩
    by_contra hm
    simp [hm] at h
  · rintro ⟨hm, hno⟩
    rw [strstr_eq_ite h0 hno, if_pos hm]

theorem strstr_eq_overrun_iff (hn : needle ≠ []) (h0 : 0 ∉ needle) {m : Bytes} :
    strstr needle m = .overrun ↔ 0 ∉ m ∧ ∀ j, ¬ OccursAt needle (text m) j := by
  constructor
  · intro h
    have hno := not_occursAt_of_strstr hn h0 (m := m) (by simp [h])
    rw [strstr_eq_ite h0 hno] at h
    refine ⟨?_, hno⟩
    intro hm
    simp [hm] at h
  · rintro ⟨hm, hno⟩
    rw [strstr_eq_ite h0 hno, if_neg hm]

end Strstr

/-! ### Numbers -/

/-- `isspace` in the C locale. -/
def isSpace (b : UInt8) : Bool := b = 32 || (9 ≤ b && b ≤ 13)

def isDigit (b : UInt8) : Bool := 48 ≤ b && b ≤ 57

/-- The words of a string, as `istream_iterator<std::string>` reads them. -/
def words (m : Bytes) : List Bytes := (m.splitOnP isSpace).filter (· ≠ [])

/-- The sign of a number and what follows it. -/
def sign : Bytes → ℤ × Bytes
  | 45 :: m => (-1, m)
  | 43 :: m => (1, m)
  | m => (1, m)

def digitsValue (ds : Bytes) : ℤ := ds.foldl (fun n d => 10 * n + (d.toNat - 48 : ℤ)) 0

/-- `atoi(m)`, where `long` has 32 bits: white space, a sign, digits, the value
taken to the nearest `long`.  No result when nothing in the memory ends the
number. -/
def atoi (m : Bytes) : Option ℤ :=
  let (s, n) := sign (m.dropWhile isSpace)
  if n.dropWhile isDigit = [] then none
  else some (max (-2 ^ 31) (min (2 ^ 31 - 1) (s * digitsValue (n.takeWhile isDigit))))

/-- What ends the number that `atoi` reads from the memory. -/
def afterNumber (m : Bytes) : Bytes := (sign (m.dropWhile isSpace)).2.dropWhile isDigit

theorem atoi_eq_none_iff {m : Bytes} : atoi m = none ↔ afterNumber m = [] := by
  rw [atoi, afterNumber]
  split
  next s n h =>
    rw [h]
    simp

/-- A number without sign, followed by something else. -/
theorem atoi_of_digits {ds m : Bytes} {b : UInt8} (hds : ∀ d ∈ ds, isDigit d) (hne : ds ≠ [])
    (hb : ¬ isDigit b) :
    atoi (ds ++ b :: m) = some (max (-2 ^ 31) (min (2 ^ 31 - 1) (digitsValue ds))) := by
  -- a digit is neither white space nor a sign
  obtain ⟨d, ds', rfl⟩ := List.exists_cons_of_ne_nil hne
  have hd : isDigit d := hds d (by simp)
  have hsp : ¬ isSpace d := by
    simp only [isDigit, isSpace, Bool.and_eq_true, Bool.or_eq_true, decide_eq_true_eq] at hd ⊢
    intro h
    have h48 := UInt8.le_iff_toNat_le.mp hd.1
    rcases h with rfl | ⟨-, h13⟩
    · simp at h48
    · have := UInt8.le_iff_toNat_le.mp h13
      simp at this h48
      omega
  have hsign : sign ((d :: ds') ++ b :: m) = (1, (d :: ds') ++ b :: m) := by
    rw [List.cons_append, sign]
    · rintro m' h
      cases h
      simp [isDigit] at hd
    · rintro m' h
      cases h
      simp [isDigit] at hd
  have htake : ((d :: ds') ++ b :: m).takeWhile isDigit = d :: ds' := by
    rw [List.takeWhile_append_of_pos (by simpa using hds)]
    simp [hb]
  have hdrop : ((d :: ds') ++ b :: m).dropWhile isDigit = b :: m := by
    rw [List.dropWhile_append_of_pos (by simpa using hds)]
    simp [hb]
  rw [atoi, List.cons_append, List.dropWhile_cons_of_neg hsp, ← List.cons_append, hsign]
  simp only [hdrop, htake, Int.one_mul]
  simp

/-! ### Words -/

section Words

variable {w m : Bytes} {b : UInt8}

theorem words_nil : words [] = [] := by
  rw [words, List.splitOnP_nil]
  rfl

theorem words_cons_of_isSpace (hb : isSpace b) : words (b :: m) = words m := by
  rw [words, List.splitOnP_cons_eq_if_modifyHead, if_pos hb, words]
  rfl

theorem words_of_noSpace (hw : ∀ x ∈ w, ¬ isSpace x) (hne : w ≠ []) : words w = [w] := by
  have hsplit : w.splitOnP isSpace = [w] := by
    rw [List.splitOnP_eq_singleton]
    simpa using hw
  rw [words, hsplit]
  simp [hne]

theorem words_append_cons (hw : ∀ x ∈ w, ¬ isSpace x) (hne : w ≠ []) (hb : isSpace b) :
    words (w ++ b :: m) = w :: words m := by
  rw [words, List.splitOnP_append_cons_of_forall_mem (by simpa using hw) b hb, words]
  simp [hne]

theorem words_dropWhile (m : Bytes) : words (m.dropWhile isSpace) = words m := by
  induction m with
  | nil => rfl
  | cons b m ih =>
    by_cases hb : isSpace b
    · rw [List.dropWhile_cons_of_pos hb, words_cons_of_isSpace hb, ih]
    · rw [List.dropWhile_cons_of_neg hb]

/-- **Words that are joined with spaces are read back.** -/
theorem words_flatMap {ws : List Bytes} (hb : isSpace b) (hne : ∀ w ∈ ws, w ≠ [])
    (hw : ∀ w ∈ ws, ∀ x ∈ w, ¬ isSpace x) : words (ws.flatMap fun w => b :: w) = ws := by
  induction ws with
  | nil => exact words_nil
  | cons w ws ih =>
    have ih := ih (fun w hmem => hne w (List.mem_cons_of_mem _ hmem))
      fun w hmem => hw w (List.mem_cons_of_mem _ hmem)
    have hwne := hne w List.mem_cons_self
    have hwsp := hw w List.mem_cons_self
    rw [List.flatMap_cons, List.cons_append, words_cons_of_isSpace hb]
    -- what follows the word is nothing, or the separator of the next one
    cases ws with
    | nil =>
      rw [List.flatMap_nil, List.append_nil]
      exact words_of_noSpace hwsp hwne
    | cons w' ws =>
      rw [List.flatMap_cons, List.cons_append] at ih ⊢
      rw [words_cons_of_isSpace hb] at ih
      rw [words_append_cons hwsp hwne hb, ih]

end Words
