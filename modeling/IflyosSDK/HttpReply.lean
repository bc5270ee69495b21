/-
HTTP replies as `jnh_get` is sent them.

A reply is a status line, header lines, the blank line and the body; the lines
hold no NUL, CR or LF of their own, and a header line is not empty.

* `Reply.firstAt_head` — LF CR LF stands in a reply for the first time at the
  end of its head;
* `Reply.statusLine_occursAt`, `Reply.atoi_status` — what the reader finds in a
  memory that starts with the status line;
* `Reply.readHead_of_head` — the iteration that receives a whole head.
-/
import IflyosSDK.Jnh

/-- The text of a line. -/
structure Line where
  bytes : Bytes
  noNul : 0 ∉ bytes
  noCr : 13 ∉ bytes
  noLf : 10 ∉ bytes

/-- Lines as they are sent, each with its line end. -/
def wire (ls : List Line) : Bytes := ls.flatMap fun l => l.bytes ++ crLf

theorem wire_cons (l : Line) (ls : List Line) : wire (l :: ls) = l.bytes ++ crLf ++ wire ls := by
  rw [wire, List.flatMap_cons, wire]

theorem nul_not_mem_wire (ls : List Line) : 0 ∉ wire ls := by
  rw [wire, List.mem_flatMap]
  rintro ⟨l, -, hmem⟩
  rcases List.mem_append.mp hmem with h | h
  · exact l.noNul h
  · revert h
    decide

theorem exists_wire_eq {ls : List Line} (h : ls ≠ []) : ∃ x, wire ls = x ++ crLf := by
  obtain ⟨init, l, rfl⟩ := List.eq_nil_or_concat ls |>.resolve_left h
  refine ⟨wire init ++ l.bytes, ?_⟩
  simp [wire]

/-- No LF of the lines has CR LF behind it but the last one. -/
theorem length_wire_le_of_occursAt {ls : List Line} (hls : ∀ l ∈ ls, l.bytes ≠ []) {b : Bytes}
    {i : ℕ} (h : OccursAt lfCrLf (wire ls ++ b) i) : (wire ls).length ≤ i + 1 := by
  induction ls generalizing i with
  | nil => simp [wire]
  | cons l ls ih =>
    have hlf := getElem?_of_occursAt h (j := 0) (by decide)
    have hcr := getElem?_of_occursAt h (j := 1) (by decide)
    rw [wire_cons, List.append_assoc] at h hlf hcr
    rw [wire_cons]
    have hlen : (l.bytes ++ crLf).length = l.bytes.length + 2 := by simp [crLf]
    rcases lt_or_ge i (l.bytes.length + 2) with hi | hi
    · -- the LF is the one that ends the first line
      have hilt : i + 0 < (l.bytes ++ crLf).length := by omega
      rw [List.getElem?_append_left hilt] at hlf
      have hi1 : i = l.bytes.length + 1 := by
        by_contra hne
        rcases lt_or_ge i l.bytes.length with hin | hin
        · rw [List.getElem?_append_left (by omega)] at hlf
          exact l.noLf (List.mem_of_getElem? hlf)
        · obtain rfl : i = l.bytes.length := by omega
          simp [crLf, lfCrLf] at hlf
      rcases ls with _ | ⟨l', ls⟩
      · simp [wire, crLf, hi1]
      · -- and the next line starts with a byte of its own
        obtain ⟨x, xs, hx⟩ := List.exists_cons_of_ne_nil (hls l' (by simp))
        rw [List.getElem?_append_right (by omega), wire_cons, hlen, hx, hi1] at hcr
        have hx13 : x = 13 := by simpa [lfCrLf] using hcr
        refine absurd ?_ l'.noCr
        rw [hx, hx13]
        exact List.mem_cons_self
    · have hj : i = (l.bytes ++ crLf).length + (i - (l.bytes.length + 2)) := by omega
      rw [hj] at h
      have hle := ih (fun l' hl' => hls l' (List.mem_cons_of_mem _ hl'))
        (occursAt_append_right.mp h)
      rw [List.length_append]
      omega

structure Reply where
  /-- `HTTP/1.1` -/
  version : Line
  version_length : version.bytes.length = 8
  code : Bytes
  code_length : code.length = 3
  code_digits : ∀ d ∈ code, isDigit d
  /-- The rest of the status line, with the blank in front of it. -/
  reason : Line
  reason_start : ∀ b ∈ reason.bytes.head?, ¬ isDigit b
  headers : List Line
  headers_ne_nil : ∀ l ∈ headers, l.bytes ≠ []
  body : Bytes

namespace Reply

variable (r : Reply)

theorem code_not_mem {b : UInt8} (hb : ¬ isDigit b) : b ∉ r.code :=
  fun h => hb (r.code_digits b h)

def statusLine : Line where
  bytes := r.version.bytes ++ 32 :: (r.code ++ r.reason.bytes)
  noNul := by
    have hcode : 0 ∉ r.code := r.code_not_mem (by decide)
    simp [r.version.noNul, r.reason.noNul, hcode]
  noCr := by
    have hcode : 13 ∉ r.code := r.code_not_mem (by decide)
    simp [r.version.noCr, r.reason.noCr, hcode]
  noLf := by
    have hcode : 10 ∉ r.code := r.code_not_mem (by decide)
    simp [r.version.noLf, r.reason.noLf, hcode]

/-- Up to and including the blank line. -/
def head : Bytes := wire (r.statusLine :: r.headers) ++ crLf

def bytes : Bytes := r.head ++ r.body

/-- The value of the status code. -/
def status : ℤ := digitsValue r.code

theorem nul_not_mem_head : 0 ∉ r.head := by
  rw [head, List.mem_append, not_or]
  exact ⟨nul_not_mem_wire _, by decide⟩

theorem three_le_length_head : 3 ≤ r.head.length := by
  rw [head, wire_cons]
  simp [crLf]
  omega

/-- **The blank line ends the head and nothing before it does.** -/
theorem firstAt_head (b : Bytes) : FirstAt lfCrLf (r.head ++ b) (r.head.length - 3) := by
  obtain ⟨x, hx⟩ := exists_wire_eq (List.cons_ne_nil r.statusLine r.headers)
  have hhead : r.head = x ++ [13] ++ lfCrLf := by
    rw [head, hx]
    simp [crLf, lfCrLf]
  constructor
  · have hlen : r.head.length - 3 = (x ++ [13]).length := by
      rw [hhead, List.length_append]
      exact Nat.add_sub_cancel _ _
    rw [OccursAt, hlen, hhead, List.append_assoc, List.drop_left]
    exact List.prefix_append _ _
  · intro j hj h
    have hls : ∀ l ∈ r.statusLine :: r.headers, l.bytes ≠ [] := by
      intro l hl
      rcases List.mem_cons.mp hl with rfl | hl
      · simp [statusLine]
      · exact r.headers_ne_nil l hl
    rw [head, List.append_assoc] at h
    have hle := length_wire_le_of_occursAt hls h
    have hlen : r.head.length = (wire (r.statusLine :: r.headers)).length + 2 := by
      rw [head, List.length_append]
      rfl
    omega

/-! ### The status line in a memory -/

/-- The first line as it is sent. -/
def firstLine : Bytes := r.statusLine.bytes ++ crLf

theorem firstLine_le_head : r.firstLine <+: r.head := by
  rw [head, wire_cons, List.append_assoc]
  exact List.prefix_append _ _

theorem statusLine_occursAt (b : Bytes) :
    OccursAt crLf (r.firstLine ++ b) r.statusLine.bytes.length := by
  rw [OccursAt, firstLine, List.append_assoc, List.drop_left]
  exact List.prefix_append _ _

theorem status_bounds : 0 ≤ r.status ∧ r.status ≤ 999 := by
  obtain ⟨x, y, z, h⟩ := List.length_eq_three.mp r.code_length
  have hdigit : ∀ b ∈ r.code, 48 ≤ b.toNat ∧ b.toNat ≤ 57 := by
    intro b hb
    have := r.code_digits b hb
    simp only [isDigit, Bool.and_eq_true, decide_eq_true_eq, UInt8.le_iff_toNat_le] at this
    exact this
  have hx := hdigit x (by simp [h])
  have hy := hdigit y (by simp [h])
  have hz := hdigit z (by simp [h])
  rw [status, h]
  simp only [digitsValue, List.foldl_cons, List.foldl_nil]
  omega

/-- `atoi` behind the version reads the status code. -/
theorem atoi_status (b : Bytes) : atoi ((r.firstLine ++ b).drop 9) = some r.status := by
  have hdrop : (r.firstLine ++ b).drop 9 = r.code ++ (r.reason.bytes ++ crLf ++ b) := by
    have hline : r.firstLine ++ b =
        (r.version.bytes ++ [32]) ++ (r.code ++ (r.reason.bytes ++ crLf ++ b)) := by
      simp [firstLine, statusLine]
    rw [hline, List.drop_left' (by simp [r.version_length])]
  obtain ⟨x, xs, hx⟩ : ∃ x xs, r.reason.bytes ++ crLf ++ b = x :: xs :=
    List.exists_cons_of_ne_nil (by simp [crLf])
  have hx' : ¬ isDigit x := by
    cases hreason : r.reason.bytes with
    | nil =>
      rw [hreason] at hx
      obtain ⟨rfl, -⟩ := List.cons.inj hx
      decide
    | cons y ys =>
      rw [hreason] at hx
      obtain ⟨rfl, -⟩ := List.cons.inj hx
      exact r.reason_start y (by simp [hreason])
  have hne : r.code ≠ [] := List.ne_nil_of_length_pos (by rw [r.code_length]; omega)
  rw [hdrop, hx, atoi_of_digits r.code_digits hne hx', ← status]
  obtain ⟨hlow, hhigh⟩ := r.status_bounds
  rw [min_eq_right (by omega), max_eq_right (by omega)]

/-! ### What the reader makes of it -/

variable {r} {w : Buffer 128}

/-- The status code is read from a window that starts with the status line. -/
theorem readStatus_of_firstLine (h : r.firstLine <+: w.bytes) : readStatus w = .ok r.status := by
  have h0 : 0 ∉ r.firstLine := fun hmem => r.nul_not_mem_head (r.firstLine_le_head.subset hmem)
  obtain ⟨b, hb⟩ := h
  have hoccurs : OccursAt crLf (text w.bytes) r.statusLine.bytes.length := by
    rw [← hb, text_append b h0]
    exact r.statusLine_occursAt (text b)
  obtain ⟨i, -, hi⟩ := exists_found_of_occursAt crLf_ne_nil nul_not_mem_crLf hoccurs
  rw [readStatus, hi, ← hb, r.atoi_status b]

/-- The blank line is found in a window that starts with the head. -/
theorem strstr_of_head (h : r.head <+: w.bytes) :
    strstr lfCrLf w.bytes = .found (r.head.length - 3) := by
  obtain ⟨b, hb⟩ := h
  rw [strstr_eq_found_iff lfCrLf_ne_nil nul_not_mem_lfCrLf, ← hb, text_append b r.nul_not_mem_head]
  exact r.firstAt_head (text b)

/-- The first iteration, when the whole head is in. -/
theorem readHead_of_head {C : ℕ} {s : Jnh C} {idx rd : ℕ} (h : r.head <+: w.bytes)
    (hs : s.rspCode = -1) :
    readHead s w idx rd = copyBody { s with rspCode := r.status } w rd (r.head.length - 3) := by
  rw [readHead, if_pos hs, readStatus_of_firstLine (r.firstLine_le_head.trans h)]
  show findBody _ _ _ _ = _
  rw [findBody, strstr_of_head h]

/-- The header line `Server: jnh-time`. -/
def serverLine : Line where
  bytes := [83, 101, 114, 118, 101, 114, 58, 32, 106, 110, 104, 45, 116, 105, 109, 101]
  noNul := by decide
  noCr := by decide
  noLf := by decide

/-- The reply of the time server: the status line `HTTP/1.1 200 OK`, no headers
and a body. -/
def timeNow (body : Bytes) : Reply where
  version := ⟨[72, 84, 84, 80, 47, 49, 46, 49], by decide, by decide, by decide⟩
  version_length := rfl
  code := [50, 48, 48]
  code_length := rfl
  code_digits := by simp [isDigit]
  reason := ⟨[32, 79, 75], by decide, by decide, by decide⟩
  reason_start := by simp [isDigit]
  headers := []
  headers_ne_nil := by simp
  body := body

/-- The same with a header. -/
def timeNowFrom (body : Bytes) : Reply :=
  { timeNow body with headers := [serverLine], headers_ne_nil := by simp [serverLine] }

end Reply
