/-
The authorisation code, spoken.

AUTH_REQUIRED brings the code as a text.  `sonic_speak` writes leading.pcm and,
for each digit of the text, its part of numbers.pcm into one file, which a
player then plays.  Both files are read into memory of `malloc`, and how much of
numbers.pcm has been read is not looked at.

* `sonicSpeak` — the function;
* `sonicSpeak_eq` — what it writes and returns, for every text;
* `speaks_apart_iff` — **different codes sound different** exactly when the ten
  digits do;
* `speaks_recordings_iff` — **nothing but recordings is heard** exactly when
  numbers.pcm has the digits of the code.
-/
import IflyosSDK.Memory

/-! ### Blocks -/

section Blocks

variable {α β : Type*} {f g : α → List β} {n : ℕ}

/-- Blocks of one length can be told apart in their concatenation. -/
theorem eq_of_flatMap_eq {P : α → Prop} (hn : 0 < n) (hf : ∀ a, P a → (f a).length = n)
    (hg : ∀ a, P a → (g a).length = n) (hinj : ∀ a b, P a → P b → f a = g b → a = b) :
    ∀ {xs ys : List α}, (∀ a ∈ xs, P a) → (∀ a ∈ ys, P a) → xs.flatMap f = ys.flatMap g →
      xs = ys := by
  intro xs
  induction xs with
  | nil =>
    intro ys _ hys h
    cases ys with
    | nil => rfl
    | cons y ys =>
      have hy := hg y (hys y List.mem_cons_self)
      have hlength := congrArg List.length h
      rw [List.flatMap_nil, List.flatMap_cons, List.length_append, List.length_nil] at hlength
      omega
  | cons x xs ih =>
    intro ys hxs hys h
    have hx := hxs x List.mem_cons_self
    cases ys with
    | nil =>
      have hlength := congrArg List.length h
      rw [List.flatMap_nil, List.flatMap_cons, List.length_append, List.length_nil, hf x hx]
        at hlength
      omega
    | cons y ys =>
      have hy := hys y List.mem_cons_self
      rw [List.flatMap_cons, List.flatMap_cons] at h
      obtain ⟨hhead, htail⟩ := List.append_inj h (by rw [hf x hx, hg y hy])
      rw [hinj x y hx hy hhead, ih (fun a ha => hxs a (List.mem_cons_of_mem _ ha))
        (fun a ha => hys a (List.mem_cons_of_mem _ ha)) htail]

/-- Two concatenations of blocks of the same lengths agree block by block. -/
theorem flatMap_eq_flatMap_iff {xs : List α} (hlen : ∀ a ∈ xs, (f a).length = (g a).length) :
    xs.flatMap f = xs.flatMap g ↔ ∀ a ∈ xs, f a = g a := by
  induction xs with
  | nil => simp
  | cons x xs ih =>
    rw [List.forall_mem_cons] at hlen
    rw [List.flatMap_cons, List.flatMap_cons, List.forall_mem_cons, ← ih hlen.2]
    constructor
    · intro h
      exact List.append_inj h hlen.1
    · rintro ⟨hhead, htail⟩
      rw [hhead, htail]

end Blocks

namespace MicAgent

/-! ### `sonic_speak` -/

/-- `DIGIT_LEN`. -/
def digitLen : ℕ := 16000

/-- `BUFFER_LEN`. -/
def bufferLen : ℕ := digitLen * 11

/-- `fread` into a whole buffer, with the number of bytes it returns.  A file
that `fopen` has not opened crashes it. -/
def fread (buf : Buffer bufferLen) (file : Option Bytes) : Option (Buffer bufferLen × ℕ) :=
  file.bind fun bytes =>
    (buf.store 0 (bytes.take bufferLen)).map fun buf => (buf, (bytes.take bufferLen).length)

/-- The loop over the text: what has been written to the file, and `count`. -/
def speakDigits (numbersBuf : Buffer bufferLen) : Bytes → Bytes → ℕ → Option (Bytes × ℕ)
  | [], out, count => some (out, count)
  | d :: digits, out, count =>
    if d < 48 ∨ 57 < d then speakDigits numbersBuf digits out count
    else
      (numbersBuf.load ((d.toNat - 48) * digitLen) digitLen).bind fun digit =>
        speakDigits numbersBuf digits (out ++ digit) (count + digitLen)

/-- `sonic_speak`, with the two files and what `malloc` returns: the file it
leaves, and its value. -/
def sonicSpeak (leadingPcm numbersPcm : Option Bytes) (leadingBuf numbersBuf : Buffer bufferLen)
    (digits : CString) : Option (Bytes × ℕ) :=
  (fread leadingBuf leadingPcm).bind fun (leadingBuf, leadingLen) =>
    (fread numbersBuf numbersPcm).bind fun (numbersBuf, _) =>
      (leadingBuf.load 0 leadingLen).bind fun leading =>
        speakDigits numbersBuf digits.bytes leading leadingLen

/-- The digits of a text. -/
def spoken (digits : CString) : Bytes := digits.bytes.filter isDigit

/-- The memory that the digits are taken from. -/
def voice (numbersPcm : Bytes) (numbersBuf : Buffer bufferLen) : Bytes :=
  numbersPcm.take bufferLen ++ numbersBuf.bytes.drop (numbersPcm.take bufferLen).length

/-- What is played for a digit. -/
def sound (voice : Bytes) (d : UInt8) : Bytes :=
  (voice.drop ((d.toNat - 48) * digitLen)).take digitLen

section Spec

variable {leadingPcm numbersPcm : Bytes} {leadingBuf numbersBuf : Buffer bufferLen} {d : UInt8}

theorem length_voice : (voice numbersPcm numbersBuf).length = bufferLen := by
  rw [voice, List.length_append, List.length_drop, numbersBuf.size, List.length_take]
  omega

theorem isDigit_iff : isDigit d ↔ 48 ≤ d.toNat ∧ d.toNat ≤ 57 := by
  rw [isDigit, Bool.and_eq_true, decide_eq_true_iff, decide_eq_true_iff, UInt8.le_iff_toNat_le,
    UInt8.le_iff_toNat_le]
  rfl

/-- All ten digits are inside the buffer. -/
theorem digit_inside (hd : isDigit d) : (d.toNat - 48) * digitLen + digitLen ≤ bufferLen := by
  have hrange := isDigit_iff.mp hd
  rw [bufferLen, digitLen]
  omega

theorem length_sound (hd : isDigit d) :
    (sound (voice numbersPcm numbersBuf) d).length = digitLen := by
  have hinside := digit_inside hd
  rw [sound, List.length_take, List.length_drop, length_voice]
  omega

theorem speakDigits_eq (digits out : Bytes) (count : ℕ) :
    speakDigits numbersBuf digits out count =
      some (out ++ (digits.filter isDigit).flatMap (sound numbersBuf.bytes),
        count + (digits.filter isDigit).length * digitLen) := by
  induction digits generalizing out count with
  | nil => simp [speakDigits]
  | cons d digits ih =>
    have hskip : (d < 48 ∨ 57 < d) ↔ ¬ isDigit d := by
      rw [isDigit_iff, UInt8.lt_iff_toNat_lt, UInt8.lt_iff_toNat_lt]
      show d.toNat < 48 ∨ 57 < d.toNat ↔ _
      omega
    rw [speakDigits]
    by_cases hd : isDigit d
    · rw [if_neg (by simpa [hskip] using hd), Buffer.load, if_pos (digit_inside hd),
        Option.bind_some, ih, List.filter_cons_of_pos hd, List.flatMap_cons, List.length_cons,
        List.append_assoc]
      congr 2
      rw [Nat.succ_mul]
      omega
    · rw [if_pos (hskip.mpr hd), ih, List.filter_cons_of_neg hd]

theorem fread_eq (buf : Buffer bufferLen) (file : Bytes) :
    ∃ buf', fread buf (some file) = some (buf', (file.take bufferLen).length) ∧
      buf'.bytes = voice file buf := by
  have hfits : 0 + (file.take bufferLen).length ≤ bufferLen := by
    rw [List.length_take]
    omega
  obtain ⟨buf', hstore⟩ := buf.exists_store hfits
  refine ⟨buf', ?_, ?_⟩
  · rw [fread, Option.bind_some, hstore]
    rfl
  · rw [Buffer.bytes_of_store hstore, List.take_zero, List.nil_append, Nat.zero_add, voice]

/-- **What `sonic_speak` writes**, and that it returns how much that is. -/
theorem sonicSpeak_eq (digits : CString) :
    sonicSpeak (some leadingPcm) (some numbersPcm) leadingBuf numbersBuf digits =
      some (leadingPcm.take bufferLen ++
          (spoken digits).flatMap (sound (voice numbersPcm numbersBuf)),
        (leadingPcm.take bufferLen).length + (spoken digits).length * digitLen) := by
  obtain ⟨lead, hlead, hleadBytes⟩ := fread_eq leadingBuf leadingPcm
  obtain ⟨numbers, hnumbers, hnumbersBytes⟩ := fread_eq numbersBuf numbersPcm
  have hload : lead.load 0 (leadingPcm.take bufferLen).length =
      some (leadingPcm.take bufferLen) := by
    rw [Buffer.load, if_pos (by rw [List.length_take]; omega), hleadBytes, List.drop_zero, voice,
      List.take_left]
  simp only [sonicSpeak, hlead, hnumbers, hload, Option.bind_some]
  rw [speakDigits_eq, hnumbersBytes]
  rfl

end Spec

/-! ### What can be told apart -/

section Apart

variable {leadingPcm numbersPcm : Bytes} {d : UInt8}

/-- A text of one digit. -/
def oneDigit (d : UInt8) (hd : isDigit d) : CString where
  bytes := [d]
  noNul := by
    intro hmem
    rw [← List.mem_singleton.mp hmem] at hd
    exact absurd hd (by decide)

theorem spoken_oneDigit (hd : isDigit d) : spoken (oneDigit d hd) = [d] := by
  simp [spoken, oneDigit, hd]

/-- **Different codes sound different**, whatever `malloc` has returned in the
two calls, exactly when different digits do. -/
theorem speaks_apart_iff :
    (∀ (code code' : CString) (leadingBuf numbersBuf leadingBuf' numbersBuf' : Buffer bufferLen),
      sonicSpeak (some leadingPcm) (some numbersPcm) leadingBuf numbersBuf code =
          sonicSpeak (some leadingPcm) (some numbersPcm) leadingBuf' numbersBuf' code' →
        spoken code = spoken code') ↔
      ∀ (d d' : UInt8) (numbersBuf numbersBuf' : Buffer bufferLen), isDigit d → isDigit d' →
        sound (voice numbersPcm numbersBuf) d = sound (voice numbersPcm numbersBuf') d' →
          d = d' := by
  constructor
  · intro h d d' numbersBuf numbersBuf' hd hd' hsound
    have hspoken := h (oneDigit d hd) (oneDigit d' hd') (.zeros _) numbersBuf (.zeros _) numbersBuf'
      (by rw [sonicSpeak_eq, sonicSpeak_eq, spoken_oneDigit, spoken_oneDigit]; simp [hsound])
    rw [spoken_oneDigit, spoken_oneDigit] at hspoken
    exact (List.cons.inj hspoken).1
  · intro hdigits code code' leadingBuf numbersBuf leadingBuf' numbersBuf' h
    rw [sonicSpeak_eq, sonicSpeak_eq] at h
    have hout := List.append_cancel_left (Prod.mk.inj (Option.some.inj h)).1
    exact eq_of_flatMap_eq (P := fun d => isDigit d) (by decide) (fun d hd => length_sound hd)
      (fun d hd => length_sound hd)
      (fun d d' hd hd' => hdigits d d' numbersBuf numbersBuf' hd hd')
      (fun d hd => (List.mem_filter.mp hd).2) (fun d hd => (List.mem_filter.mp hd).2) hout

/-- A digit that numbers.pcm has is taken from there. -/
theorem sound_of_le {numbersBuf : Buffer bufferLen} (hd : isDigit d)
    (hle : (d.toNat - 48 + 1) * digitLen ≤ numbersPcm.length) :
    sound (voice numbersPcm numbersBuf) d = sound (numbersPcm.take bufferLen) d := by
  have hinside := digit_inside hd
  rw [Nat.succ_mul] at hle
  have hlen : (d.toNat - 48) * digitLen + digitLen ≤ (numbersPcm.take bufferLen).length := by
    rw [List.length_take]
    omega
  rw [sound, sound, voice, List.drop_append_of_le_length (by omega),
    List.take_append_of_le_length (by rw [List.length_drop]; omega)]

/-- The last sample of a digit that numbers.pcm does not have is what `malloc`
has left there. -/
theorem getElem?_sound {b : UInt8} (hd : isDigit d)
    (hlt : numbersPcm.length < (d.toNat - 48 + 1) * digitLen) :
    (sound (voice numbersPcm ⟨List.replicate bufferLen b, List.length_replicate⟩)
      d)[digitLen - 1]? = some b := by
  have hinside := digit_inside hd
  have hpos : 0 < digitLen := by decide
  rw [Nat.succ_mul] at hlt
  rw [sound, List.getElem?_take_of_lt (by omega), List.getElem?_drop, voice,
    List.getElem?_append_right (by rw [List.length_take]; omega), List.getElem?_drop]
  exact List.getElem?_replicate_of_lt (by rw [List.length_take]; omega)

/-- **Nothing but recordings is heard**, whatever `malloc` has returned, exactly
when numbers.pcm has every digit of the code. -/
theorem speaks_recordings_iff (code : CString) :
    (∀ leadingBuf numbersBuf leadingBuf' numbersBuf' : Buffer bufferLen,
      sonicSpeak (some leadingPcm) (some numbersPcm) leadingBuf numbersBuf code =
        sonicSpeak (some leadingPcm) (some numbersPcm) leadingBuf' numbersBuf' code) ↔
      ∀ d ∈ spoken code, (d.toNat - 48 + 1) * digitLen ≤ numbersPcm.length := by
  have hdigit : ∀ d ∈ spoken code, isDigit d := fun d hd => (List.mem_filter.mp hd).2
  constructor
  · intro h d hd
    by_contra hlt
    have hsame := h (.zeros _) ⟨List.replicate bufferLen 0, List.length_replicate⟩ (.zeros _)
      ⟨List.replicate bufferLen 1, List.length_replicate⟩
    rw [sonicSpeak_eq, sonicSpeak_eq] at hsame
    have hout := List.append_cancel_left (Prod.mk.inj (Option.some.inj hsame)).1
    rw [flatMap_eq_flatMap_iff fun a ha => by
      rw [length_sound (hdigit a ha), length_sound (hdigit a ha)]] at hout
    have hlast := congrArg (·[digitLen - 1]?) (hout d hd)
    simp only [getElem?_sound (hdigit d hd) (Nat.lt_of_not_le hlt), Option.some.injEq] at hlast
    exact absurd hlast (by decide)
  · intro hhas leadingBuf numbersBuf leadingBuf' numbersBuf'
    have hsame : (spoken code).flatMap (sound (voice numbersPcm numbersBuf)) =
        (spoken code).flatMap (sound (voice numbersPcm numbersBuf')) := by
      rw [flatMap_eq_flatMap_iff fun a ha => by
        rw [length_sound (hdigit a ha), length_sound (hdigit a ha)]]
      intro d hd
      rw [sound_of_le (hdigit d hd) (hhas d hd), sound_of_le (hdigit d hd) (hhas d hd)]
    rw [sonicSpeak_eq, sonicSpeak_eq, hsame]

end Apart

end MicAgent
