/-
What a start of the recorder acquires, and what it leaves when it fails.

`alsa_tdmin_init` opens the device, and `_alsa_set_hw_params` makes its calls one
after the other; whatever fails goes to one label, which frees the two buffers
that are not NULL and closes the device.

* `PCMContainer.alsaTdminInit_cases` — the five ways a start ends;
* `PCMContainer.idle_cleanUp` — the label is right when the fields say what is
  live;
* `PCMContainer.alsaTdminInit_spec` — **what a start leaves**;
* `PCMContainer.alsaTdminInit_eq_zero_iff` — when it succeeds.
-/
import IflyosSDK.AudioBuffers
import IflyosSDK.Ledger

namespace MicAgent

open Ledger

/-- A PCM handle, or a block of the heap, by its address. -/
inductive Resource
  | pcm (h : ℕ)
  | block (p : ℕ)
  deriving DecidableEq, Repr

/-- The calls of `_alsa_set_hw_params` whose result is checked. -/
inductive HwCall
  | any
  | setAccess
  | setFormat
  | setChannels
  | setRateNear
  | getBufferTimeMax
  | setBufferTimeNear
  | setPeriodTime
  | hwParams
  deriving DecidableEq, Repr

/-- The handle is an argument of the call. -/
def HwCall.usesHandle : HwCall → Bool
  | .getBufferTimeMax => false
  | _ => true

def checkedCalls : List HwCall :=
  [.any, .setAccess, .setFormat, .setChannels, .setRateNear, .getBufferTimeMax,
    .setBufferTimeNear, .setPeriodTime, .hwParams]

/-- What the calls of `_alsa_set_hw_params` return.  The blocks are those of the
two `malloc`s; the second one is not the first. -/
structure HwResults where
  err : HwCall → Int
  chunkSize : UInt32
  bufferSize : UInt32
  dataBuf : Option ℕ
  dataBuf16 : Option ℕ
  distinct : ∀ p ∈ dataBuf, dataBuf16 ≠ some p

/-- The pointers of a `PCMContainer`, and what has been done with them since the
session began. -/
structure PCMContainer where
  handle : Option ℕ
  dataBuf : Option ℕ
  dataBuf16 : Option ℕ
  log : List (Op Resource)
  deriving DecidableEq

def TDMIN_OK : Int := 0

def TDMIN_FAIL : Int := -1

theorem TDMIN_FAIL_ne_zero : TDMIN_FAIL ≠ 0 := by decide

namespace PCMContainer

/-- The operations `f` on what a pointer points to. -/
def onPtr (f : ℕ → Op Resource) (p : Option ℕ) : List (Op Resource) := p.toList.map f

def record (pcm : PCMContainer) (ops : List (Op Resource)) : PCMContainer :=
  { pcm with log := pcm.log ++ ops }

/-- `if (NULL != data_buf) free(data_buf)`, twice, and `snd_pcm_close`. -/
def cleanUp (pcm : PCMContainer) : PCMContainer :=
  { handle := none
    dataBuf := none
    dataBuf16 := none
    log := pcm.log ++ onPtr (.release ∘ .block) pcm.dataBuf ++
      onPtr (.release ∘ .block) pcm.dataBuf16 ++ onPtr (.release ∘ .pcm) pcm.handle }

/-- `ERR_SET_PARAMS`. -/
def errSetParams (pcm : PCMContainer) : Int × PCMContainer := (-1, pcm.cleanUp)

/-- `alsa_tdmin_uninit`. -/
def alsaTdminUninit (pcm : PCMContainer) : PCMContainer := pcm.cleanUp

/-- The checked calls, up to the first that fails. -/
def hwCalls (err : HwCall → Int) : List HwCall → PCMContainer → Bool × PCMContainer
  | [], pcm => (true, pcm)
  | c :: cs, pcm =>
    let pcm := if c.usesHandle then pcm.record (onPtr (.use ∘ .pcm) pcm.handle) else pcm
    if err c < 0 then (false, pcm) else hwCalls err cs pcm

/-- The two `malloc`s. -/
def mallocs (hw : HwResults) (pcm : PCMContainer) : Int × PCMContainer :=
  let pcm := { pcm.record (onPtr (.acquire ∘ .block) hw.dataBuf) with dataBuf := hw.dataBuf }
  if hw.dataBuf = none then pcm.errSetParams
  else
    let pcm :=
      { pcm.record (onPtr (.acquire ∘ .block) hw.dataBuf16) with dataBuf16 := hw.dataBuf16 }
    if hw.dataBuf16 = none then pcm.errSetParams else (0, pcm)

/-- `_alsa_set_hw_params`. -/
def alsaSetHwParams (hw : HwResults) (pcm : PCMContainer) : Int × PCMContainer :=
  match pcm.handle with
  -- `PCM_HANDLE_CHECK`
  | none => (-1, pcm)
  | some _ =>
    if ¬ (hwCalls hw.err checkedCalls pcm).1 then
      (hwCalls hw.err checkedCalls pcm).2.errSetParams
    else if hw.chunkSize = hw.bufferSize then
      (hwCalls hw.err checkedCalls pcm).2.errSetParams
    else (hwCalls hw.err checkedCalls pcm).2.mallocs hw

/-- `alsa_tdmin_init`.  `snd_pcm_open` fails, and leaves the handle as it is, or
opens `h`. -/
def alsaTdminInit (opened : Option ℕ) (hw : HwResults) (pcm : PCMContainer) :
    Int × PCMContainer :=
  match opened with
  | none => (TDMIN_FAIL, pcm)
  | some h =>
    let r := alsaSetHwParams hw { pcm.record [.acquire (.pcm h)] with handle := some h }
    if r.1 ≠ 0 then (TDMIN_FAIL, r.2) else (TDMIN_OK, r.2)

end PCMContainer

/-- No call of `_alsa_set_hw_params` in front of its `malloc`s fails. -/
def Configured (hw : HwResults) : Prop :=
  (∀ c ∈ checkedCalls, 0 ≤ hw.err c) ∧ hw.chunkSize ≠ hw.bufferSize

instance (hw : HwResults) : Decidable (Configured hw) := inferInstanceAs (Decidable (_ ∧ _))

namespace PCMContainer

variable {pcm : PCMContainer} {hw : HwResults} {h p q : ℕ} {opened : Option ℕ}

/-! ### How a start ends -/

/-- The device is open, and some calls have been made with it. -/
def opening (pcm : PCMContainer) (h : ℕ) (uses : List (Op Resource)) : PCMContainer :=
  { pcm with handle := some h, log := pcm.log ++ .acquire (.pcm h) :: uses }

theorem hwCalls_opening (err : HwCall → Int) (cs : List HwCall) (pcm : PCMContainer) (h : ℕ)
    (uses : List (Op Resource)) (huses : ∀ o ∈ uses, o = .use (.pcm h)) :
    ∃ uses', hwCalls err cs (pcm.opening h uses) =
        (decide (∀ c ∈ cs, 0 ≤ err c), pcm.opening h uses') ∧
      ∀ o ∈ uses', o = .use (.pcm h) := by
  induction cs generalizing uses with
  | nil => exact ⟨uses, by rw [hwCalls]; simp, huses⟩
  | cons c cs ih =>
    -- the call has been made, whether it succeeds or not
    obtain ⟨made, hmade, hmadeUses⟩ : ∃ made,
        (if c.usesHandle then
          (pcm.opening h uses).record (onPtr (.use ∘ .pcm) (pcm.opening h uses).handle)
          else pcm.opening h uses) = pcm.opening h made ∧ ∀ o ∈ made, o = .use (.pcm h) := by
      cases c.usesHandle with
      | false => exact ⟨uses, rfl, huses⟩
      | true =>
        refine ⟨uses ++ [.use (.pcm h)], ?_, ?_⟩
        · simp [opening, record, onPtr]
        · intro o ho
          rcases List.mem_append.mp ho with ho | ho
          · exact huses o ho
          · exact List.mem_singleton.mp ho
    rw [hwCalls, hmade]
    by_cases herr : err c < 0
    · have hnot : ¬ ∀ c' ∈ c :: cs, 0 ≤ err c' := by
        intro hall
        exact absurd (hall c List.mem_cons_self) (by omega)
      exact ⟨made, by rw [if_pos herr, decide_eq_false hnot], hmadeUses⟩
    · obtain ⟨uses', hcalls, huses'⟩ := ih made hmadeUses
      refine ⟨uses', ?_, huses'⟩
      have hiff : (∀ c' ∈ c :: cs, 0 ≤ err c') ↔ ∀ c' ∈ cs, 0 ≤ err c' := by
        rw [List.forall_mem_cons, and_iff_right (by omega)]
      rw [if_neg herr, hcalls]
      simp only [hiff]

/-- `_alsa_set_hw_params` on a device that has just been opened. -/
theorem alsaSetHwParams_opening (hw : HwResults) (pcm : PCMContainer) (h : ℕ) :
    ∃ uses, (∀ o ∈ uses, o = .use (.pcm h)) ∧
      alsaSetHwParams hw (pcm.opening h []) =
        if Configured hw then (pcm.opening h uses).mallocs hw
        else (pcm.opening h uses).errSetParams := by
  obtain ⟨uses, hcalls, huses⟩ :=
    hwCalls_opening hw.err checkedCalls pcm h [] (fun o ho => absurd ho List.not_mem_nil)
  refine ⟨uses, huses, ?_⟩
  have hset : alsaSetHwParams hw (pcm.opening h []) =
      if ¬ decide (∀ c ∈ checkedCalls, 0 ≤ hw.err c) then (pcm.opening h uses).errSetParams
      else if hw.chunkSize = hw.bufferSize then (pcm.opening h uses).errSetParams
      else (pcm.opening h uses).mallocs hw := by
    rw [alsaSetHwParams]
    simp only [hcalls]
    rfl
  rw [hset]
  by_cases hcheck : ∀ c ∈ checkedCalls, 0 ≤ hw.err c
  · rw [if_neg (not_not.mpr (decide_eq_true hcheck))]
    by_cases hsize : hw.chunkSize = hw.bufferSize
    · rw [if_pos hsize, if_neg fun hconf => hconf.2 hsize]
    · rw [if_neg hsize, if_pos ⟨hcheck, hsize⟩]
  · rw [if_pos (by simpa using hcheck), if_neg fun hconf => hcheck hconf.1]

theorem alsaTdminInit_some (h : ℕ) (hw : HwResults) (pcm : PCMContainer) :
    alsaTdminInit (some h) hw pcm =
      if (alsaSetHwParams hw (pcm.opening h [])).1 ≠ 0 then
        (TDMIN_FAIL, (alsaSetHwParams hw (pcm.opening h [])).2)
      else (TDMIN_OK, (alsaSetHwParams hw (pcm.opening h [])).2) := rfl

theorem mallocs_of_none (hp : hw.dataBuf = none) :
    pcm.mallocs hw = (-1, { pcm with dataBuf := none }.cleanUp) := by
  simp [mallocs, errSetParams, hp, record, onPtr]

theorem mallocs_of_some_none (hp : hw.dataBuf = some p) (hq : hw.dataBuf16 = none) :
    pcm.mallocs hw = (-1, { pcm.record [.acquire (.block p)] with
      dataBuf := some p, dataBuf16 := none }.cleanUp) := by
  simp [mallocs, errSetParams, hp, hq, record, onPtr]

theorem mallocs_of_some_some (hp : hw.dataBuf = some p) (hq : hw.dataBuf16 = some q) :
    pcm.mallocs hw = (0, { pcm.record [.acquire (.block p), .acquire (.block q)] with
      dataBuf := some p, dataBuf16 := some q }) := by
  simp [mallocs, hp, hq, record, onPtr]

/-- **How a start ends**: the device is not opened, it cannot be configured, the
first or the second buffer cannot be allocated, or all is there. -/
theorem alsaTdminInit_cases (opened : Option ℕ) (hw : HwResults) (pcm : PCMContainer) :
    (opened = none ∧ alsaTdminInit opened hw pcm = (TDMIN_FAIL, pcm)) ∨
      ∃ h uses, opened = some h ∧ (∀ o ∈ uses, o = .use (.pcm h)) ∧
        ((¬ Configured hw ∧
            alsaTdminInit opened hw pcm = (TDMIN_FAIL, (pcm.opening h uses).cleanUp)) ∨
          (Configured hw ∧ hw.dataBuf = none ∧ alsaTdminInit opened hw pcm =
            (TDMIN_FAIL, { pcm.opening h uses with dataBuf := none }.cleanUp)) ∨
          (∃ p, Configured hw ∧ hw.dataBuf = some p ∧ hw.dataBuf16 = none ∧
            alsaTdminInit opened hw pcm = (TDMIN_FAIL,
              { (pcm.opening h uses).record [.acquire (.block p)] with
                dataBuf := some p, dataBuf16 := none }.cleanUp)) ∨
          ∃ p q, Configured hw ∧ hw.dataBuf = some p ∧ hw.dataBuf16 = some q ∧
            alsaTdminInit opened hw pcm = (TDMIN_OK,
              { (pcm.opening h uses).record [.acquire (.block p), .acquire (.block q)] with
                dataBuf := some p, dataBuf16 := some q })) := by
  cases opened with
  | none => exact Or.inl ⟨rfl, rfl⟩
  | some h =>
    obtain ⟨uses, huses, hset⟩ := alsaSetHwParams_opening hw pcm h
    refine Or.inr ⟨h, uses, rfl, huses, ?_⟩
    rw [alsaTdminInit_some, hset]
    by_cases hconf : Configured hw
    · rw [if_pos hconf]
      cases hp : hw.dataBuf with
      | none =>
        rw [mallocs_of_none hp]
        exact Or.inr (Or.inl ⟨hconf, rfl, rfl⟩)
      | some p =>
        cases hq : hw.dataBuf16 with
        | none =>
          rw [mallocs_of_some_none hp hq]
          exact Or.inr (Or.inr (Or.inl ⟨p, hconf, rfl, rfl, rfl⟩))
        | some q =>
          rw [mallocs_of_some_some hp hq]
          exact Or.inr (Or.inr (Or.inr ⟨p, q, hconf, rfl, rfl, rfl⟩))
    · rw [if_neg hconf]
      exact Or.inl ⟨hconf, rfl⟩

/-! ### What the fields say -/

/-- What the fields point to. -/
def owned (pcm : PCMContainer) : List Resource :=
  pcm.dataBuf.toList.map .block ++ pcm.dataBuf16.toList.map .block ++
    pcm.handle.toList.map .pcm

/-- The fields say what is live. -/
structure Owned (pcm : PCMContainer) : Prop where
  nodup : pcm.owned.Nodup
  live : play ∅ pcm.log = some pcm.owned.toFinset

/-- Nothing is left. -/
structure Idle (pcm : PCMContainer) : Prop where
  handle : pcm.handle = none
  dataBuf : pcm.dataBuf = none
  dataBuf16 : pcm.dataBuf16 = none
  live : play ∅ pcm.log = some ∅

/-- The device is open. -/
structure Running (pcm : PCMContainer) : Prop where
  opened : pcm.handle.isSome
  owned : pcm.Owned

theorem log_cleanUp (pcm : PCMContainer) :
    pcm.cleanUp.log = pcm.log ++ pcm.owned.map .release := by
  simp [cleanUp, owned, onPtr, Function.comp_def]

variable {live : Finset Resource}

/-- **The label frees what is live exactly when the fields say no more than
that.** -/
theorem play_cleanUp (hlog : play ∅ pcm.log = some live) :
    play ∅ pcm.cleanUp.log =
      if pcm.owned.Nodup ∧ ∀ r ∈ pcm.owned, r ∈ live then some (live \ pcm.owned.toFinset)
      else none := by
  rw [log_cleanUp, play_of_append hlog, play_releases]

theorem idle_cleanUp (h : Owned pcm) : Idle pcm.cleanUp := by
  refine ⟨rfl, rfl, rfl, ?_⟩
  rw [play_cleanUp h.live, if_pos ⟨h.nodup, fun r hr => List.mem_toFinset.mpr hr⟩,
    Finset.sdiff_self]

/-- What is not live must not be in the fields. -/
theorem mem_live_of_idle (hlog : play ∅ pcm.log = some live) (h : Idle pcm.cleanUp) :
    ∀ r ∈ pcm.owned, r ∈ live := by
  have hlive := h.live
  rw [play_cleanUp hlog] at hlive
  split at hlive
  · rename_i hmem
    exact hmem.2
  · cases hlive

/-! ### A start -/

theorem play_opening {uses : List (Op Resource)} (hlog : pcm.log = [])
    (huses : ∀ o ∈ uses, o = .use (.pcm h)) :
    play ∅ (pcm.opening h uses).log = some {.pcm h} := by
  show play ∅ (pcm.log ++ .acquire (.pcm h) :: uses) = some {.pcm h}
  have hall : ∀ o ∈ uses, ∃ r ∈ ({.pcm h} : Finset Resource), o = .use r :=
    fun o ho => ⟨.pcm h, Finset.mem_singleton_self _, huses o ho⟩
  rw [hlog, List.nil_append, play, Op.apply, if_neg (Finset.notMem_empty _), Option.bind_some]
  exact play_uses hall

/-- The start overwrites the pointers that are not NULL. -/
def Overwrites (pcm : PCMContainer) (opened : Option ℕ) (hw : HwResults) : Prop :=
  (pcm.dataBuf = none ∨ opened.isSome ∧ Configured hw) ∧
    (pcm.dataBuf16 = none ∨ opened.isSome ∧ Configured hw ∧ hw.dataBuf.isSome)

instance (pcm : PCMContainer) (opened : Option ℕ) (hw : HwResults) :
    Decidable (pcm.Overwrites opened hw) := inferInstanceAs (Decidable (_ ∧ _))

/-- The label behind a start that has allocated nothing. -/
theorem idle_cleanUp_iff (hhandle : pcm.handle = some h)
    (hlog : play ∅ pcm.log = some {.pcm h}) :
    Idle pcm.cleanUp ↔ pcm.dataBuf = none ∧ pcm.dataBuf16 = none := by
  constructor
  · intro hidle
    have hblock : ∀ p, .block p ∉ pcm.owned := by
      intro p hp
      cases Finset.mem_singleton.mp (mem_live_of_idle hlog hidle _ hp)
    exact ⟨Option.eq_none_iff_forall_ne_some.mpr fun p hp => hblock p (by simp [owned, hp]),
      Option.eq_none_iff_forall_ne_some.mpr fun p hp => hblock p (by simp [owned, hp])⟩
  · rintro ⟨hp, hq⟩
    have howned : pcm.owned = [.pcm h] := by simp [owned, hp, hq, hhandle]
    refine idle_cleanUp ⟨?_, ?_⟩
    · rw [howned]
      exact List.nodup_singleton _
    · rw [hlog, howned]
      rfl

/-- The first buffer has been allocated. -/
theorem owned_dataBuf {uses : List (Op Resource)}
    (hopen : play ∅ (pcm.opening h uses).log = some {.pcm h}) :
    Owned { (pcm.opening h uses).record [.acquire (.block p)] with
      dataBuf := some p, dataBuf16 := none } := by
  constructor
  · simp [owned, record, opening]
  · show play ∅ ((pcm.opening h uses).log ++ [.acquire (.block p)]) = _
    rw [play_of_append hopen, play_singleton, Op.apply, if_neg (by simp)]
    simp [owned, record, opening]

/-- Both buffers have. -/
theorem owned_dataBufs {uses : List (Op Resource)} (hne : q ≠ p)
    (hopen : play ∅ (pcm.opening h uses).log = some {.pcm h}) :
    Owned { (pcm.opening h uses).record [.acquire (.block p), .acquire (.block q)] with
      dataBuf := some p, dataBuf16 := some q } := by
  constructor
  · simp [owned, record, opening, hne.symm]
  · show play ∅ ((pcm.opening h uses).log ++ [.acquire (.block p), .acquire (.block q)]) = _
    rw [play_of_append hopen, play, Op.apply, if_neg (by simp), Option.bind_some,
      play_singleton, Op.apply, if_neg (by simp [hne])]
    congr 1
    ext r
    simp [owned, record, opening]
    tauto

/-- **What a start leaves.**  One that fails leaves nothing exactly when it has
overwritten what was there; behind one that succeeds the device is open. -/
theorem alsaTdminInit_spec (hhandle : pcm.handle = none) (hlog : pcm.log = [])
    (opened : Option ℕ) (hw : HwResults) :
    ((alsaTdminInit opened hw pcm).1 ≠ 0 ∧
        (Idle (alsaTdminInit opened hw pcm).2 ↔ pcm.Overwrites opened hw)) ∨
      ((alsaTdminInit opened hw pcm).1 = 0 ∧ Running (alsaTdminInit opened hw pcm).2 ∧
        pcm.Overwrites opened hw) := by
  rcases alsaTdminInit_cases opened hw pcm with ⟨rfl, hinit⟩ | ⟨h, uses, rfl, huses, hcases⟩
  · -- the device is not opened
    rw [hinit]
    refine Or.inl ⟨TDMIN_FAIL_ne_zero, ?_⟩
    constructor
    · intro hidle
      exact ⟨Or.inl hidle.dataBuf, Or.inl hidle.dataBuf16⟩
    · rintro ⟨hp, hq⟩
      refine ⟨hhandle, hp.resolve_right ?_, hq.resolve_right ?_, by rw [hlog]; rfl⟩
      · rintro ⟨hsome, -⟩
        cases hsome
      · rintro ⟨hsome, -⟩
        cases hsome
  have hopen := play_opening hlog huses
  rcases hcases with ⟨hconf, hinit⟩ | ⟨hconf, hp, hinit⟩ | ⟨p, hconf, hp, hq, hinit⟩ |
    ⟨p, q, hconf, hp, hq, hinit⟩
  · -- it cannot be configured
    rw [hinit]
    refine Or.inl ⟨TDMIN_FAIL_ne_zero, ?_⟩
    rw [idle_cleanUp_iff rfl hopen, Overwrites]
    simp [hconf, opening]
  · -- no memory for the first buffer
    rw [hinit]
    refine Or.inl ⟨TDMIN_FAIL_ne_zero, ?_⟩
    have hidle : Idle { pcm.opening h uses with dataBuf := none }.cleanUp ↔
        none = (none : Option ℕ) ∧ pcm.dataBuf16 = none := idle_cleanUp_iff rfl hopen
    refine hidle.trans ?_
    rw [Overwrites]
    simp [hconf, hp]
  · -- no memory for the second buffer
    rw [hinit]
    refine Or.inl ⟨TDMIN_FAIL_ne_zero, iff_of_true (idle_cleanUp (owned_dataBuf hopen)) ?_⟩
    exact ⟨Or.inr ⟨rfl, hconf⟩, Or.inr ⟨rfl, hconf, by rw [hp]; rfl⟩⟩
  · -- all is there
    have hne : q ≠ p := by
      rintro rfl
      exact hw.distinct q hp hq
    rw [hinit]
    refine Or.inr ⟨rfl, ⟨rfl, owned_dataBufs hne hopen⟩, ?_⟩
    exact ⟨Or.inr ⟨rfl, hconf⟩, Or.inr ⟨rfl, hconf, by rw [hp]; rfl⟩⟩

/-- The start succeeds when the parameters are those of a period. -/
theorem alsaTdminInit_eq_zero_iff (h : ℕ) (hw : HwResults) (pcm : PCMContainer) :
    (alsaTdminInit (some h) hw pcm).1 = 0 ↔
      (MicAgent.alsaSetHwParams
        { ok := decide (∀ c ∈ checkedCalls, 0 ≤ hw.err c)
          chunkSize := hw.chunkSize
          bufferSize := hw.bufferSize
          malloc := hw.dataBuf.isSome && hw.dataBuf16.isSome }).isSome := by
  have hiff : (MicAgent.alsaSetHwParams
      { ok := decide (∀ c ∈ checkedCalls, 0 ≤ hw.err c)
        chunkSize := hw.chunkSize
        bufferSize := hw.bufferSize
        malloc := hw.dataBuf.isSome && hw.dataBuf16.isSome }).isSome ↔
      Configured hw ∧ hw.dataBuf.isSome ∧ hw.dataBuf16.isSome := by
    rw [MicAgent.alsaSetHwParams, Configured]
    split_ifs <;> simp_all
  rw [hiff]
  rcases alsaTdminInit_cases (some h) hw pcm with ⟨hnone, -⟩ | ⟨h, uses, -, -, hcases⟩
  · cases hnone
  rcases hcases with ⟨hconf, hinit⟩ | ⟨-, hp, hinit⟩ | ⟨p, -, hp, hq, hinit⟩ |
    ⟨p, q, hconf, hp, hq, hinit⟩
  · rw [hinit]
    exact iff_of_false TDMIN_FAIL_ne_zero fun h => hconf h.1
  · rw [hinit, hp]
    exact iff_of_false TDMIN_FAIL_ne_zero fun h => Bool.noConfusion h.2.1
  · rw [hinit, hq]
    exact iff_of_false TDMIN_FAIL_ne_zero fun h => Bool.noConfusion h.2.2
  · rw [hinit, hp, hq]
    exact iff_of_true rfl ⟨hconf, rfl, rfl⟩

end PCMContainer

end MicAgent
