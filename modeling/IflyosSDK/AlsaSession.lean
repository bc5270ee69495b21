/-
The recorder's sessions: what is opened, allocated, closed and freed.

The constructor of the recorder sets the handle to null and leaves the two
buffer pointers as they are; the label of `_alsa_set_hw_params` frees what is
not NULL.

* `Session.step` — the recorder is started, read from, and stopped;
* `Session.Clean` — what is freed or closed is live, and nothing is left;
* `Session.clean_iff` — **the clean runs**: those whose first call overwrites
  what the constructor has not written;
* `Session.of_start`, `Session.of_stop` — the sessions are those of `Recorder`.
-/
import IflyosSDK.PcmContainer

namespace MicAgent

open Ledger

/-- The calls that alternate. -/
inductive RecorderMethod
  | start
  | stop
  deriving DecidableEq, Repr

/-- A recorder with its `m_pcmParams`, whether `m_executor` is set, and the
method called last. -/
structure Session where
  pcm : PCMContainer
  executor : Bool
  last : Option RecorderMethod
  deriving DecidableEq

namespace Session

open PCMContainer

/-- `Recorder::Recorder`: the two buffer pointers are what the memory holds. -/
def construct (dataBuf dataBuf16 : Option ℕ) : Session :=
  ⟨⟨none, dataBuf, dataBuf16, []⟩, false, none⟩

/-- The recorder is started, the worker reads, or the recorder is stopped. -/
inductive Action
  | start (opened : Option ℕ) (hw : HwResults)
  | read
  | stop

/-- `Recorder::start`, which begins a session. -/
def start (s : Session) (opened : Option ℕ) (hw : HwResults) : Session :=
  let r := alsaTdminInit opened hw { s.pcm with log := [] }
  { pcm := r.2, executor := if r.1 ≠ 0 then s.executor else true, last := some .start }

/-- `snd_pcm_readi`, `snd_pcm_wait` and `snd_pcm_recover`. -/
def read (s : Session) : Session :=
  { s with pcm := s.pcm.record (onPtr (.use ∘ .pcm) s.pcm.handle ++
      onPtr (.use ∘ .block) s.pcm.dataBuf) }

/-- `Recorder::stop`, behind its `join`. -/
def stop (s : Session) : Session :=
  { pcm := if s.pcm.handle.isSome then s.pcm.alsaTdminUninit else s.pcm
    executor := false
    last := some .stop }

/-- Starts and stops alternate; the worker reads while there is an executor. -/
def step (s : Session) : Action → Option Session
  | .start opened hw => if s.last = some .start then none else some (s.start opened hw)
  | .read => if s.executor then some s.read else none
  | .stop => if s.last = some .stop then none else some s.stop

/-- What is freed, closed or used is live in its session, and behind a start
that has failed and behind every stop nothing is left. -/
structure Clean (s : Session) : Prop where
  legal : (play ∅ s.pcm.log).isSome
  ended : s.last ≠ none → s.executor = false → s.pcm.Idle

/-- The call overwrites the pointers that the constructor leaves. -/
def FirstOverwrites (dataBuf dataBuf16 : Option ℕ) : Action → Prop
  | .start opened hw => (⟨none, dataBuf, dataBuf16, []⟩ : PCMContainer).Overwrites opened hw
  | .read => True
  | .stop => dataBuf = none ∧ dataBuf16 = none

variable {s u : Session} {a : Action} {opened : Option ℕ} {hw : HwResults}
  {dataBuf dataBuf16 : Option ℕ} {tr : List (Session × Action)} {r : Recorder}

/-- Between two calls: nothing is left, or the device is open. -/
inductive Inv (s : Session) : Prop
  | idle (hexecutor : s.executor = false) (hidle : s.pcm.Idle)
  | running (hexecutor : s.executor = true) (hlast : s.last = some .start)
      (hrunning : s.pcm.Running)

theorem clean_of_inv (hinv : Inv s) : Clean s := by
  cases hinv with
  | idle hexecutor hidle => exact ⟨by rw [hidle.live]; rfl, fun _ _ => hidle⟩
  | running hexecutor _ hrunning =>
    refine ⟨by rw [hrunning.owned.live]; rfl, fun _ hfalse => ?_⟩
    rw [hexecutor] at hfalse
    cases hfalse

/-- A start on a closed device is clean when it overwrites the pointers. -/
theorem start_iff (hhandle : s.pcm.handle = none) (hexecutor : s.executor = false) :
    (Clean (s.start opened hw) → s.pcm.Overwrites opened hw) ∧
      (s.pcm.Overwrites opened hw → Inv (s.start opened hw)) := by
  have hclosed : ({ s.pcm with log := [] } : PCMContainer).handle = none := hhandle
  rcases alsaTdminInit_spec hclosed rfl opened hw with ⟨hfailed, hiff⟩ | ⟨hok, hrunning, hover⟩
  · have hoff : (s.start opened hw).executor = false := (if_pos hfailed).trans hexecutor
    constructor
    · intro hclean
      exact hiff.mp (hclean.ended (Option.some_ne_none _) hoff)
    · intro hover
      exact Inv.idle hoff (hiff.mpr hover)
  · have hon : (s.start opened hw).executor = true := if_neg (not_not.mpr hok)
    exact ⟨fun _ => hover, fun _ => Inv.running hon rfl hrunning⟩

/-- The worker uses what is live. -/
theorem running_read (hrunning : s.pcm.Running) : s.read.pcm.Running := by
  refine ⟨hrunning.opened, hrunning.owned.nodup, ?_⟩
  show play ∅ (s.pcm.log ++ (onPtr (.use ∘ .pcm) s.pcm.handle ++
    onPtr (.use ∘ .block) s.pcm.dataBuf)) = some s.pcm.owned.toFinset
  rw [play_of_append hrunning.owned.live]
  refine play_uses fun o ho => ?_
  rcases List.mem_append.mp ho with ho | ho
  · obtain ⟨h, hh, rfl⟩ := List.mem_map.mp ho
    exact ⟨.pcm h, by simp [owned, Option.mem_toList.mp hh], rfl⟩
  · obtain ⟨p, hp, rfl⟩ := List.mem_map.mp ho
    exact ⟨.block p, by simp [owned, Option.mem_toList.mp hp], rfl⟩

theorem inv_stop (hinv : Inv s) : Inv s.stop := by
  cases hinv with
  | idle _ hidle =>
    have hpcm : s.stop.pcm = s.pcm := if_neg (by simp [hidle.handle])
    exact Inv.idle rfl (hpcm ▸ hidle)
  | running _ _ hrunning =>
    have hpcm : s.stop.pcm = s.pcm.cleanUp := if_pos hrunning.opened
    exact Inv.idle rfl (hpcm ▸ idle_cleanUp hrunning.owned)

theorem inv_step (hinv : Inv s) (h : step s a = some u) : Inv u := by
  cases a with
  | start opened hw =>
    rw [step] at h
    split at h
    · cases h
    rename_i hlast
    rw [← Option.some.inj h]
    cases hinv with
    | idle hexecutor hidle =>
      exact (start_iff hidle.handle hexecutor).2
        ⟨Or.inl hidle.dataBuf, Or.inl hidle.dataBuf16⟩
    | running _ hstart _ => exact absurd hstart hlast
  | read =>
    rw [step] at h
    split at h
    · rename_i hexecutor
      rw [← Option.some.inj h]
      cases hinv with
      | idle hoff _ =>
        rw [hexecutor] at hoff
        cases hoff
      | running hon hstart hrunning => exact Inv.running hon hstart (running_read hrunning)
    · cases h
  | stop =>
    rw [step] at h
    split at h
    · cases h
    · rw [← Option.some.inj h]
      exact inv_stop hinv

/-- The first call decides. -/
theorem first_iff (h : step (construct dataBuf dataBuf16) a = some u) :
    (Clean u → FirstOverwrites dataBuf dataBuf16 a) ∧
      (FirstOverwrites dataBuf dataBuf16 a → Inv u) := by
  cases a with
  | start opened hw =>
    obtain rfl := Option.some.inj h
    exact start_iff rfl rfl
  | read => cases h
  | stop =>
    obtain rfl := Option.some.inj h
    constructor
    · intro hclean
      have hidle := hclean.ended (Option.some_ne_none _) rfl
      exact ⟨hidle.dataBuf, hidle.dataBuf16⟩
    · rintro ⟨rfl, rfl⟩
      exact Inv.idle rfl ⟨rfl, rfl, rfl, rfl⟩

theorem clean_construct : Clean (construct dataBuf dataBuf16) :=
  ⟨rfl, fun hlast => absurd rfl hlast⟩

/-- **A run is clean exactly when its first call overwrites the pointers that
the constructor has not set**, or they happen to be NULL. -/
theorem clean_iff (h : Run step (construct dataBuf dataBuf16) tr s) :
    ((∀ p ∈ tr, Clean p.1) ∧ Clean s) ↔
      ∀ p ∈ tr.head?, FirstOverwrites dataBuf dataBuf16 p.2 := by
  cases tr with
  | nil =>
    rw [Run.nil_iff.mp h]
    exact iff_of_true ⟨fun p hp => absurd hp List.not_mem_nil, clean_construct⟩
      (fun p hp => by cases hp)
  | cons p tr =>
    obtain ⟨hp, u, hu, hrest⟩ := Run.cons_iff.mp h
    rw [hp] at hu
    obtain ⟨hnecessary, henough⟩ := first_iff hu
    rw [List.head?_cons]
    constructor
    · rintro ⟨hall, hs⟩ q hq
      obtain rfl := Option.some.inj hq
      refine hnecessary ?_
      -- the state behind the first call
      cases tr with
      | nil =>
        rw [← Run.nil_iff.mp hrest]
        exact hs
      | cons q tr =>
        rw [← (Run.cons_iff.mp hrest).1]
        exact hall q (List.mem_cons_of_mem _ List.mem_cons_self)
    · intro hfirst
      have hinv : Inv u := henough (hfirst p rfl)
      have hkeep : ∀ t a v, Inv t → step t a = some v → Inv v := fun t a v => inv_step
      refine ⟨?_, clean_of_inv (Run.invariant hinv hkeep hrest)⟩
      rw [List.forall_mem_cons]
      refine ⟨hp ▸ clean_construct, fun q hq => ?_⟩
      exact clean_of_inv (Run.states hinv hkeep hrest q hq)

/-- A device with periods of 20 ms. -/
def twentyMs : HwResults where
  err := fun _ => 0
  chunkSize := 320
  bufferSize := 3200
  dataBuf := some 16
  dataBuf16 := some 32
  distinct := by decide

/-- A device that cannot be configured. -/
def unconfigured : HwResults := { twentyMs with err := fun _ => -22 }

/-- A start that succeeds is clean with any pointers, and so is what follows. -/
theorem clean_of_first_start :
    ∃ tr s, Run step (construct (some 1) (some 2)) tr s ∧ s.last = some .stop ∧ Clean s := by
  have h : Run step (construct (some 1) (some 2)) _ _ :=
    Run.of_exec [.start (some 0) twentyMs, .read, .stop, .start (some 0) unconfigured, .stop] rfl
  refine ⟨_, _, h, rfl, ((clean_iff h).mpr ?_).2⟩
  intro p hp
  obtain rfl := Option.some.inj hp
  exact ⟨Or.inr (by decide), Or.inr (by decide)⟩

/-- The first start cannot configure the device, and frees what the constructor
has left. -/
theorem constructor_pointer_freed :
    ¬ ∀ (dataBuf dataBuf16 : Option ℕ) (tr : List (Session × Action)) (s : Session),
      Run step (construct dataBuf dataBuf16) tr s → (∀ p ∈ tr, Clean p.1) ∧ Clean s := by
  intro hall
  have h : Run step (construct (some 1) none) _ _ :=
    Run.of_exec [.start (some 0) unconfigured] rfl
  exact absurd (hall _ _ _ _ h).2.legal (by decide)

/-! ### In terms of calls -/

/-- A block that is freed was allocated in the session, and not freed since. -/
theorem Clean.freed {l l' : List (Op Resource)} {p : ℕ} (hclean : Clean s)
    (hlog : s.pcm.log = l ++ .release (.block p) :: l') :
    l.count (.acquire (.block p)) = l.count (.release (.block p)) + 1 :=
  live_of_legal (hlog ▸ hclean.legal) (Or.inr rfl)

/-- A handle that is used is open. -/
theorem Clean.used {l l' : List (Op Resource)} {h : ℕ} (hclean : Clean s)
    (hlog : s.pcm.log = l ++ .use (.pcm h) :: l') :
    l.count (.acquire (.pcm h)) = l.count (.release (.pcm h)) + 1 :=
  live_of_legal (hlog ▸ hclean.legal) (Or.inl rfl)

/-- Behind a session each handle has been closed as often as it was opened. -/
theorem Clean.closed (hclean : Clean s) (hlast : s.last ≠ none) (hexecutor : s.executor = false)
    (h : ℕ) : s.pcm.log.count (.release (.pcm h)) = s.pcm.log.count (.acquire (.pcm h)) :=
  released_once (hclean.ended hlast hexecutor).live (.pcm h)

/-! ### The recorder -/

/-- The session is that of the recorder. -/
def Of (r : Recorder) (s : Session) : Prop :=
  r.handle = s.pcm.handle.isSome ∧ r.executor.isSome = s.executor

theorem of_start (h : Of r s) (hhandle : s.pcm.handle = none) :
    Of (r.start ⟨(alsaTdminInit opened hw { s.pcm with log := [] }).1,
      (s.start opened hw).pcm.handle.isSome⟩) (s.start opened hw) := by
  obtain ⟨hr, hexecutor⟩ := h
  rw [hhandle] at hr
  rw [Recorder.start, Of, start]
  dsimp only
  split
  · exact ⟨by rw [hr]; rfl, hexecutor⟩
  · exact ⟨by rw [hr]; rfl, rfl⟩

theorem of_stop (r : Recorder) (s : Session) : Of r.stop s.stop := by
  refine ⟨?_, rfl⟩
  show false = (if s.pcm.handle.isSome then s.pcm.alsaTdminUninit else s.pcm).handle.isSome
  split
  · rfl
  · rename_i hclosed
    exact (Bool.eq_false_iff.mpr hclosed).symm

end Session

end MicAgent
