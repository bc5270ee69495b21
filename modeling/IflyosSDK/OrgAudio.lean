/-
From the microphone to the FIFO.

The recorder's thread captures a frame, calls `onWakeWord` when the detector has
heard the wake word in it, and then `onAudio` with the frame.  The worker of
`executor` opens and closes the FIFO meanwhile, and `onAudio` writes to whatever
descriptor it finds.

* `OrgAudio.step` — one step of the recorder, its observer or another thread;
* `OrgAudio.simulates_recording`, `OrgAudio.simulates_audio` — it consists of
  the recorder and of MicAgent's threads with their FIFO;
* `OrgAudio.streams` — what has gone through each opening of the FIFO;
* `OrgAudio.passed_append` — every captured frame is passed once, in its order;
* `OrgAudio.fifo_sublist` — **no frame reaches the FIFO twice or out of order**;
* `OrgAudio.fifo_blocks` — **each opening gets frames without a gap**, when the
  FIFO is opened for a wake word that nobody has answered by closing it.
-/
import Mathlib.Data.List.Forall2
import IflyosSDK.MicAgentWrite
import IflyosSDK.ReadAudio
import IflyosSDK.Simulation

namespace MicAgent

/-- `main` adds one observer. -/
def orgAudioObserver : ObserverSet Unit := ⟨[()], by decide⟩

/-- The recorder, the calls of its observer that are still to be made, the
`data` of the last `onAudio`, and MicAgent with the reader of its FIFO. -/
structure OrgAudio where
  recording : Recording Unit 640
  calls : List (Callback Unit)
  data : Bytes
  audio : Audio

namespace OrgAudio

def start (dataBuf : Buffer 640) (reader : Bool) : OrgAudio :=
  ⟨.start dataBuf orgAudioObserver, [], [], .start reader⟩

/-- What can happen next: a step of the recorder's task, the next call of its
observer up to the write, a `write` that takes `n` bytes from `data`, or a step
that is not the recorder's. -/
inductive Action
  | recorder (a : Recording.Action)
  | observer
  | write (n : ℕ)
  | other (a : Audio.Action)
  deriving DecidableEq

/-- The steps of MicAgent that the recorder's thread takes. -/
def ByRecorder (a : Audio.Action) : Prop :=
  a = .agent .wakeWord ∨ a = .write ∨ ∃ format, a = .test format

instance : DecidablePred ByRecorder
  | .agent .wakeWord | .write => isTrue (by simp [ByRecorder])
  | .test format => isTrue (Or.inr (Or.inr ⟨format, rfl⟩))
  | .agent (.event _) | .agent (.runTask _) | .agent (.network _) | .agent .micMute
  | .agent .restart | .agent .waitStart | .readerOpens | .readerExits =>
    isFalse (by simp [ByRecorder])

def step (s : OrgAudio) : Action → Option OrgAudio
  | .recorder a =>
    -- the thread is not in its observer
    if s.calls = [] ∧ s.audio.writing = false ∧ s.audio.killed = false then
      (Recording.step s.recording a).map fun r =>
        { s with recording := r, calls := r.callbacks.drop s.recording.callbacks.length }
    else none
  | .observer =>
    match s.calls with
    | [] => none
    | .onWakeWord _ :: calls =>
      if s.audio.writing then none
      else (Audio.step s.audio (.agent .wakeWord)).map fun u =>
        { s with calls := calls, audio := u }
    | .onAudio _ data :: calls =>
      (Audio.step s.audio (.test .originOutput)).map fun u =>
        { s with calls := calls, data := data, audio := u }
  | .write n =>
    if n ≤ s.data.length then (Audio.step s.audio .write).map fun u => { s with audio := u }
    else none
  | .other a =>
    if ByRecorder a then none else (Audio.step s.audio a).map fun u => { s with audio := u }

/-! ### What a step does -/

inductive Step (s : OrgAudio) : Action → OrgAudio → Prop
  | recorder {a : Recording.Action} {r : Recording Unit 640} (hcalls : s.calls = [])
    (hwriting : s.audio.writing = false) (hr : Recording.step s.recording a = some r) :
    Step s (.recorder a)
      { s with recording := r, calls := r.callbacks.drop s.recording.callbacks.length }
  | wakeWord {o : Unit} {calls : List (Callback Unit)} {u : State}
    (hcalls : s.calls = .onWakeWord o :: calls) (hwriting : s.audio.writing = false)
    (halive : s.audio.killed = false) (hu : MicAgent.step s.audio.agent .wakeWord = some u) :
    Step s .observer { s with calls := calls, audio := { s.audio with agent := u } }
  | onAudio {o : Unit} {data : Bytes} {calls : List (Callback Unit)}
    (hcalls : s.calls = .onAudio o data :: calls) (hwriting : s.audio.writing = false)
    (halive : s.audio.killed = false) :
    Step s .observer { s with
      calls := calls
      data := data
      audio := { s.audio with writing := s.audio.agent.forwarding } }
  | write {n : ℕ} (hn : n ≤ s.data.length) (hwriting : s.audio.writing = true)
    (halive : s.audio.killed = false) :
    Step s (.write n)
      { s with audio := { s.audio with writing := false, killed := decide s.audio.Breaks } }
  | agent {a : MicAgent.Action} {u : State} (hwake : a ≠ .wakeWord)
    (halive : s.audio.killed = false) (hu : MicAgent.step s.audio.agent a = some u) :
    Step s (.other (.agent a)) { s with audio := { s.audio with agent := u } }
  | reader (a : Audio.Action) {reader : Bool} (ha : a = .readerOpens ∨ a = .readerExits)
    (halive : s.audio.killed = false) :
    Step s (.other a) { s with audio := { s.audio with reader := reader } }

section Steps

variable {s u : OrgAudio} {a : Action} {tr : List (OrgAudio × Action)}

theorem audio_step_cases {v w : Audio} {b : Audio.Action} (h : Audio.step v b = some w) :
    v.killed = false ∧ v.act b = some w := by
  rw [Audio.step] at h
  split at h
  · cases h
  · rename_i halive
    exact ⟨Bool.eq_false_iff.mpr halive, h⟩

theorem isSome_onAudio (v : State) : (MicAgent.onAudio v .originOutput).isSome = v.forwarding := by
  rw [MicAgent.onAudio]
  cases v.forwarding <;> rfl

theorem step_cases (h : step s a = some u) : Step s a u := by
  cases a with
  | recorder a =>
    rw [step] at h
    split_ifs at h with hfree
    obtain ⟨r, hr, rfl⟩ := Option.map_eq_some_iff.mp h
    exact .recorder hfree.1 hfree.2.1 hr
  | observer =>
    rw [step] at h
    split at h
    · cases h
    · rename_i o calls hcalls
      split_ifs at h with hwriting
      obtain ⟨w, hw, rfl⟩ := Option.map_eq_some_iff.mp h
      obtain ⟨halive, hact⟩ := audio_step_cases hw
      rw [Audio.act, if_neg (show ¬ s.audio.OpenBlocks .wakeWord from id)] at hact
      obtain ⟨v, hv, rfl⟩ := Option.map_eq_some_iff.mp hact
      exact .wakeWord hcalls (Bool.eq_false_iff.mpr hwriting) halive hv
    · rename_i o data calls hcalls
      obtain ⟨w, hw, rfl⟩ := Option.map_eq_some_iff.mp h
      obtain ⟨halive, hact⟩ := audio_step_cases hw
      rw [Audio.act] at hact
      split_ifs at hact with hwriting
      rw [← Option.some.inj hact, isSome_onAudio]
      exact .onAudio hcalls (Bool.eq_false_iff.mpr hwriting) halive
  | write n =>
    rw [step] at h
    split_ifs at h with hn
    obtain ⟨w, hw, rfl⟩ := Option.map_eq_some_iff.mp h
    obtain ⟨halive, hact⟩ := audio_step_cases hw
    rw [Audio.act] at hact
    split_ifs at hact with hwriting
    rw [← Option.some.inj hact]
    exact .write hn hwriting halive
  | other a =>
    rw [step] at h
    split_ifs at h with hby
    obtain ⟨w, hw, rfl⟩ := Option.map_eq_some_iff.mp h
    obtain ⟨halive, hact⟩ := audio_step_cases hw
    cases a with
    | agent b =>
      rw [Audio.act] at hact
      split_ifs at hact
      obtain ⟨v, hv, rfl⟩ := Option.map_eq_some_iff.mp hact
      exact .agent (fun hb => hby (Or.inl (hb ▸ rfl))) halive hv
    | test format => exact absurd (Or.inr (Or.inr ⟨format, rfl⟩)) hby
    | write => exact absurd (Or.inr (Or.inl rfl)) hby
    | readerOpens =>
      rw [← Option.some.inj hact]
      exact .reader _ (Or.inl rfl) halive
    | readerExits =>
      rw [← Option.some.inj hact]
      exact .reader _ (Or.inr rfl) halive

/-! ### Its parts -/

/-- The steps of the recorder. -/
def recorderLabel : OrgAudio × Action → Option Recording.Action
  | (_, .recorder a) => some a
  | (_, .observer) | (_, .write _) | (_, .other _) => none

/-- The steps of MicAgent. -/
def audioLabel : OrgAudio × Action → Option Audio.Action
  | (_, .recorder _) => none
  | (s, .observer) =>
    match s.calls with
    | [] => none
    | .onWakeWord _ :: _ => some (.agent .wakeWord)
    | .onAudio _ _ :: _ => some (.test .originOutput)
  | (_, .write _) => some .write
  | (_, .other a) => some a

theorem simulates_recording :
    Simulates step Recording.step (fun _ => True) recording recorderLabel where
  kept := fun _ _ _ _ _ => trivial
  matched := by
    intro s a u _ h
    cases step_cases h with
    | recorder hcalls hwriting hr => exact Or.inr ⟨_, rfl, hr⟩
    | wakeWord _ _ _ _ | onAudio _ _ _ | write _ _ _ | agent _ _ _ | reader _ _ _ =>
      exact Or.inl ⟨rfl, rfl⟩

theorem simulates_audio : Simulates step Audio.step (fun _ => True) audio audioLabel where
  kept := fun _ _ _ _ _ => trivial
  matched := by
    intro s a u _ h
    cases a with
    | recorder a =>
      cases step_cases h with
      | recorder hcalls hwriting hr => exact Or.inl ⟨rfl, rfl⟩
    | observer =>
      rw [step] at h
      rw [audioLabel]
      split at h
      · cases h
      · split_ifs at h
        obtain ⟨w, hw, rfl⟩ := Option.map_eq_some_iff.mp h
        exact Or.inr ⟨_, rfl, hw⟩
      · obtain ⟨w, hw, rfl⟩ := Option.map_eq_some_iff.mp h
        exact Or.inr ⟨_, rfl, hw⟩
    | write n =>
      rw [step] at h
      split_ifs at h
      obtain ⟨w, hw, rfl⟩ := Option.map_eq_some_iff.mp h
      exact Or.inr ⟨_, rfl, hw⟩
    | other a =>
      rw [step] at h
      split_ifs at h
      obtain ⟨w, hw, rfl⟩ := Option.map_eq_some_iff.mp h
      exact Or.inr ⟨_, rfl, hw⟩

end Steps

/-! ### What is captured and passed on -/

/-- The frame that `onAudio` comes to write. -/
def inFlight (s : OrgAudio) : List Bytes := if s.audio.writing then [s.data] else []

/-- The frame that `onAudio` is done with: it finds `forwarding` not set, or
has come back from `write`. -/
def passes : OrgAudio × Action → List Bytes
  | (s, .observer) =>
    match s.calls with
    | .onAudio _ data :: _ => if s.audio.agent.forwarding then [] else [data]
    | .onWakeWord _ :: _ | [] => []
  | (s, .write _) => [s.data]
  | (_, .recorder _) | (_, .other _) => []

def passed (tr : List (OrgAudio × Action)) : List Bytes := tr.flatMap passes

/-- What the recorder has captured, without the calls that failed. -/
def captured (tr : List (OrgAudio × Action)) : List Bytes :=
  (Recording.calls (view recording recorderLabel tr)).frames

section Captured

variable {s u : OrgAudio} {a : Action} {tr : List (OrgAudio × Action)}

theorem passed_snoc : passed (tr ++ [(s, a)]) = passed tr ++ passes (s, a) := by
  rw [passed, List.flatMap_append, List.flatMap_singleton]
  rfl

/-- The recorder's task only adds to the calls of its observers. -/
theorem callbacks_prefix {v r : Recording Unit 640} {b : Recording.Action}
    (h : Recording.step v b = some r) : v.callbacks <+: r.callbacks := by
  have hdeliver : ∀ (w : Recording Unit 640) (ret detect : Int),
      w.callbacks <+: (w.deliver ret detect).callbacks := by
    intro w ret detect
    rw [Recording.deliver]
    split_ifs
    · exact List.prefix_rfl
    · exact List.prefix_rfl
    · exact ⟨_, (List.append_assoc _ _ _).symm⟩
    · exact ⟨_, (List.append_assoc _ _ _).symm⟩
  cases b with
  | readAudio =>
    obtain ⟨-, rfl⟩ := Recording.step_readAudio h
    exact List.prefix_rfl
  | readi r data detect =>
    obtain ⟨rd, buf, -, -, -, rfl⟩ := Recording.step_readi h
    cases rd.pass r with
    | loops rd => exact List.prefix_rfl
    | returns ret => exact hdeliver { v with dataBuf := buf, reading := none } ret detect

/-- Every frame that the observer has been called with, or will be, is done
with, about to be written or still to come. -/
def Conserved (tr : List (OrgAudio × Action)) (s : OrgAudio) : Prop :=
  passed tr ++ s.inFlight ++ Recording.framesOf () s.calls =
    Recording.framesOf () s.recording.callbacks

theorem conserved_snoc (hs : Conserved tr s) (h : step s a = some u) :
    Conserved (tr ++ [(s, a)]) u := by
  rw [Conserved, passed_snoc]
  rw [Conserved] at hs
  cases step_cases h with
  | @recorder b r hcalls hwriting hr =>
    obtain ⟨new, hnew⟩ := callbacks_prefix hr
    rw [hcalls, inFlight, hwriting] at hs
    simp only [inFlight, hwriting, passes, ← hnew, List.drop_left, Recording.framesOf_append]
    rw [← hs]
    simp [Recording.framesOf]
  | wakeWord hcalls hwriting halive hu =>
    rw [hcalls] at hs
    simp only [passes, hcalls, List.append_nil]
    exact hs
  | @onAudio o data calls hcalls hwriting halive =>
    rw [hcalls, inFlight, hwriting] at hs
    rw [← hs]
    cases hf : s.audio.agent.forwarding <;>
      simp [inFlight, passes, hcalls, hf, Recording.framesOf]
  | write hn hwriting halive =>
    rw [inFlight, if_pos hwriting] at hs
    rw [← hs]
    simp [inFlight, passes]
  | agent hwake halive hu | reader a ha halive =>
    rw [← hs]
    simp [inFlight, passes]

theorem conserved_run {dataBuf : Buffer 640} {reader : Bool}
    (h : Run step (start dataBuf reader) tr s) : Conserved tr s := by
  have hstart : Conserved [] (start dataBuf reader) := rfl
  exact h.history hstart fun _ _ _ _ ht hu => conserved_snoc ht hu

/-- **Every captured frame is passed on once**, in its order. -/
theorem passed_append {dataBuf : Buffer 640} {reader : Bool}
    (h : Run step (start dataBuf reader) tr s) :
    passed tr ++ s.inFlight ++ Recording.framesOf () s.calls = captured tr := by
  have hrun : Run Recording.step (.start dataBuf orgAudioObserver)
      (view recording recorderLabel tr) s.recording := simulates_recording.run trivial h
  rw [captured, ← (Recording.captured hrun).1.frames () List.mem_cons_self]
  exact conserved_run h

end Captured

/-! ### The openings of the FIFO -/

/-- The worker opens the FIFO. -/
def Opens (v : State) : MicAgent.Action → Prop
  | .runTask fd => v.executor.tasks.head? = some .startForward ∧ 0 ≤ fd
  | _ => False

instance (v : State) : DecidablePred (Opens v)
  | .runTask _ => inferInstanceAs (Decidable (_ ∧ _))
  | .event _ | .wakeWord | .network _ | .micMute | .restart | .waitStart => isFalse id

/-- The FIFO is opened for a wake word that a close has answered before. -/
def OpensBlind (s : OrgAudio) : Action → Prop
  | .other (.agent a) => Opens s.audio.agent a ∧ s.audio.agent.forwarding = false
  | _ => False

instance (s : OrgAudio) : DecidablePred s.OpensBlind
  | .other (.agent _) => inferInstanceAs (Decidable (_ ∧ _))
  | .recorder _ | .observer | .write _ | .other (.test _) | .other .write | .other .readerOpens
  | .other .readerExits => isFalse id

/-- What goes through the FIFO joins the latest stream. -/
def addChunk (chunk : Bytes) : List (List Bytes) → List (List Bytes)
  | [] => []
  | stream :: older => (stream ++ [chunk]) :: older

def streamsNext (streams : List (List Bytes)) : OrgAudio × Action → List (List Bytes)
  | (s, .write n) => if s.audio.Live then addChunk (s.data.take n) streams else streams
  | (s, .other (.agent a)) => if Opens s.audio.agent a then [] :: streams else streams
  | _ => streams

/-- What each opening of the FIFO has got, the latest first. -/
def streams (tr : List (OrgAudio × Action)) : List (List Bytes) := tr.foldl streamsNext []

/-- A stream brings the frames of a block, each of them or a first part of it. -/
def Carries (stream block : List Bytes) : Prop := List.Forall₂ (· <+: ·) stream block

section Streams

variable {s u : OrgAudio} {a : Action} {tr : List (OrgAudio × Action)} {chunk data : Bytes}
  {stream block : List Bytes}

theorem Carries.append (h : Carries stream block) (hchunk : chunk <+: data) :
    Carries (stream ++ [chunk]) (block ++ [data]) :=
  List.rel_append h (List.Forall₂.cons hchunk List.Forall₂.nil)

theorem streams_snoc : streams (tr ++ [(s, a)]) = streamsNext (streams tr) (s, a) := by
  rw [streams, List.foldl_append]
  rfl

/-- The latest stream grows, a new one is begun, or nothing happens. -/
theorem streamsNext_cases (h : step s a = some u) (streams : List (List Bytes)) :
    (∃ n, a = .write n ∧ s.audio.Live ∧
        streamsNext streams (s, a) = addChunk (s.data.take n) streams) ∨
      (∃ b, a = .other (.agent b) ∧ Opens s.audio.agent b ∧
        streamsNext streams (s, a) = [] :: streams) ∨
      ((∀ b, a = .other (.agent b) → ¬ Opens s.audio.agent b) ∧
        (∀ n, a = .write n → ¬ s.audio.Live) ∧ streamsNext streams (s, a) = streams) := by
  cases step_cases h with
  | @write n hn hwriting halive =>
    by_cases hlive : s.audio.Live
    · exact Or.inl ⟨n, rfl, hlive, if_pos hlive⟩
    · exact Or.inr (Or.inr ⟨by simp, fun _ _ => hlive, if_neg hlive⟩)
  | @agent b w hwake halive hu =>
    by_cases hopens : Opens s.audio.agent b
    · exact Or.inr (Or.inl ⟨b, rfl, hopens, if_pos hopens⟩)
    · refine Or.inr (Or.inr ⟨fun c hc => ?_, by simp, if_neg hopens⟩)
      obtain rfl : b = c := Audio.Action.agent.inj (Action.other.inj hc)
      exact hopens
  | recorder hcalls hwriting hr | wakeWord hcalls hwriting halive hu
  | onAudio hcalls hwriting halive => exact Or.inr (Or.inr ⟨by simp, by simp, rfl⟩)
  | reader b ha halive =>
    rcases ha with rfl | rfl
    · exact Or.inr (Or.inr ⟨by simp, by simp, rfl⟩)
    · exact Or.inr (Or.inr ⟨by simp, by simp, rfl⟩)

/-! ### At most once, and in order -/

/-- What has gone through the FIFO. -/
def written (tr : List (OrgAudio × Action)) : List Bytes := (streams tr).reverse.flatten

theorem written_addChunk (streams : List (List Bytes)) :
    (addChunk chunk streams).reverse.flatten = streams.reverse.flatten ∨
      (addChunk chunk streams).reverse.flatten = streams.reverse.flatten ++ [chunk] := by
  cases streams with
  | nil => exact Or.inl rfl
  | cons stream older => simp [addChunk]

/-- **No frame reaches the FIFO twice or out of order**: what has gone through
it are frames that were captured, each of them or a first part of it. -/
theorem fifo_sublist {dataBuf : Buffer 640} {reader : Bool}
    (h : Run step (start dataBuf reader) tr s) :
    ∃ kept, kept.Sublist (captured tr) ∧ Carries (written tr) kept := by
  have hpassed : ∃ kept, kept.Sublist (passed tr) ∧ Carries (written tr) kept := by
    refine h.history (I := fun tr _ => ∃ kept, kept.Sublist (passed tr) ∧
      Carries (written tr) kept) ⟨[], List.Sublist.refl _, List.Forall₂.nil⟩ ?_
    rintro tr s a u ⟨kept, hkept, hcarries⟩ hu
    rw [passed_snoc, written, streams_snoc]
    have hgrown : kept.Sublist (passed tr ++ passes (s, a)) :=
      hkept.trans (List.sublist_append_left _ _)
    rcases streamsNext_cases hu (streams tr) with ⟨n, rfl, -, hnext⟩ | ⟨b, -, -, hnext⟩ |
      ⟨-, -, hnext⟩
    · rw [hnext]
      rcases written_addChunk (streams tr) with hsame | hmore
      · rw [hsame]
        exact ⟨kept, hgrown, hcarries⟩
      · rw [hmore]
        exact ⟨kept ++ [s.data], hkept.append (List.Sublist.refl _),
          hcarries.append (List.take_prefix _ _)⟩
    · rw [hnext, List.reverse_cons, List.flatten_append, List.flatten_singleton, List.append_nil]
      exact ⟨kept, hgrown, hcarries⟩
    · rw [hnext]
      exact ⟨kept, hgrown, hcarries⟩
  obtain ⟨kept, hkept, hcarries⟩ := hpassed
  refine ⟨kept, hkept.trans ?_, hcarries⟩
  rw [← passed_append h, List.append_assoc]
  exact List.sublist_append_left _ _

/-- A frame of bytes `b` is captured. -/
def captures (b : UInt8) (detect : Int) : List Action :=
  [.recorder .readAudio, .recorder (.readi 320 (List.replicate 640 b) detect)]

/-- The app is ready and has a network. -/
def listening : List Action :=
  [.other (.agent (.network true)), .other (.agent (.event .dialogEnd))]

/-- The frame with the wake word is written behind the open, and half of the
next one. -/
def dialog : List Action :=
  listening ++ captures 1 1 ++ [.observer, .observer, .other (.agent (.runTask 5)), .write 640] ++
    captures 2 0 ++ [.observer, .write 320]

theorem fifo_sublist_in_dialog :
    ∃ tr s, Run step (start (Buffer.zeros 640) true) tr s ∧
      written tr = [List.replicate 640 1, List.replicate 320 2] ∧
      ∃ kept, kept.Sublist (captured tr) ∧ Carries (written tr) kept := by
  have hexec : (Run.exec step (start (Buffer.zeros 640) true) dialog).map (fun r => written r.1) =
      some [List.replicate 640 1, List.replicate 320 2] := by
    decide +kernel
  obtain ⟨r, hr, hwritten⟩ := Option.map_eq_some_iff.mp hexec
  exact ⟨r.1, r.2, Run.of_exec _ hr, hwritten, fifo_sublist (Run.of_exec _ hr)⟩

/-! ### Without a gap -/

/-- Only a task takes `forwarding` back. -/
theorem forwarding_stays {v w : State} {b : MicAgent.Action} (hb : ∀ fd, b ≠ .runTask fd)
    (h : MicAgent.step v b = some w) (hf : v.forwarding = true) : w.forwarding = true := by
  cases b with
  | event e =>
    cases e with
    | dialogEnd =>
      rw [MicAgent.step, handle_dialogEnd, stopCapture] at h
      split at h
      · rw [← Option.some.inj h]
        exact hf
      · obtain ⟨e, -, rfl⟩ := enqueue_cases h
        exact hf
    | stopped =>
      obtain ⟨e, -, rfl⟩ := enqueue_cases h
      exact hf
    | _ =>
      rw [← Option.some.inj h]
      exact hf
  | wakeWord =>
    rcases onWakeWord_cases h with rfl | ⟨-, ⟨-, -, h⟩ | ⟨-, h⟩⟩
    · exact hf
    · obtain ⟨e, -, rfl⟩ := enqueue_cases h
      exact hf
    · obtain ⟨e, -, rfl⟩ := enqueue_cases h
      rfl
  | runTask fd => exact absurd rfl (hb fd)
  | network ok =>
    rw [← Option.some.inj h, onNetworkStatusChanged]
    split
    · exact hf
    · exact hf
  | micMute | restart | waitStart =>
    rw [← Option.some.inj h]
    exact hf

/-- The worker opens the FIFO, or leaves `fdAudio` as it is, or without an open
descriptor. -/
theorem runTask_opens {v w : State} {fd : Int} (hvalid : FifosValid v)
    (h : runTask v fd = some w) :
    (Opens v (.runTask fd) ∧ w.forwarding = v.forwarding ∧ w.fdAudio ∈ w.fifos) ∨
      (¬ Opens v (.runTask fd) ∧ (w.fdAudio ∈ w.fifos →
        v.fdAudio ∈ v.fifos ∧ (v.forwarding = true → w.forwarding = true))) := by
  obtain ⟨t, e, hq, ht⟩ := runTask_cases h
  have hhead : v.executor.tasks.head? = some t := by rw [hq, List.head?_cons]
  have hother : t ≠ .startForward → ¬ Opens v (.runTask fd) := by
    rintro hne ⟨hstart, -⟩
    rw [hhead] at hstart
    exact hne (Option.some.inj hstart)
  cases t with
  | closeFifo =>
    refine Or.inr ⟨hother Task.noConfusion, fun hmem => ?_⟩
    obtain rfl : w = _ := ht
    rw [closeFifoTask] at hmem ⊢
    split_ifs at hmem ⊢ with hf
    · exact absurd (List.mem_of_mem_erase hmem) (neg_one_not_mem hvalid)
    · exact ⟨hmem, fun hforwarding => hforwarding⟩
  | startForward =>
    obtain ⟨-, -, -, -, ⟨hfd, -, hu, hfifos⟩ | ⟨hfd, -, hf, hu, hfifos⟩⟩ :=
      startForwardTask_cases ht
    · refine Or.inr ⟨?_, fun hmem => ?_⟩
      · rintro ⟨-, hpos⟩
        omega
      · rw [hu, hfifos] at hmem
        exact absurd hmem (neg_one_not_mem hvalid)
    · refine Or.inl ⟨⟨hhead, hfd⟩, hf, ?_⟩
      rw [hu, hfifos]
      exact List.mem_cons_self
  | restartDialog =>
    obtain rfl : w = _ := ht
    exact Or.inr ⟨hother Task.noConfusion, fun hmem => ⟨hmem, fun hforwarding => hforwarding⟩⟩

theorem agent_opens {v w : State} {b : MicAgent.Action} (hvalid : FifosValid v)
    (h : MicAgent.step v b = some w) :
    (Opens v b ∧ w.forwarding = v.forwarding ∧ w.fdAudio ∈ w.fifos) ∨
      (¬ Opens v b ∧ (w.fdAudio ∈ w.fifos →
        v.fdAudio ∈ v.fifos ∧ (v.forwarding = true → w.forwarding = true))) := by
  by_cases htask : ∃ fd, b = .runTask fd
  · obtain ⟨fd, rfl⟩ := htask
    exact runTask_opens hvalid h
  · have hb : ∀ fd, b ≠ .runTask fd := fun fd hfd => htask ⟨fd, hfd⟩
    refine Or.inr ⟨?_, fun hmem => ⟨?_, forwarding_stays hb h⟩⟩
    · cases b with
      | runTask fd => exact absurd rfl (hb fd)
      | event _ | wakeWord | network _ | micMute | restart | waitStart => exact id
    · rwa [(step_frame h).fdAudio hb, (step_frame h).fifos hb] at hmem

/-- Each stream is a block of the frames passed on, and the one that is open
reaches up to the last of them. -/
structure Feed (tr : List (OrgAudio × Action)) (s : OrgAudio) : Prop where
  valid : FifosValid s.audio.agent
  blocks : ∀ stream ∈ streams tr, ∃ block, block <:+: passed tr ∧ Carries stream block
  latest : s.audio.killed = false → s.audio.agent.fdAudio ∈ s.audio.agent.fifos →
    s.audio.agent.forwarding = true ∧ ∃ stream older block, streams tr = stream :: older ∧
      block <:+ passed tr ∧ Carries stream block

/-- A step with which no frame is passed on and no stream grows. -/
theorem Feed.of_quiet (hfeed : Feed tr s) (hstreams : streams (tr ++ [(s, a)]) = streams tr)
    (hpasses : passes (s, a) = []) (hvalid : FifosValid u.audio.agent)
    (hlatest : u.audio.killed = false → u.audio.agent.fdAudio ∈ u.audio.agent.fifos →
      s.audio.killed = false ∧ s.audio.agent.fdAudio ∈ s.audio.agent.fifos ∧
        (s.audio.agent.forwarding = true → u.audio.agent.forwarding = true)) :
    Feed (tr ++ [(s, a)]) u := by
  have hpassed : passed (tr ++ [(s, a)]) = passed tr := by
    rw [passed_snoc, hpasses, List.append_nil]
  refine ⟨hvalid, ?_, fun halive hmem => ?_⟩
  · rw [hstreams, hpassed]
    exact hfeed.blocks
  · obtain ⟨halive', hmem', hstays⟩ := hlatest halive hmem
    obtain ⟨hf, hstream⟩ := hfeed.latest halive' hmem'
    rw [hstreams, hpassed]
    exact ⟨hstays hf, hstream⟩

theorem feed_snoc (hfeed : Feed tr s) (hsighted : ¬ s.OpensBlind a) (h : step s a = some u) :
    Feed (tr ++ [(s, a)]) u := by
  -- blocks stay blocks when another frame is passed on
  have hgrown : ∀ stream ∈ streams tr, ∃ block,
      block <:+: passed (tr ++ [(s, a)]) ∧ Carries stream block := by
    intro stream hstream
    obtain ⟨block, hblock, hcarries⟩ := hfeed.blocks stream hstream
    rw [passed_snoc]
    exact ⟨block, hblock.trans (List.prefix_append _ _).isInfix, hcarries⟩
  cases step_cases h with
  | recorder hcalls hwriting hr =>
    exact hfeed.of_quiet streams_snoc rfl hfeed.valid
      fun halive hmem => ⟨halive, hmem, fun hf => hf⟩
  | wakeWord hcalls hwriting halive hu =>
    have hb : ∀ fd, MicAgent.Action.wakeWord ≠ .runTask fd := fun _ => MicAgent.Action.noConfusion
    refine hfeed.of_quiet streams_snoc ?_ (fifosValid_step hfeed.valid hu)
      fun _ hmem => ⟨halive, ?_, forwarding_stays hb hu⟩
    · rw [passes, hcalls]
    · rwa [(step_frame hu).fdAudio hb, (step_frame hu).fifos hb] at hmem
  | @onAudio o data calls hcalls hwriting halive =>
    refine ⟨hfeed.valid, ?_, fun _ hmem => ?_⟩
    · rw [streams_snoc]
      exact hgrown
    · obtain ⟨hf, hstream⟩ := hfeed.latest halive hmem
      have hpasses : passes (s, .observer) = [] := by
        rw [passes, hcalls]
        exact if_pos hf
      rw [streams_snoc, passed_snoc, hpasses, List.append_nil]
      exact ⟨hf, hstream⟩
  | @write n hn hwriting halive =>
    by_cases hlive : s.audio.Live
    swap
    · have hstreams : streams (tr ++ [(s, .write n)]) = streams tr := by
        rw [streams_snoc]
        exact if_neg hlive
      refine ⟨hfeed.valid, ?_, fun hkilled hmem => ?_⟩
      · rw [hstreams]
        exact hgrown
      · -- the signal has killed the process
        have hbreaks : ¬ s.audio.Breaks := of_decide_eq_false hkilled
        refine absurd ⟨hmem, ?_, by decide⟩ hbreaks
        by_contra hreader
        exact hlive ⟨hmem, Or.inl (Bool.not_eq_false _ ▸ hreader)⟩
    obtain ⟨hf, stream, older, block, hstream, hblock, hcarries⟩ := hfeed.latest halive hlive.1
    have hstreams : streams (tr ++ [(s, .write n)]) =
        (stream ++ [s.data.take n]) :: older := by
      rw [streams_snoc, ← addChunk, ← hstream]
      exact if_pos hlive
    have hpassed : passed (tr ++ [(s, .write n)]) = passed tr ++ [s.data] := passed_snoc
    have hblock' : block ++ [s.data] <:+ passed tr ++ [s.data] :=
      List.suffix_append_self_iff.mpr hblock
    have hcarries' : Carries (stream ++ [s.data.take n]) (block ++ [s.data]) :=
      hcarries.append (List.take_prefix _ _)
    refine ⟨hfeed.valid, fun stream' hmem => ?_, fun _ _ => ⟨hf, ?_⟩⟩
    · rw [hstreams] at hmem
      rcases List.mem_cons.mp hmem with rfl | hmem
      · rw [hpassed]
        exact ⟨_, hblock'.isInfix, hcarries'⟩
      · exact hgrown stream' (hstream ▸ List.mem_cons_of_mem _ hmem)
    · rw [hpassed]
      exact ⟨_, older, _, hstreams, hblock', hcarries'⟩
  | @agent b v hwake halive hu =>
    have hvalid := fifosValid_step hfeed.valid hu
    rcases agent_opens hfeed.valid hu with ⟨hopens, hf, hmem⟩ | ⟨hopens, hkeeps⟩
    · have hstreams : streams (tr ++ [(s, .other (.agent b))]) = [] :: streams tr := by
        rw [streams_snoc]
        exact if_pos hopens
      refine ⟨hvalid, fun stream hstream => ?_, fun _ _ => ⟨?_, ?_⟩⟩
      · rw [hstreams] at hstream
        rcases List.mem_cons.mp hstream with rfl | hstream
        · exact ⟨[], List.nil_infix, List.Forall₂.nil⟩
        · exact hgrown stream hstream
      · -- it is not opened blindly
        rw [hf]
        by_contra hforwarding
        exact hsighted ⟨hopens, Bool.eq_false_iff.mpr hforwarding⟩
      · exact ⟨[], _, [], hstreams, List.nil_suffix, List.Forall₂.nil⟩
    · have hstreams : streams (tr ++ [(s, .other (.agent b))]) = streams tr := by
        rw [streams_snoc]
        exact if_neg hopens
      exact hfeed.of_quiet hstreams rfl hvalid
        fun _ hmem => ⟨halive, hkeeps hmem⟩
  | @reader b r hb halive =>
    refine hfeed.of_quiet ?_ rfl hfeed.valid fun _ hmem => ⟨halive, hmem, fun hf => hf⟩
    rw [streams_snoc]
    rcases hb with rfl | rfl
    · rfl
    · rfl

/-- **Each opening of the FIFO gets frames without a gap**, when none of them is
blind: what has gone through it is a block of what was captured, and the block
of the one that is open reaches up to the last frame passed on. -/
theorem fifo_blocks {dataBuf : Buffer 640} {reader : Bool}
    (h : Run step (start dataBuf reader) tr s) (hsighted : ∀ p ∈ tr, ¬ p.1.OpensBlind p.2) :
    (∀ stream ∈ streams tr, ∃ block, block <:+: captured tr ∧ Carries stream block) ∧
      (s.audio.Live → s.audio.killed = false → ∃ stream older block,
        streams tr = stream :: older ∧ block <:+ passed tr ∧ Carries stream block) := by
  have hstart : Feed [] (start dataBuf reader) := by
    refine ⟨fun fd hmem => ?_, fun stream hstream => ?_, fun _ hmem => ?_⟩
    · cases hmem
    · cases hstream
    · cases hmem
  have hfeed : Feed tr s := h.history_of (C := fun s a => ¬ s.OpensBlind a) hstart
    (fun _ _ _ _ ht ha hu => feed_snoc ht ha hu) hsighted
  refine ⟨fun stream hstream => ?_, fun hlive halive => (hfeed.latest halive hlive.1).2⟩
  obtain ⟨block, hblock, hcarries⟩ := hfeed.blocks stream hstream
  refine ⟨block, hblock.trans ?_, hcarries⟩
  rw [← passed_append h, List.append_assoc]
  exact (List.prefix_append _ _).isInfix

theorem fifo_blocks_in_dialog :
    ∃ tr s, Run step (start (Buffer.zeros 640) true) tr s ∧
      streams tr = [[List.replicate 640 1, List.replicate 320 2]] ∧
      ∀ stream ∈ streams tr, ∃ block, block <:+: captured tr ∧ Carries stream block := by
  have hexec : (Run.exec step (start (Buffer.zeros 640) true) dialog).map (fun r =>
      (streams r.1, r.1.all fun p => decide (¬ p.1.OpensBlind p.2))) =
      some ([[List.replicate 640 1, List.replicate 320 2]], true) := by
    decide +kernel
  obtain ⟨r, hr, hobs⟩ := Option.map_eq_some_iff.mp hexec
  obtain ⟨hstreams, hsighted⟩ := Prod.mk.inj hobs
  refine ⟨r.1, r.2, Run.of_exec _ hr, hstreams, (fifo_blocks (Run.of_exec _ hr) fun p hp => ?_).1⟩
  exact of_decide_eq_true (List.all_eq_true.mp hsighted p hp)

/-- **A hole behind a blind open**: a close is queued when the wake word is
heard.  The frame that is on its way goes through the FIFO that is opened behind
the close, the next one does not, and from the next wake word on they do
again. -/
theorem hole_behind_blind_open :
    ∃ tr s, Run step (start (Buffer.zeros 640) true) tr s ∧
      streams tr = [[List.replicate 640 1, List.replicate 640 3]] ∧
      captured tr = [List.replicate 640 1, List.replicate 640 2, List.replicate 640 3] := by
  have hexec : (Run.exec step (start (Buffer.zeros 640) true)
      (listening ++ [.other (.agent (.event .stopped))] ++ captures 1 1 ++
        [.observer, .observer, .other (.agent (.runTask 5)), .other (.agent (.runTask 5)),
          .write 640] ++ captures 2 0 ++ [.observer] ++ captures 3 1 ++
        [.observer, .observer, .write 640])).map (fun r => (streams r.1, captured r.1)) =
      some ([[List.replicate 640 1, List.replicate 640 3]],
        [List.replicate 640 1, List.replicate 640 2, List.replicate 640 3]) := by
    decide +kernel
  obtain ⟨r, hr, hobs⟩ := Option.map_eq_some_iff.mp hexec
  obtain ⟨hstreams, hcaptured⟩ := Prod.mk.inj hobs
  exact ⟨r.1, r.2, Run.of_exec _ hr, hstreams, hcaptured⟩

end Streams

end OrgAudio

end MicAgent
