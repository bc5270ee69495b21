/-
The receiver loops: what a process does with the datagrams it takes.

`Bus` is the state a receiver worker reads and changes: the handler table, the
table of receivers, and whether the worker is still in its loop; `calls` and
`sends` record every handler call and every relay.  `Bus.step` is one
iteration of either worker, with any effect of a handler on the receivers and
any results of `sendto`.  A relay that copies an address of more than 106 bytes
overruns the stack of the umbrella's worker; `Bus` counts the worker out of its
loop from there on.

* `Bus.relay` — **the umbrella relays what it does not handle, byte by byte**;
* `Bus.undisturbed_iff` — **which datagrams leave the loop undisturbed**.
-/
import IflyosSDK.Registration
import IflyosSDK.Runs

structure Bus (H : Type*) where
  handlers : Handlers H
  receivers : Receivers
  inLoop : Bool
  calls : List (H × CString × CString)
  sends : List Sent

/-- A datagram that arrives, and what `sendto` returns while it is processed. -/
structure Delivery where
  datagram : Bytes
  sendto : Datagram → SendResult

namespace Bus

variable {H : Type*}

/-- The worker has started, with these handlers and no receivers. -/
def new (handlers : Handlers H) : Bus H := ⟨handlers, SetTable.empty, true, [], []⟩

/-- An event has been sent to its receivers.  When a copy has left its `sun_path`
the stack of the worker is overwritten, and its loop is over. -/
def sentEvent (b : Bus H) (sent : Sent) : Bus H :=
  { b with sends := b.sends ++ [sent], inLoop := sent.overrun.isNone && b.inLoop }

/-- What the loop does with its datagram.  `onCall` is what a handler does to
the receivers. -/
def receive (onCall : H → CString → CString → Receivers → Receivers)
    (sendto : Datagram → SendResult) (b : Bus H) : Received H → Bus H
  | .failed => { b with inLoop := false }
  | .noSpace => b
  | .noHandler _ _ => b
  | .invoke handler evt msg =>
    { b with
      receivers := onCall handler evt msg b.receivers
      calls := b.calls ++ [(handler, evt, msg)] }
  | .relayEvent evt msg => b.sentEvent (interfaceUmbrellaSendEvent b.receivers sendto evt msg)
  | .relayAction evt msg =>
    { b with sends := b.sends ++ [interfaceUmbrellaSendAction sendto evt msg] }

/-- One iteration of the loop. -/
def step (worker : Worker) (onCall : H → CString → CString → Receivers → Receivers) (b : Bus H)
    (v : Delivery) : Option (Bus H) :=
  if b.inLoop then some (b.receive onCall v.sendto (worker.receive b.handlers (some v.datagram)))
  else none

/-! ### Handler tables -/

section Handlers

/-- `IFLYOS_InterfaceRegisterHandler`; a null handler is erased. -/
def interfaceRegisterHandler (handlers : Handlers H) (handler : Option H) (evt : CString) :
    Handlers H :=
  Function.update handlers evt handler

/-- The table after the registrations of a list, in its order. -/
def handlersOf (regs : List (CString × H)) : Handlers H :=
  regs.foldl (fun handlers reg => interfaceRegisterHandler handlers (some reg.2) reg.1)
    fun _ => none

variable {regs : List (CString × H)} {evt : CString} {handler : H}

theorem handlersOf_append_singleton (reg : CString × H) :
    handlersOf (regs ++ [reg]) =
      interfaceRegisterHandler (handlersOf regs) (some reg.2) reg.1 := by
  rw [handlersOf, List.foldl_append, List.foldl_cons, List.foldl_nil, handlersOf]

theorem handlersOf_eq_none_iff : handlersOf regs evt = none ↔ ∀ handler, (evt, handler) ∉ regs := by
  induction regs using List.reverseRecOn with
  | nil => simp [handlersOf]
  | append_singleton regs reg ih =>
    obtain ⟨evt', handler'⟩ := reg
    rw [handlersOf_append_singleton, interfaceRegisterHandler]
    by_cases h : evt = evt'
    · subst h
      rw [Function.update_self]
      exact iff_of_false (by simp) fun hnot => hnot handler' (by simp)
    · rw [Function.update_of_ne h, ih]
      simp [h]

theorem mem_of_handlersOf (h : handlersOf regs evt = some handler) : (evt, handler) ∈ regs := by
  induction regs using List.reverseRecOn with
  | nil => cases h
  | append_singleton regs reg ih =>
    obtain ⟨evt', handler'⟩ := reg
    rw [handlersOf_append_singleton, interfaceRegisterHandler] at h
    by_cases heq : evt = evt'
    · subst heq
      rw [Function.update_self, Option.some.injEq] at h
      subst h
      simp
    · rw [Function.update_of_ne heq] at h
      exact List.mem_append_left _ (ih h)

end Handlers

/-! ### One iteration -/

section Step

variable {worker : Worker} {onCall : H → CString → CString → Receivers → Receivers}
  {b u : Bus H} {v : Delivery} {evt msg : CString}

theorem inLoop_of_step (h : step worker onCall b v = some u) : b.inLoop = true := by
  rw [step] at h
  split at h
  · assumption
  · cases h

theorem receive_of_step (h : step worker onCall b v = some u) :
    u = b.receive onCall v.sendto (worker.receive b.handlers (some v.datagram)) := by
  rw [step, if_pos (inLoop_of_step h), Option.some.injEq] at h
  exact h.symm

theorem step_of_inLoop (hb : b.inLoop = true) : ∃ u, step worker onCall b v = some u := by
  rw [step, if_pos hb]
  exact ⟨_, rfl⟩

theorem handlers_step (h : step worker onCall b v = some u) : u.handlers = b.handlers := by
  rw [receive_of_step h]
  cases worker.receive b.handlers (some v.datagram) <;> rfl

theorem recvfrom_length_le_iff {d : Bytes} : (recvfrom d).length ≤ 0 ↔ d = [] := by
  rw [recvfrom, List.length_take, bufSize, ← List.length_eq_zero_iff]
  omega

/-- An empty datagram is taken for a failed read. -/
theorem receive_nil (handlers : Handlers H) : worker.receive handlers (some []) = .failed := by
  have hlen : (recvfrom []).length ≤ 0 := recvfrom_length_le_iff.mpr rfl
  cases worker with
  | interface => rw [Worker.receive, interfaceReceiverWorker, if_pos hlen]
  | umbrella => rw [Worker.receive, interfaceUmbrellaReceiverWorker, if_pos hlen]

theorem receive_of_noSpace {handlers : Handlers H} {d : Bytes} (hne : d ≠ [])
    (hread : readMessage (recvfrom d) = none) : worker.receive handlers (some d) = .noSpace := by
  have hlen : ¬ (recvfrom d).length ≤ 0 := fun hle => hne (recvfrom_length_le_iff.mp hle)
  cases worker with
  | interface => rw [Worker.receive, interfaceReceiverWorker, if_neg hlen, hread]
  | umbrella => rw [Worker.receive, interfaceUmbrellaReceiverWorker, if_neg hlen, hread]

/-- What holds a message is not empty. -/
theorem not_length_le_of_readMessage {bytes : Bytes} (hread : readMessage bytes = some (evt, msg)) :
    ¬ bytes.length ≤ 0 := by
  intro hlen
  rw [List.length_eq_zero_iff.mp (Nat.le_zero.mp hlen)] at hread
  cases hread

/-- A message for an installed handler is dispatched to it. -/
theorem receive_eq_invoke {handlers : Handlers H} {d : Bytes} {handler : H}
    (hread : readMessage (recvfrom d) = some (evt, msg)) (hh : handlers evt = some handler) :
    worker.receive handlers (some d) = .invoke handler evt msg := by
  have hlen := not_length_le_of_readMessage hread
  cases worker with
  | interface =>
    rw [Worker.receive, interfaceReceiverWorker, if_neg hlen, hread]
    simp only [hh]
  | umbrella =>
    rw [Worker.receive, interfaceUmbrellaReceiverWorker, if_neg hlen, hread]
    simp only [hh]

/-- A message without a handler is dropped or relayed. -/
theorem receive_of_noHandler {handlers : Handlers H} {d : Bytes}
    (hread : readMessage (recvfrom d) = some (evt, msg)) (hh : handlers evt = none) :
    worker.receive handlers (some d) = .noHandler evt msg ∨
      worker.receive handlers (some d) = .relayEvent evt msg ∨
        worker.receive handlers (some d) = .relayAction evt msg := by
  have hlen := not_length_le_of_readMessage hread
  cases worker with
  | interface =>
    refine Or.inl ?_
    rw [Worker.receive, interfaceReceiverWorker, if_neg hlen, hread]
    simp only [hh]
  | umbrella =>
    refine Or.inr ?_
    rw [Worker.receive, interfaceUmbrellaReceiverWorker, if_neg hlen, hread]
    simp only [hh]
    split
    · exact Or.inl rfl
    · exact Or.inr rfl

/-- No other datagram is taken for one: it is skipped, dispatched, dropped or
relayed. -/
theorem receive_eq_failed_iff {handlers : Handlers H} {d : Bytes} :
    worker.receive handlers (some d) = .failed ↔ d = [] := by
  constructor
  · intro h
    by_contra hne
    cases hread : readMessage (recvfrom d) with
    | none =>
      rw [receive_of_noSpace hne hread] at h
      cases h
    | some m =>
      obtain ⟨evt, msg⟩ := m
      cases hh : handlers evt with
      | none =>
        rcases receive_of_noHandler hread hh with heq | heq | heq
        all_goals
          rw [heq] at h
          cases h
      | some handler =>
        rw [receive_eq_invoke hread hh] at h
        cases h
  · rintro rfl
    exact receive_nil handlers

/-- The umbrella relays the datagram as an event. -/
structure RelaysEvent (handlers : Handlers H) (d : Bytes) (evt msg : CString) : Prop where
  read : readMessage (recvfrom d) = some (evt, msg)
  noHandler : handlers evt = none
  event : (recvfrom d)[0]? = some 'E'.toUInt8

theorem receive_eq_relayEvent_iff {handlers : Handlers H} {d : Bytes} :
    worker.receive handlers (some d) = .relayEvent evt msg ↔
      worker = .umbrella ∧ RelaysEvent handlers d evt msg := by
  constructor
  · intro h
    cases worker with
    | interface =>
      rw [Worker.receive, interfaceReceiverWorker] at h
      split_ifs at h
      split at h
      · cases h
      · split at h <;> cases h
    | umbrella =>
      rw [Worker.receive, interfaceUmbrellaReceiverWorker] at h
      split_ifs at h with hnil hE
      all_goals
        split at h
        · cases h
        · rename_i hread
          split at h
          · rename_i hh
            cases h
            all_goals exact ⟨rfl, hread, hh, hE⟩
          · cases h
  · rintro ⟨rfl, hread, hh, hE⟩
    rw [Worker.receive, interfaceUmbrellaReceiverWorker,
      if_neg (not_length_le_of_readMessage hread), hread]
    simp only [hh, if_pos hE]

/-- A datagram that does not end the loop: it is not empty, and the umbrella does
not relay it as an event to an address that does not fit a `sun_path`. -/
structure Harmless (worker : Worker) (b : Bus H) (d : Bytes) : Prop where
  ne : d ≠ []
  fits : worker = .umbrella → ∀ evt msg, RelaysEvent b.handlers d evt msg →
    ∀ a ∈ SetTable.members b.receivers evt, a.length ≤ 106

/-- What a worker has read fits a datagram. -/
theorem length_of_readMessage {d : Bytes} (h : readMessage (recvfrom d) = some (evt, msg)) :
    space ∉ evt.bytes ∧ (message evt msg).length ≤ 4095 := by
  rw [readMessage, CString.splitAt_eq_some_iff] at h
  obtain ⟨hbytes, hevt⟩ := h
  have hlen : (text (recvfrom d ++ [0])).length ≤ 4095 := by
    have hrd : (recvfrom d).length ≤ 4095 := by
      rw [recvfrom, List.length_take, bufSize]
      omega
    have hnul : (0 : UInt8) ∉ text (recvfrom d ++ [0]) := nul_not_mem_text _
    by_contra hlong
    have hprefix := text_prefix_self (recvfrom d ++ [0])
    have hle := hprefix.length_le
    rw [List.length_append, List.length_singleton] at hle
    have hall : text (recvfrom d ++ [0]) = recvfrom d ++ [0] :=
      hprefix.eq_of_length (by rw [List.length_append, List.length_singleton]; omega)
    rw [hall] at hnul
    exact hnul (by simp)
  refine ⟨hevt, ?_⟩
  rw [message, ← hbytes]
  exact hlen

/-- So it passes the length check of the relay. -/
theorem not_tooLong_of_readMessage {d : Bytes}
    (h : readMessage (recvfrom d) = some (evt, msg)) : ¬ tooLong evt msg := by
  have hlen := (length_of_readMessage h).2
  rw [length_message] at hlen
  rw [tooLong]
  omega

/-- Some copy leaves its `sun_path` when some address is too long. -/
theorem overrun_eq_none_iff {receivers : Receivers} {sendto : Datagram → SendResult}
    (hfits : ¬ tooLong evt msg) :
    (interfaceUmbrellaSendEvent receivers sendto evt msg).overrun = none ↔
      ∀ a ∈ SetTable.members receivers evt, a.length ≤ 106 := by
  rw [interfaceUmbrellaSendEvent]
  cases hr : receivers evt with
  | none => simp [SetTable.members, hr]
  | some addresses =>
    rw [SetTable.members_of_eq_some hr]
    simp only [if_neg hfits, List.find?_eq_none, Finset.mem_sort]
    refine forall₂_congr fun a _ => ?_
    rw [← isSome_sunPath_iff]
    cases sunPath a <;> simp

/-- The loop goes on behind what is harmless, and behind nothing else. -/
theorem inLoop_step_iff (h : step worker onCall b v = some u) :
    u.inLoop = true ↔ Harmless worker b v.datagram := by
  have hb := inLoop_of_step h
  rw [receive_of_step h]
  cases hr : worker.receive b.handlers (some v.datagram) with
  | failed =>
    refine iff_of_false (by simp [receive]) fun hharmless => ?_
    exact hharmless.ne (receive_eq_failed_iff.mp hr)
  | relayEvent evt msg =>
    obtain ⟨rfl, hrelays⟩ := receive_eq_relayEvent_iff.mp hr
    have hne : v.datagram ≠ [] := by
      intro hnil
      rw [hnil, receive_nil] at hr
      cases hr
    have hover : (interfaceUmbrellaSendEvent b.receivers v.sendto evt msg).overrun = none ↔
        ∀ a ∈ SetTable.members b.receivers evt, a.length ≤ 106 :=
      overrun_eq_none_iff (not_tooLong_of_readMessage hrelays.read)
    rw [receive, sentEvent]
    simp only [hb, Bool.and_true, Option.isNone_iff_eq_none]
    rw [hover]
    constructor
    · intro hfits
      refine ⟨hne, fun _ evt' msg' hrelays' => ?_⟩
      have hsame := hrelays'.read
      rw [hrelays.read, Option.some.injEq, Prod.mk.injEq] at hsame
      exact hsame.1 ▸ hfits
    · exact fun hharmless => hharmless.fits rfl evt msg hrelays
  | noSpace | noHandler _ _ | invoke _ _ _ | relayAction _ _ =>
    refine iff_of_true hb ⟨fun hnil => ?_, fun humbrella evt msg hrelays => ?_⟩
    · rw [hnil, receive_nil] at hr
      cases hr
    · rw [receive_eq_relayEvent_iff.mpr ⟨humbrella, hrelays⟩] at hr
      cases hr

/-- What is dispatched has been read, and has a handler. -/
theorem of_receive_eq_invoke {handlers : Handlers H} {d : Bytes} {handler : H}
    (h : worker.receive handlers (some d) = .invoke handler evt msg) :
    readMessage (recvfrom d) = some (evt, msg) ∧ handlers evt = some handler := by
  have hread : readMessage (recvfrom d) = some (evt, msg) := by
    cases worker with
    | interface =>
      rw [← pair_interfaceReceiverWorker handlers]
      exact congrArg Received.pair h
    | umbrella =>
      rw [← pair_interfaceUmbrellaReceiverWorker handlers]
      exact congrArg Received.pair h
  refine ⟨hread, ?_⟩
  cases hh : handlers evt with
  | none =>
    rcases receive_of_noHandler hread hh with heq | heq | heq
    all_goals
      rw [heq] at h
      cases h
  | some handler' =>
    rw [receive_eq_invoke hread hh] at h
    cases h
    rfl

theorem step_of_handler {handler : H} (h : step worker onCall b v = some u)
    (hread : readMessage (recvfrom v.datagram) = some (evt, msg))
    (hh : b.handlers evt = some handler) :
    u.calls = b.calls ++ [(handler, evt, msg)] ∧ u.sends = b.sends := by
  rw [receive_of_step h, receive_eq_invoke hread hh]
  exact ⟨rfl, rfl⟩

/-- Without a handler nothing is called, by either worker. -/
theorem calls_of_noHandler (h : step worker onCall b v = some u)
    (hread : readMessage (recvfrom v.datagram) = some (evt, msg))
    (hh : b.handlers evt = none) : u.calls = b.calls := by
  rw [receive_of_step h]
  rcases receive_of_noHandler hread hh with heq | heq | heq
  all_goals
    rw [heq]
    rfl

end Step

/-! ### The relay -/

section Relay

variable {onCall : H → CString → CString → Receivers → Receivers} {b u : Bus H} {v : Delivery}

/-- The datagrams carry these bytes, one to each of the addresses. -/
structure SentTo (ds : List Datagram) (addresses : Finset CString) (bytes : Bytes) : Prop where
  payload : ∀ d ∈ ds, d.payload = bytes
  once : (ds.map Datagram.dest).Nodup
  dest : ∀ a, a ∈ ds.map Datagram.dest ↔ a ∈ addresses

/-- One of the datagrams goes to each address, and no second one. -/
theorem SentTo.filter_eq {ds : List Datagram} {addresses : Finset CString} {bytes : Bytes}
    (h : SentTo ds addresses bytes) {a : CString} (ha : a ∈ addresses) :
    ds.filter (fun d => d.dest = a) = [⟨a, bytes⟩] := by
  obtain ⟨d, hd, rfl⟩ := List.mem_map.mp ((h.dest a).mpr ha)
  obtain ⟨ds₁, ds₂, rfl⟩ := List.append_of_mem hd
  have honce := h.once
  rw [List.map_append, List.map_cons, List.nodup_append, List.nodup_cons] at honce
  obtain ⟨-, ⟨hnot₂, -⟩, hdisj⟩ := honce
  have h₁ : ds₁.filter (fun d' => d'.dest = d.dest) = [] := by
    rw [List.filter_eq_nil_iff]
    intro d' hd' heq
    exact hdisj _ (List.mem_map_of_mem hd') _ List.mem_cons_self (by simpa using heq)
  have h₂ : ds₂.filter (fun d' => d'.dest = d.dest) = [] := by
    rw [List.filter_eq_nil_iff]
    intro d' hd' heq
    exact hnot₂ (List.mem_map.mpr ⟨d', hd', by simpa using heq⟩)
  rw [List.filter_append, h₁, List.filter_cons_of_pos (by simp), h₂, List.nil_append,
    ← h.payload d hd]

theorem sentTo_umbrellaSendEvent {receivers : Receivers} {sendto : Datagram → SendResult}
    {evt msg : CString} (hfits : ¬ tooLong evt msg)
    (hshort : ∀ a ∈ SetTable.members receivers evt, a.length ≤ 106) :
    SentTo (interfaceUmbrellaSendEvent receivers sendto evt msg).datagrams
      (SetTable.members receivers evt) (message evt msg) := by
  rw [interfaceUmbrellaSendEvent]
  cases hr : receivers evt with
  | none =>
    have hmem : SetTable.members receivers evt = ∅ := by
      rw [SetTable.members, hr, Option.getD_none]
    rw [hmem]
    exact ⟨by simp, by simp, by simp⟩
  | some addresses =>
    rw [SetTable.members_of_eq_some hr] at hshort ⊢
    have hall : (addresses.sort.takeWhile fun address => (sunPath address).isSome) =
        addresses.sort :=
      List.takeWhile_eq_self_iff.mpr fun a ha =>
        isSome_sunPath_iff.mpr (hshort a ((Finset.mem_sort _).mp ha))
    simp only [if_neg hfits, hall]
    have hdest : (addresses.sort.map fun address =>
        (⟨address, message evt msg⟩ : Datagram)).map Datagram.dest = addresses.sort := by
      rw [List.map_map]
      exact List.map_id _
    refine ⟨fun d hd => ?_, ?_, fun a => ?_⟩
    · obtain ⟨a, -, rfl⟩ := List.mem_map.mp hd
      rfl
    · rw [hdest]
      exact Finset.sort_nodup _ _
    · rw [hdest]
      exact Finset.mem_sort _

theorem code_umbrellaSendEvent {receivers : Receivers} {sendto : Datagram → SendResult}
    {evt msg : CString} (hfits : ¬ tooLong evt msg) :
    (interfaceUmbrellaSendEvent receivers sendto evt msg).code = 0 ↔
      (receivers evt).isSome ∧
        ∀ d ∈ (interfaceUmbrellaSendEvent receivers sendto evt msg).datagrams,
          0 < (sendto d).wr := by
  rw [interfaceUmbrellaSendEvent]
  cases hr : receivers evt with
  | none => simp
  | some addresses =>
    simp only [if_neg hfits, Option.isSome_some, true_and]
    simp

theorem sendAction_datagrams {sendto : Datagram → SendResult} {evt msg : CString}
    (hfits : ¬ tooLong evt msg) :
    (interfaceUmbrellaSendAction sendto evt msg).datagrams = [⟨osAddr, message evt msg⟩] := by
  rw [interfaceUmbrellaSendAction, sendTo, if_neg hfits]

/-- The name alone decides whether a datagram starts with `E`. -/
theorem head_message (evt msg : CString) :
    (message evt msg)[0]? = some 'E'.toUInt8 ↔ evt.bytes[0]? = some 'E'.toUInt8 := by
  rw [message]
  cases evt.bytes with
  | nil =>
    show some space = some 'E'.toUInt8 ↔ none = some 'E'.toUInt8
    decide
  | cons x xs => rfl

/-- What the umbrella does with a message that fits its buffer. -/
theorem receive_umbrella_message (handlers : Handlers H) {evt msg : CString}
    (hevt : space ∉ evt.bytes) (hlen : (message evt msg).length ≤ 4095) :
    Worker.umbrella.receive handlers (some (message evt msg)) =
      match handlers evt with
      | some handler => .invoke handler evt msg
      | none =>
        if evt.bytes[0]? = some 'E'.toUInt8 then .relayEvent evt msg
        else .relayAction evt msg := by
  have hrecv : recvfrom (message evt msg) = message evt msg := by
    rw [recvfrom, bufSize]
    exact List.take_of_length_le hlen
  have hread : readMessage (message evt msg) = some (evt, msg) :=
    (readMessage_eq_some_iff (message_noNul evt msg)).mpr ⟨rfl, hevt⟩
  rw [Worker.receive, interfaceUmbrellaReceiverWorker]
  simp only [hrecv, if_neg (not_length_le_of_readMessage hread), hread, head_message]
  cases handlers evt <;> rfl

section Message

variable {evt msg : CString} (h : step .umbrella onCall b v = some u)
  (hv : v.datagram = message evt msg) (hevt : space ∉ evt.bytes)
  (hlen : v.datagram.length ≤ 4095)

include h hv hevt hlen

theorem eq_of_handler {handler : H} (hh : b.handlers evt = some handler) :
    u = { b with
      receivers := onCall handler evt msg b.receivers
      calls := b.calls ++ [(handler, evt, msg)] } := by
  rw [hv] at hlen
  rw [receive_of_step h, hv, receive_umbrella_message _ hevt hlen, hh]
  rfl

theorem eq_of_event (hh : b.handlers evt = none) (hE : evt.bytes[0]? = some 'E'.toUInt8) :
    u = b.sentEvent (interfaceUmbrellaSendEvent b.receivers v.sendto evt msg) := by
  rw [hv] at hlen
  rw [receive_of_step h, hv, receive_umbrella_message _ hevt hlen, hh]
  simp only [if_pos hE]
  rfl

theorem eq_of_action (hh : b.handlers evt = none) (hE : ¬ evt.bytes[0]? = some 'E'.toUInt8) :
    u = { b with sends := b.sends ++ [interfaceUmbrellaSendAction v.sendto evt msg] } := by
  rw [hv] at hlen
  rw [receive_of_step h, hv, receive_umbrella_message _ hevt hlen, hh]
  simp only [if_neg hE]
  rfl

end Message

theorem sentEvent_of_fits {sent : Sent} (h : sent.overrun = none) :
    b.sentEvent sent = { b with sends := b.sends ++ [sent] } := by
  rw [sentEvent, h]
  rfl

/-- **The umbrella relays what it does not handle, byte by byte**, where the
addresses fit a `sun_path`.  A datagram without a space does nothing.  Any other
is a name, a space and a payload: a handler for the name is called once; without
one the bytes go once to each address registered for an event, or to the OS
address. -/
theorem relay (h : step .umbrella onCall b v = some u) (hne : v.datagram ≠ [])
    (hlen : v.datagram.length ≤ 4095) (hnul : 0 ∉ v.datagram)
    (hshort : ∀ e, ∀ a ∈ SetTable.members b.receivers e, a.length ≤ 106) :
    (space ∉ v.datagram ∧ u = b) ∨
      ∃ evt msg, v.datagram = message evt msg ∧ space ∉ evt.bytes ∧
        (∀ handler, b.handlers evt = some handler →
          u = { b with
            receivers := onCall handler evt msg b.receivers
            calls := b.calls ++ [(handler, evt, msg)] }) ∧
        (b.handlers evt = none → ∃ sent, u = { b with sends := b.sends ++ [sent] } ∧
          (v.datagram[0]? = some 'E'.toUInt8 →
            SentTo sent.datagrams (SetTable.members b.receivers evt) v.datagram ∧
            (sent.code = 0 ↔ (b.receivers evt).isSome ∧
              ∀ d ∈ sent.datagrams, 0 < (v.sendto d).wr)) ∧
          (v.datagram[0]? ≠ some 'E'.toUInt8 →
            sent.datagrams = [⟨osAddr, v.datagram⟩])) := by
  by_cases hsp : space ∈ v.datagram
  · -- the text up to the first space is the name
    obtain ⟨xs, ys, hd, hxs⟩ := List.eq_append_cons_of_mem hsp
    have hnotin : 0 ∉ xs ∧ 0 ∉ ys := by
      rw [hd, List.mem_append, List.mem_cons, not_or, not_or] at hnul
      exact ⟨hnul.1, hnul.2.2⟩
    obtain ⟨evt, msg, hevt, hmsg⟩ : ∃ evt msg : CString, space ∉ evt.bytes ∧
        v.datagram = message evt msg := ⟨⟨xs, hnotin.1⟩, ⟨ys, hnotin.2⟩, hxs, hd⟩
    have hfits : ¬ tooLong evt msg := by
      rw [hmsg, length_message] at hlen
      rw [tooLong]
      omega
    refine Or.inr ⟨evt, msg, hmsg, hevt, fun handler => eq_of_handler h hmsg hevt hlen,
      fun hh => ?_⟩
    rw [hmsg, head_message]
    by_cases hE : evt.bytes[0]? = some 'E'.toUInt8
    · have hover : (interfaceUmbrellaSendEvent b.receivers v.sendto evt msg).overrun = none :=
        (overrun_eq_none_iff hfits).mpr (hshort evt)
      refine ⟨_, (eq_of_event h hmsg hevt hlen hh hE).trans (sentEvent_of_fits hover), fun _ => ?_,
        fun hE' => absurd ((head_message evt msg).mpr hE) hE'⟩
      exact ⟨sentTo_umbrellaSendEvent hfits (hshort evt), code_umbrellaSendEvent hfits⟩
    · exact ⟨_, eq_of_action h hmsg hevt hlen hh hE, fun hE' => absurd hE' hE,
        fun _ => sendAction_datagrams hfits⟩
  · have hrecv : recvfrom v.datagram = v.datagram := by
      rw [recvfrom, bufSize]
      exact List.take_of_length_le hlen
    have hbytes : (CString.ofMemory (v.datagram ++ [0])).bytes = v.datagram :=
      (text_append [0] hnul).trans (List.append_nil _)
    have hread : readMessage (recvfrom v.datagram) = none := by
      rw [hrecv, readMessage, CString.splitAt_eq_none_iff, hbytes]
      exact hsp
    refine Or.inl ⟨hsp, ?_⟩
    rw [receive_of_step h, receive_of_noSpace hne hread, receive]

/-- Handlers that leave the receivers alone. -/
def keep : H → CString → CString → Receivers → Receivers := fun _ _ _ receivers => receivers

/-- A process that has installed no handler. -/
def bare : Bus Unit := new fun _ => none

/-- The name `a` has no handler and is no event: it goes to the OS address. -/
theorem relay_letters :
    ∃ u, step .umbrella keep bare ⟨message (letters 1) (letters 1), sendAll⟩ = some u ∧
      u.sends.map Sent.datagrams = [[⟨osAddr, message (letters 1) (letters 1)⟩]] := by
  have hu : step .umbrella keep bare ⟨message (letters 1) (letters 1), sendAll⟩ = some _ :=
    if_pos rfl
  refine ⟨_, hu, ?_⟩
  have hlen : (message (letters 1) (letters 1)).length ≤ 4095 := by decide
  rcases relay hu (by simp [message]) hlen (message_noNul _ _)
      (fun e a ha => absurd ha (Finset.notMem_empty a)) with
    ⟨hsp, -⟩ | ⟨evt, msg, -, -, -, hrelay⟩
  · exact absurd (show space ∈ message (letters 1) (letters 1) by decide) hsp
  · obtain ⟨sent, heq, -, hos⟩ := hrelay rfl
    rw [heq]
    show [sent.datagrams] = _
    rw [hos (by decide)]

/-- **An event that nobody has registered is reported as a failure**, although
no send has failed. -/
theorem relay_without_receivers :
    ∃ u sent, step .umbrella keep bare ⟨message iflyosEvtStopped (letters 1), sendAll⟩ = some u ∧
      u.sends = [sent] ∧ (∀ d ∈ sent.datagrams, 0 < (sendAll d).wr) ∧ sent.code ≠ 0 := by
  have hu : step .umbrella keep bare ⟨message iflyosEvtStopped (letters 1), sendAll⟩ = some _ :=
    if_pos rfl
  refine ⟨_, ⟨-1, [], none⟩, hu, ?_, by simp, by decide⟩
  rw [eq_of_event hu rfl (by decide +kernel) (by decide +kernel) rfl (by decide +kernel)]
  rfl

end Relay

/-! ### Whole sequences of datagrams -/

section Run

variable {worker : Worker} {onCall : H → CString → CString → Receivers → Receivers}
  {b t : Bus H} {vs : List Delivery} {tr : List (Bus H × Delivery)}

/-- The worker takes the deliveries and ends in the state `t`. -/
def Takes (worker : Worker) (onCall : H → CString → CString → Receivers → Receivers) (b : Bus H)
    (vs : List Delivery) (t : Bus H) : Prop :=
  ∃ tr, Run (step worker onCall) b tr t ∧ tr.map Prod.snd = vs

/-- In the state `t` the message `(evt, msg)` of a datagram is dispatched to its
handler. -/
def Dispatches (worker : Worker) (onCall : H → CString → CString → Receivers → Receivers)
    (handlers : Handlers H) (t : Bus H) : Prop :=
  ∀ v evt msg handler, readMessage (recvfrom v.datagram) = some (evt, msg) →
    handlers evt = some handler →
    ∃ u, step worker onCall t v = some u ∧ u.calls = t.calls ++ [(handler, evt, msg)]

/-- The worker takes all deliveries and is in its loop afterwards, and it
dispatches what comes later for an installed handler, as it would if any of the
deliveries had not been made. -/
def Undisturbed (worker : Worker) (onCall : H → CString → CString → Receivers → Receivers)
    (b : Bus H) (vs : List Delivery) : Prop :=
  (∃ t, Takes worker onCall b vs t ∧ t.inLoop = true) ∧
    ∀ vs', vs'.Sublist vs →
      ∃ t, Takes worker onCall b vs' t ∧ Dispatches worker onCall b.handlers t

theorem handlers_run (h : Run (step worker onCall) b tr t) : t.handlers = b.handlers :=
  Run.invariant (I := fun t => t.handlers = b.handlers) rfl
    (fun _ _ _ ht hu => (handlers_step hu).trans ht) h

/-- The loop goes on as long as what is taken is harmless. -/
theorem inLoop_run_iff (hb : b.inLoop = true) (h : Run (step worker onCall) b tr t) :
    t.inLoop = true ↔ ∀ p ∈ tr, Harmless worker p.1 p.2.datagram := by
  refine Run.iff_forall (I := fun t => t.inLoop = true)
    (C := fun t v => Harmless worker t v.datagram) hb ?_ h
  intro t v u hu
  rw [inLoop_step_iff hu]
  exact ⟨fun hv => ⟨inLoop_of_step hu, hv⟩, And.right⟩

/-- Every delivery is harmless in the state in which it is taken, behind those in
front of it. -/
def Harmlessly (worker : Worker) (onCall : H → CString → CString → Receivers → Receivers)
    (b : Bus H) (vs : List Delivery) : Prop :=
  ∀ vs₁ v t, vs₁ ++ [v] <+: vs → Takes worker onCall b vs₁ t → Harmless worker t v.datagram

theorem Harmlessly.of_prefix {vs' : List Delivery} (h : Harmlessly worker onCall b vs)
    (hvs' : vs' <+: vs) : Harmlessly worker onCall b vs' :=
  fun vs₁ v t hvs₁ ht => h vs₁ v t (hvs₁.trans hvs') ht

/-- While the loop goes on, every delivery is taken. -/
theorem exists_takes (hb : b.inLoop = true) (hvs : Harmlessly worker onCall b vs) :
    ∃ t, Takes worker onCall b vs t ∧ t.inLoop = true := by
  induction vs using List.reverseRecOn with
  | nil => exact ⟨b, ⟨[], Run.nil, rfl⟩, hb⟩
  | append_singleton vs v ih =>
    obtain ⟨t, ⟨tr, hrun, hvs'⟩, ht⟩ := ih (hvs.of_prefix (List.prefix_append _ _))
    obtain ⟨u, hu⟩ := step_of_inLoop (v := v) ht
    refine ⟨u, ⟨_, hrun.snoc hu, ?_⟩, (inLoop_step_iff hu).mpr ?_⟩
    · rw [List.map_append, hvs']
      rfl
    · exact hvs vs v t (List.prefix_refl _) ⟨tr, hrun, hvs'⟩

/-- The deliveries of a run that has not left the loop were harmless. -/
theorem harmlessly_of_takes (hb : b.inLoop = true) (h : Takes worker onCall b vs t)
    (ht : t.inLoop = true) : Harmlessly worker onCall b vs := by
  obtain ⟨tr, hrun, rfl⟩ := h
  have hall := (inLoop_run_iff hb hrun).mp ht
  rintro vs₁ v t₁ ⟨vs₂, hvs⟩ ⟨tr₁, hrun₁, rfl⟩
  rw [List.append_assoc, List.singleton_append] at hvs
  obtain ⟨tr', tr₂, rfl, hlabels, hrest⟩ := List.map_eq_append_iff.mp hvs.symm
  obtain ⟨p, tr₃, rfl, rfl, -⟩ := List.map_eq_cons_iff.mp hrest
  -- the two runs over the same deliveries are one
  obtain ⟨hbefore, -⟩ := hrun.split
  obtain ⟨-, rfl⟩ := hrun₁.unique hbefore hlabels.symm
  exact hall p (List.mem_append_right _ List.mem_cons_self)

/-- The handlers only add receivers, and add no fewer where there are more. -/
structure Grows (onCall : H → CString → CString → Receivers → Receivers) : Prop where
  extends_receivers : ∀ handler evt msg receivers e, SetTable.members receivers e ⊆
    SetTable.members (onCall handler evt msg receivers) e
  mono : ∀ handler evt msg {receivers receivers' : Receivers},
    (∀ e, SetTable.members receivers e ⊆ SetTable.members receivers' e) →
      ∀ e, SetTable.members (onCall handler evt msg receivers) e ⊆
        SetTable.members (onCall handler evt msg receivers') e

/-- The worker of one has the handlers of the other, and no other receivers. -/
structure Below (worker : Worker) (b t : Bus H) : Prop where
  handlers : b.handlers = t.handlers
  receivers : worker = .umbrella →
    ∀ e, SetTable.members b.receivers e ⊆ SetTable.members t.receivers e

section Below

variable {b' u' : Bus H} {v : Delivery} (hgrows : worker = .umbrella → Grows onCall)

theorem Below.harmless (hbelow : Below worker b' b) (h : Harmless worker b v.datagram) :
    Harmless worker b' v.datagram := by
  refine ⟨h.ne, fun humbrella evt msg hrelays a ha => ?_⟩
  rw [hbelow.handlers] at hrelays
  exact h.fits humbrella evt msg hrelays a (hbelow.receivers humbrella evt ha)

include hgrows

theorem below_step {u : Bus H} (hbelow : Below worker b' b) (h : step worker onCall b v = some u)
    (h' : step worker onCall b' v = some u') : Below worker u' u := by
  refine ⟨(handlers_step h').trans (hbelow.handlers.trans (handlers_step h).symm),
    fun humbrella => ?_⟩
  rw [receive_of_step h, receive_of_step h', hbelow.handlers]
  cases worker.receive b.handlers (some v.datagram) with
  | invoke handler evt msg =>
    exact (hgrows humbrella).mono handler evt msg (hbelow.receivers humbrella)
  | failed | noSpace | noHandler _ _ | relayEvent _ _ | relayAction _ _ =>
    exact hbelow.receivers humbrella

theorem below_skip {u : Bus H} (hbelow : Below worker b' b) (h : step worker onCall b v = some u) :
    Below worker b' u := by
  refine ⟨hbelow.handlers.trans (handlers_step h).symm, fun humbrella e => ?_⟩
  refine (hbelow.receivers humbrella e).trans ?_
  rw [receive_of_step h]
  cases worker.receive b.handlers (some v.datagram) with
  | invoke handler evt msg => exact (hgrows humbrella).extends_receivers handler evt msg _ e
  | failed | noSpace | noHandler _ _ | relayEvent _ _ | relayAction _ _ =>
    exact Finset.Subset.refl _

/-- Without some of the deliveries the worker takes the others as well. -/
theorem exists_takes_sublist (hb : b.inLoop = true) (h : Run (step worker onCall) b tr t)
    (hall : ∀ p ∈ tr, Harmless worker p.1 p.2.datagram) :
    ∀ vs', vs'.Sublist (tr.map Prod.snd) →
      ∃ t', Takes worker onCall b vs' t' ∧ t'.inLoop = true ∧ Below worker t' t := by
  refine h.history_of (C := fun t v => Harmless worker t v.datagram)
    (I := fun tr t => ∀ vs', vs'.Sublist (tr.map Prod.snd) →
      ∃ t', Takes worker onCall b vs' t' ∧ t'.inLoop = true ∧ Below worker t' t) ?_ ?_ hall
  · intro vs' hsub
    obtain rfl := List.sublist_nil.mp hsub
    exact ⟨b, ⟨[], Run.nil, rfl⟩, hb, rfl, fun _ _ => Finset.Subset.refl _⟩
  · intro tr t v u ih hharmless hu vs' hsub
    rw [List.map_append, List.map_singleton, List.sublist_append_iff] at hsub
    obtain ⟨vs₁, vs₂, rfl, hsub₁, hsub₂⟩ := hsub
    obtain ⟨t', ⟨tr', hrun, hlabels⟩, ht', hbelow⟩ := ih vs₁ hsub₁
    rcases List.sublist_singleton.mp hsub₂ with rfl | rfl
    · rw [List.append_nil]
      exact ⟨t', ⟨tr', hrun, hlabels⟩, ht', below_skip hgrows hbelow hu⟩
    · obtain ⟨u', hu'⟩ := step_of_inLoop (v := v) ht'
      refine ⟨u', ⟨_, hrun.snoc hu', ?_⟩, (inLoop_step_iff hu').mpr (hbelow.harmless hharmless),
        below_step hgrows hbelow hu hu'⟩
      rw [List.map_append, hlabels]
      rfl

end Below

theorem dispatches_of_inLoop (ht : t.inLoop = true) :
    Dispatches worker onCall t.handlers t := by
  intro v evt msg handler hread hh
  obtain ⟨u, hu⟩ := step_of_inLoop (v := v) ht
  refine ⟨u, hu, ?_⟩
  rw [receive_of_step hu, receive_eq_invoke hread hh, receive]

/-- **Which datagrams leave the loop undisturbed**: those that are harmless when
they come to be taken, whatever they hold. -/
theorem undisturbed_iff (hb : b.inLoop = true) (hgrows : worker = .umbrella → Grows onCall) :
    Undisturbed worker onCall b vs ↔ Harmlessly worker onCall b vs := by
  constructor
  · rintro ⟨⟨t, htakes, ht⟩, -⟩
    exact harmlessly_of_takes hb htakes ht
  · intro hvs
    obtain ⟨t, ⟨tr, hrun, rfl⟩, ht⟩ := exists_takes hb hvs
    refine ⟨⟨t, ⟨tr, hrun, rfl⟩, ht⟩, fun vs' hsub => ?_⟩
    obtain ⟨t', htakes, ht', hbelow⟩ :=
      exists_takes_sublist hgrows hb hrun ((inLoop_run_iff hb hrun).mp ht) vs' hsub
    refine ⟨t', htakes, ?_⟩
    rw [← handlers_run hrun, ← hbelow.handlers]
    exact dispatches_of_inLoop ht'

theorem grows_keep : Grows (keep (H := H)) :=
  ⟨fun _ _ _ _ _ => Finset.Subset.refl _, fun _ _ _ _ _ h => h⟩

/-- A datagram that is only spaces, and one byte that is no message. -/
theorem undisturbed_by_malformed :
    Undisturbed .umbrella keep bare [⟨[32, 32], sendAll⟩, ⟨[0], sendAll⟩] := by
  refine (undisturbed_iff rfl fun _ => grows_keep).mpr ?_
  have hexec : (Run.exec (step .umbrella keep) bare
      [⟨[32, 32], sendAll⟩, ⟨[0], sendAll⟩]).map (fun r => r.2.inLoop) = some true := by
    decide
  obtain ⟨r, hr, hloop⟩ := Option.map_eq_some_iff.mp hexec
  exact harmlessly_of_takes rfl ⟨r.1, Run.of_exec _ hr, Run.labels_of_exec _ hr⟩ hloop

/-- **An empty datagram ends both loops.** -/
theorem disturbed_by_empty_datagram :
    ¬ Undisturbed .interface keep bare [⟨[], sendAll⟩] ∧
      ¬ Undisturbed .umbrella keep bare [⟨[], sendAll⟩] := by
  have hends : ∀ worker, ¬ Undisturbed worker keep bare [⟨[], sendAll⟩] := by
    rintro worker ⟨⟨t, ⟨tr, hrun, htr⟩, ht⟩, -⟩
    obtain ⟨p, hp, hv⟩ := List.mem_map.mp (htr ▸ List.mem_singleton_self _)
    refine ((inLoop_run_iff rfl hrun).mp ht p hp).ne ?_
    rw [hv]
  exact ⟨hends _, hends _⟩

end Run

end Bus
