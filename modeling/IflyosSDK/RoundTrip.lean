/-
The round trip of a message through a datagram.

The send functions accept a message of up to 4096 bytes of name and payload
and add the space, so a datagram has up to 4097 bytes; the receivers keep 4095
of them.

* `readMessage_recvfrom_iff` — a receiver gets back the name and the payload
  exactly when the datagram fits its buffer;
* `round_trip_iff` — the same for every send function and either worker;
* `round_trip_loses_last_byte` — a message that is accepted and arrives without
  its last byte.
-/
import IflyosSDK.Interface

/-! ### What the workers read -/

theorem message_noNul (evt msg : CString) : 0 ∉ message evt msg := by
  rw [message, List.mem_append, List.mem_cons]
  rintro (h | h | h)
  · exact evt.noNul h
  · exact absurd h (by decide)
  · exact msg.noNul h

theorem length_message (evt msg : CString) :
    (message evt msg).length = evt.length + msg.length + 1 := by
  rw [message, List.length_append, List.length_cons, CString.length, CString.length]
  omega

theorem readMessage_eq_some_iff {rd : Bytes} {evt msg : CString} (hrd : 0 ∉ rd) :
    readMessage rd = some (evt, msg) ↔ rd = message evt msg ∧ space ∉ evt.bytes := by
  have hbytes : (CString.ofMemory (rd ++ [0])).bytes = rd := by
    show text (rd ++ [0]) = rd
    rw [text_append [0] hrd]
    exact List.append_nil rd
  rw [readMessage, CString.splitAt_eq_some_iff, hbytes, message]

/-- **A message comes back whole exactly when it fits the receiver's buffer.** -/
theorem readMessage_recvfrom_iff {evt msg : CString} (hevt : space ∉ evt.bytes) :
    readMessage (recvfrom (message evt msg)) = some (evt, msg) ↔
      evt.length + msg.length + 1 ≤ bufSize - 1 := by
  have hnul : 0 ∉ recvfrom (message evt msg) := fun h =>
    message_noNul evt msg (List.mem_of_mem_take h)
  rw [readMessage_eq_some_iff hnul, and_iff_left hevt, recvfrom, List.take_eq_self_iff,
    length_message]

/-- Whatever a worker does with a datagram, it has read this message. -/
theorem pair_interfaceReceiverWorker {H : Type*} (handlers : Handlers H) (d : Bytes) :
    (interfaceReceiverWorker handlers (some d)).pair = readMessage (recvfrom d) := by
  simp only [interfaceReceiverWorker]
  split
  · -- an empty datagram is a failed read, and has no space either
    rename_i hlen
    rw [List.length_eq_zero_iff.mp (Nat.le_zero.mp hlen)]
    rfl
  · cases hread : readMessage (recvfrom d) with
    | none => rfl
    | some r =>
      cases hh : handlers r.1 <;> simp [hh, Received.pair]

theorem pair_interfaceUmbrellaReceiverWorker {H : Type*} (handlers : Handlers H) (d : Bytes) :
    (interfaceUmbrellaReceiverWorker handlers (some d)).pair = readMessage (recvfrom d) := by
  simp only [interfaceUmbrellaReceiverWorker]
  split
  · rename_i hlen
    rw [List.length_eq_zero_iff.mp (Nat.le_zero.mp hlen)]
    rfl
  · cases hread : readMessage (recvfrom d) with
    | none => rfl
    | some r =>
      cases hh : handlers r.1 with
      | none =>
        simp only [hh]
        split <;> rfl
      | some handler => simp [hh, Received.pair]

/-! ### The four senders and the two workers -/

/-- The send functions of the interface. -/
inductive Sender
  | sendEvent
  | osSendEvent
  | umbrellaSendAction
  | umbrellaSendEvent

def Sender.send (receivers : Receivers) (sendto : Datagram → SendResult) :
    Sender → CString → CString → Sent
  | .sendEvent => interfaceSendEvent sendto
  | .osSendEvent => interfaceOSSendEvent sendto
  | .umbrellaSendAction => interfaceUmbrellaSendAction sendto
  | .umbrellaSendEvent => interfaceUmbrellaSendEvent receivers sendto

/-- The receiver loops of the interface. -/
inductive Worker
  | interface
  | umbrella

def Worker.receive {H : Type*} (handlers : Handlers H) : Worker → Option Bytes → Received H
  | .interface => interfaceReceiverWorker handlers
  | .umbrella => interfaceUmbrellaReceiverWorker handlers

theorem payload_of_sendTo {name : CString} {sendto : Datagram → SendResult}
    {evt msg : CString} {d : Datagram} (h : d ∈ (sendTo name sendto evt msg).datagrams) :
    d.payload = message evt msg := by
  rw [sendTo] at h
  split at h
  · exact absurd h (by simp)
  · rw [List.mem_singleton.mp h]

/-- Every datagram of a send function carries the message. -/
theorem Sender.payload_of_mem {receivers : Receivers} {sendto : Datagram → SendResult}
    {sender : Sender} {evt msg : CString} {d : Datagram}
    (h : d ∈ (sender.send receivers sendto evt msg).datagrams) :
    d.payload = message evt msg := by
  cases sender with
  | sendEvent | osSendEvent | umbrellaSendAction => exact payload_of_sendTo h
  | umbrellaSendEvent =>
    rw [Sender.send, interfaceUmbrellaSendEvent] at h
    split at h
    · exact absurd h (by simp)
    · split at h
      · exact absurd h (by simp)
      · obtain ⟨address, -, rfl⟩ := List.mem_map.mp h
        rfl

/-- **The round trip of an accepted message.**  A datagram that a send function
sends is read by either worker as the name and the payload it was made of
exactly when the two have together at most 4094 bytes. -/
theorem round_trip_iff {H : Type*} (handlers : Handlers H) (receivers : Receivers)
    (sendto : Datagram → SendResult) (sender : Sender) (worker : Worker)
    {evt msg : CString} (hevt : space ∉ evt.bytes) {d : Datagram}
    (hd : d ∈ (sender.send receivers sendto evt msg).datagrams) :
    (worker.receive handlers (some d.payload)).pair = some (evt, msg) ↔
      evt.length + msg.length ≤ 4094 := by
  have hpair : (worker.receive handlers (some d.payload)).pair
      = readMessage (recvfrom d.payload) := by
    cases worker with
    | interface => exact pair_interfaceReceiverWorker handlers _
    | umbrella => exact pair_interfaceUmbrellaReceiverWorker handlers _
  rw [hpair, Sender.payload_of_mem hd, readMessage_recvfrom_iff hevt, bufSize]
  omega

/-! ### Messages of letters -/

/-- `n` times the letter `a`. -/
def letters (n : ℕ) : CString :=
  ⟨List.replicate n 97, fun h => absurd (List.eq_of_mem_replicate h) (by decide)⟩

theorem length_letters (n : ℕ) : (letters n).length = n := List.length_replicate

theorem space_not_mem_letters (n : ℕ) : space ∉ (letters n).bytes := fun h =>
  absurd (List.eq_of_mem_replicate h) (by decide)

/-- A socket that takes every byte. -/
def sendAll (d : Datagram) : SendResult := ⟨d.payload.length, 0⟩

theorem interfaceSendEvent_sendAll {evt msg : CString} (h : ¬ tooLong evt msg) :
    interfaceSendEvent sendAll evt msg = ⟨0, [⟨umbrellaAddr, message evt msg⟩], none⟩ := by
  have hwr : ¬ (sendAll ⟨umbrellaAddr, message evt msg⟩).wr ≤ 0 := by
    show ¬ ((message evt msg).length : Int) ≤ 0
    rw [length_message]
    omega
  rw [interfaceSendEvent, sendTo, if_neg h]
  simp only [if_neg hwr]

/-- The name `a` with any payload that overfills the buffer arrives with a
payload of 4093 letters. -/
theorem recvfrom_letters {n : ℕ} (hn : 4093 ≤ n) :
    recvfrom (message (letters 1) (letters n)) = message (letters 1) (letters 4093) := by
  show (97 :: space :: List.replicate n 97).take (4093 + 1 + 1) =
    97 :: space :: List.replicate 4093 97
  rw [List.take_succ_cons, List.take_succ_cons, List.take_replicate, Nat.min_eq_left hn]

/-- The name `a` with the payload `a`. -/
theorem round_trip_of_letters :
    (Worker.umbrella.receive (fun _ => (none : Option Unit))
      (some (message (letters 1) (letters 1)))).pair = some (letters 1, letters 1) ↔
      (letters 1).length + (letters 1).length ≤ 4094 := by
  have hfits : ¬ tooLong (letters 1) (letters 1) := by decide
  refine round_trip_iff (fun _ => none) (fun _ => none) sendAll .sendEvent .umbrella
    (space_not_mem_letters 1) (d := ⟨umbrellaAddr, message (letters 1) (letters 1)⟩) ?_
  rw [Sender.send, interfaceSendEvent_sendAll hfits]
  exact List.mem_singleton_self _

/-- **An accepted message loses its last byte.**  The name `a` with a payload
of 4094 bytes passes the length check, the send reports success, and the
receiver takes a payload of 4093 bytes from the datagram. -/
theorem round_trip_loses_last_byte :
    interfaceSendEvent sendAll (letters 1) (letters 4094) =
      ⟨0, [⟨umbrellaAddr, message (letters 1) (letters 4094)⟩], none⟩ ∧
    (interfaceUmbrellaReceiverWorker (fun _ => (none : Option Unit))
      (some (message (letters 1) (letters 4094)))).pair = some (letters 1, letters 4093) ∧
    letters 4093 ≠ letters 4094 := by
  refine ⟨interfaceSendEvent_sendAll ?_, ?_, fun h => ?_⟩
  · rw [tooLong, length_letters, length_letters]
    omega
  · rw [pair_interfaceUmbrellaReceiverWorker, recvfrom_letters (by omega)]
    exact (readMessage_eq_some_iff (message_noNul _ _)).mpr ⟨rfl, space_not_mem_letters 1⟩
  · have hlen := congrArg CString.length h
    rw [length_letters, length_letters] at hlen
    omega
