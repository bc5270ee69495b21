/-
The IPC interface: datagrams between the umbrella, the IFLYOS app and the
agents.

A message is the event name, a space and the payload in one datagram of a Unix
socket.  Every send function checks the two lengths against 4096 and hands the
joined string to `sendto`; both receiver workers read a datagram into a buffer
of 4096 bytes, of which `recvfrom` may fill all but the last, and split the
string they find there at its first space.  A stored address goes behind the
leading NUL of a `sun_path` of 108 bytes before anything is sent to it.

* `sunPath` — the copy of an address, which leaves the array when it is too
  long;
* `interfaceSendEvent`, `interfaceOSSendEvent`, `interfaceUmbrellaSendAction`,
  `interfaceUmbrellaSendEvent` — the send functions, over an arbitrary
  `sendto`;
* `interfaceReceiverWorker`, `interfaceUmbrellaReceiverWorker` — one iteration
  of the receiver loops.
-/
import IflyosSDK.Memory
import Mathlib.Data.Finset.Sort

/-- `IFLYOS_INTERFACE_CURRENT_VERSION`. -/
def iflyosInterfaceCurrentVersion : Int := 1

/-- The byte between the event name and the payload. -/
def space : UInt8 := 32

/-- A datagram handed to `sendto`: the address behind the leading NUL of
`sun_path`, and the bytes. -/
structure Datagram where
  dest : CString
  payload : Bytes

/-- `receivers`: the addresses registered for an event. -/
abbrev Receivers := CString → Option (Finset CString)

/-- `handlers`, over any type of handlers. -/
abbrev Handlers (H : Type*) := CString → Option H

def osAddr : CString := CString.ofString "IFLYOS_EVENT_RECV_ADDR"

def umbrellaAddr : CString := CString.ofString "IFLYOS_UMBRELLA_RECV_ADDR"

/-! ### Sending -/

/-- `sizeof(sun_path)`. -/
def sunPathSize : ℕ := 108

/-- `memset(addr.sun_path, 0, ...); strcpy(&addr.sun_path[1], address)`; no
result when the copy leaves the array. -/
def sunPath (address : CString) : Option (Buffer sunPathSize) :=
  (Buffer.zeros sunPathSize).store 1 (address.bytes ++ [0])

theorem isSome_sunPath_iff {address : CString} :
    (sunPath address).isSome ↔ address.length ≤ 106 := by
  rw [← Option.ne_none_iff_isSome, sunPath, ne_eq, Buffer.store_eq_none_iff, List.length_append,
    List.length_singleton, sunPathSize, CString.length]
  omega

/-- What a send function returns, the datagrams it handed to `sendto`, and the
address whose copy has left the `sun_path` on its stack, of which nothing is said
from there on. -/
structure Sent where
  code : Int
  datagrams : List Datagram
  overrun : Option CString

/-- What `sendto` returns, and `errno` after it. -/
structure SendResult where
  wr : Int
  errno : Int

/-- The length check that every send function makes. -/
def tooLong (evt msg : CString) : Prop := evt.length + msg.length > 4096

instance (evt msg : CString) : Decidable (tooLong evt msg) :=
  inferInstanceAs (Decidable (_ > _))

/-- `std::string() + evt + " " + msg`, the `evtLen + msgLen + 1` bytes sent. -/
def message (evt msg : CString) : Bytes := evt.bytes ++ space :: msg.bytes

/-- The send functions that have one destination. -/
def sendTo (name : CString) (sendto : Datagram → SendResult) (evt msg : CString) : Sent :=
  if tooLong evt msg then ⟨-1, [], none⟩
  else
    let d : Datagram := ⟨name, message evt msg⟩
    let r := sendto d
    ⟨if r.wr ≤ 0 then -r.errno else 0, [d], none⟩

def interfaceSendEvent (sendto : Datagram → SendResult) (evt msg : CString) : Sent :=
  sendTo umbrellaAddr sendto evt msg

def interfaceOSSendEvent (sendto : Datagram → SendResult) (evt msg : CString) : Sent :=
  sendTo umbrellaAddr sendto evt msg

def interfaceUmbrellaSendAction (sendto : Datagram → SendResult) (evt msg : CString) : Sent :=
  sendTo osAddr sendto evt msg

/-- Send to every address registered for the event, in the order of the set, up
to the first that does not fit a `sun_path`; `-1` when there is none or when some
`sendto` fails. -/
def interfaceUmbrellaSendEvent (receivers : Receivers) (sendto : Datagram → SendResult)
    (evt msg : CString) : Sent :=
  match receivers evt with
  | none => ⟨-1, [], none⟩
  | some addresses =>
    if tooLong evt msg then ⟨-2, [], none⟩
    else
      let ds := (addresses.sort.takeWhile fun address => (sunPath address).isSome).map
        fun address => (⟨address, message evt msg⟩ : Datagram)
      ⟨if ds.all fun d => 0 < (sendto d).wr then 0 else -1, ds,
        addresses.sort.find? fun address => (sunPath address).isNone⟩

/-! ### Receiving -/

/-- `sizeof(buf)` of both workers. -/
def bufSize : ℕ := 4096

/-- `recvfrom(sock, buf, sizeof(buf) - 1, ...)`: the rest of a longer datagram
is discarded. -/
def recvfrom (datagram : Bytes) : Bytes := datagram.take (bufSize - 1)

/-- `buf[rd] = 0; std::string(buf)`, then the split at the first space. -/
def readMessage (rd : Bytes) : Option (CString × CString) :=
  (CString.ofMemory (rd ++ [0])).splitAt space

/-- What one iteration of a receiver loop does with its datagram. -/
inductive Received (H : Type*)
  | failed
  | noSpace
  | noHandler (evt msg : CString)
  | invoke (handler : H) (evt msg : CString)
  | relayEvent (evt msg : CString)
  | relayAction (evt msg : CString)

/-- The event name and payload a worker has taken from a datagram. -/
def Received.pair {H : Type*} : Received H → Option (CString × CString)
  | .failed => none
  | .noSpace => none
  | .noHandler evt msg => some (evt, msg)
  | .invoke _ evt msg => some (evt, msg)
  | .relayEvent evt msg => some (evt, msg)
  | .relayAction evt msg => some (evt, msg)

section Workers

variable {H : Type*} (handlers : Handlers H)

/-- One iteration of `IFLYOS_InterfaceReceiverWorker`; `none` is a `recvfrom`
that fails. -/
def interfaceReceiverWorker (datagram : Option Bytes) : Received H :=
  match datagram with
  | none => .failed
  | some datagram =>
    if (recvfrom datagram).length ≤ 0 then .failed
    else
      match readMessage (recvfrom datagram) with
      | none => .noSpace
      | some (evt, msg) =>
        match handlers evt with
        | none => .noHandler evt msg
        | some handler => .invoke handler evt msg

/-- One iteration of `IFLYOS_InterfaceUmbrellaReceiverWorker`: what has no
handler is relayed, as an event when the datagram starts with `E`. -/
def interfaceUmbrellaReceiverWorker (datagram : Option Bytes) : Received H :=
  match datagram with
  | none => .failed
  | some datagram =>
    if (recvfrom datagram).length ≤ 0 then .failed
    else
      match readMessage (recvfrom datagram) with
      | none => .noSpace
      | some (evt, msg) =>
        match handlers evt with
        | none =>
          -- `buf[0] == 'E'`
          if (recvfrom datagram)[0]? = some 'E'.toUInt8 then .relayEvent evt msg
          else .relayAction evt msg
        | some handler => .invoke handler evt msg

end Workers
