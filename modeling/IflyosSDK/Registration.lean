/-
Registrations: the string that an app sends and the table the umbrella builds.

`IFLYOS_InterfaceInit` joins the event names with spaces, and
`IFLYOS_InterfaceBindEvents` puts the interface version and the address in
front.  The umbrella takes the version up to the first space, the address up to
the second, and the names as the words of the rest.

* `interfaceRegisteration` — the handler of DO_REGISTER_EVT_RECEIVER;
* `Registration` — an address and event names that can be registered;
* `produces_iff` — the payload that the umbrella reads from a registration;
* `registered_eq` — **the table holds the subscriptions requested**.
-/
import IflyosSDK.Memory
import IflyosSDK.RoundTrip
import IflyosSDK.SetTable

/-- `IFLYOS_DO_REGISTER_EVT_RECEIVER`. -/
def iflyosDoRegisterEvtReceiver : CString := CString.ofString "DO_REGISTER_EVT_RECEIVER"

/-- `a + " " + b`. -/
def joined (a b : CString) : CString := ⟨message a b, message_noNul a b⟩

/-! ### The app's side -/

/-- `std::to_string(IFLYOS_INTERFACE_CURRENT_VERSION)`. -/
def versionString : CString := CString.ofString (toString iflyosInterfaceCurrentVersion)

/-- `msg` of `IFLYOS_InterfaceBindEvents`. -/
def bindMessage (address events : CString) : CString :=
  joined (joined versionString address) events

def interfaceBindEvents (sendto : Datagram → SendResult) (address events : CString) : Sent :=
  interfaceSendEvent sendto iflyosDoRegisterEvtReceiver (bindMessage address events)

/-- `eventsStr` of `IFLYOS_InterfaceInit`: a space and the name for every event,
without the white space at the front. -/
def eventsStr (names : List CString) : CString :=
  CString.ofMemory ((names.flatMap fun name => space :: name.bytes).dropWhile isSpace)

/-- The registration at the end of `IFLYOS_InterfaceInit`. -/
def interfaceInitRegistration (sendto : Datagram → SendResult) (address : CString)
    (names : List CString) : Sent :=
  if names.length > 0 then interfaceBindEvents sendto address (eventsStr names)
  else ⟨0, [], none⟩

/-! ### The umbrella's side -/

/-- The names that `istream_iterator` reads from `events`. -/
def eventVector (events : CString) : List CString := (words events.bytes).map CString.ofMemory

def interfaceRegisteration (receivers : Receivers) (msg : CString) : Receivers :=
  match msg.splitAt space with
  | none => receivers
  | some (intfVerStr, str) =>
    if atoi (intfVerStr.bytes ++ [0]) ≠ some iflyosInterfaceCurrentVersion then receivers
    else
      match str.splitAt space with
      | none => receivers
      | some (addr, events) =>
        (eventVector events).foldl (fun receivers event => SetTable.insert receivers event addr)
          receivers

/-- The payloads that `IFLYOS_InterfaceRegisteration` rejects: without a space,
of another version, or without a second space. -/
def Rejected (msg : CString) : Prop :=
  msg.splitAt space = none ∨
    ∃ intfVerStr str, msg.splitAt space = some (intfVerStr, str) ∧
      (atoi (intfVerStr.bytes ++ [0]) ≠ some iflyosInterfaceCurrentVersion ∨
        str.splitAt space = none)

/-- An address and the names of events that an app registers in one datagram. -/
structure Registration where
  address : CString
  events : List CString
  address_ne : address.bytes ≠ []
  address_noSpace : space ∉ address.bytes
  events_ne : events ≠ []
  event_ne : ∀ e ∈ events, e.bytes ≠ []
  event_noSpace : ∀ e ∈ events, ∀ b ∈ e.bytes, ¬ isSpace b
  fits : (message iflyosDoRegisterEvtReceiver (bindMessage address (eventsStr events))).length ≤
    4095

/-- The umbrella's worker reads `msg` from the datagram of this registration. -/
def Produces (r : Registration) (msg : CString) : Prop :=
  ∃ sendto, ∃ d ∈ (interfaceInitRegistration sendto r.address r.events).datagrams,
    readMessage (recvfrom d.payload) = some (iflyosDoRegisterEvtReceiver, msg)

/-- The table after the payloads of a list. -/
def registered (msgs : List CString) : Receivers :=
  msgs.foldl interfaceRegisteration SetTable.empty

/-! ### What the umbrella reads -/

theorem space_not_mem_doRegister : space ∉ iflyosDoRegisterEvtReceiver.bytes := by
  decide +kernel

theorem bytes_versionString : versionString.bytes = [49] := by
  decide +kernel

theorem atoi_versionString :
    atoi (versionString.bytes ++ [0]) = some iflyosInterfaceCurrentVersion := by
  rw [bytes_versionString]
  decide

theorem splitAt_joined {a : CString} (b : CString) (ha : space ∉ a.bytes) :
    (joined a b).splitAt space = some (a, b) :=
  CString.splitAt_eq_some_iff.mpr ⟨rfl, ha⟩

/-- A registration message is the version, the address and the names. -/
theorem splitAt_bindMessage (address events : CString) :
    (bindMessage address events).splitAt space = some (versionString, joined address events) := by
  rw [CString.splitAt_eq_some_iff]
  constructor
  · show (versionString.bytes ++ space :: address.bytes) ++ space :: events.bytes = _
    rw [List.append_assoc, List.cons_append]
    rfl
  · rw [bytes_versionString]
    decide

/-- **The names that an app joins are the names that the umbrella reads.** -/
theorem eventVector_eventsStr {names : List CString} (hne : ∀ e ∈ names, e.bytes ≠ [])
    (hsp : ∀ e ∈ names, ∀ b ∈ e.bytes, ¬ isSpace b) : eventVector (eventsStr names) = names := by
  have hflat : (names.flatMap fun name => space :: name.bytes)
      = (names.map CString.bytes).flatMap fun w => space :: w := by
    rw [List.flatMap_map]
  have hnul : 0 ∉ (names.flatMap fun name => space :: name.bytes).dropWhile isSpace := by
    intro h
    obtain ⟨name, -, hmem⟩ := List.mem_flatMap.mp ((List.dropWhile_suffix _).subset h)
    rcases List.mem_cons.mp hmem with h0 | hmem
    · exact absurd h0 (by decide)
    · exact name.noNul hmem
  have hbytes : (eventsStr names).bytes
      = (names.flatMap fun name => space :: name.bytes).dropWhile isSpace :=
    congrArg CString.bytes (CString.ofMemory_bytes ⟨_, hnul⟩)
  have hwords : words (eventsStr names).bytes = names.map CString.bytes := by
    rw [hbytes, words_dropWhile, hflat]
    refine words_flatMap (by decide) ?_ ?_
    · intro w hw
      obtain ⟨e, he, rfl⟩ := List.mem_map.mp hw
      exact hne e he
    · intro w hw
      obtain ⟨e, he, rfl⟩ := List.mem_map.mp hw
      exact hsp e he
  rw [eventVector, hwords, List.map_map]
  calc names.map (CString.ofMemory ∘ CString.bytes) = names.map id :=
        List.map_congr_left fun e _ => CString.ofMemory_bytes e
    _ = names := List.map_id names

/-! ### One payload -/

section Payload

variable {receivers : Receivers} {msg : CString} {r : Registration}

theorem interfaceRegisteration_of_rejected (h : Rejected msg) :
    interfaceRegisteration receivers msg = receivers := by
  rw [interfaceRegisteration]
  rcases h with h | ⟨intfVerStr, str, h, hver | hstr⟩
  · rw [h]
  · rw [h]
    exact if_pos hver
  · rw [h]
    simp only [hstr, ite_self]

/-- A payload is accepted as an address and the names of events. -/
theorem interfaceRegisteration_bindMessage {address : CString} (events : CString)
    (haddr : space ∉ address.bytes) :
    interfaceRegisteration receivers (bindMessage address events) =
      SetTable.insertAll receivers ((eventVector events).map fun e => (e, address)) := by
  rw [interfaceRegisteration, splitAt_bindMessage]
  simp only [atoi_versionString, splitAt_joined events haddr, ne_eq, not_true_eq_false, if_false]
  rw [SetTable.insertAll, List.foldl_map]

namespace Registration

/-- The payload of the registration. -/
def payload (r : Registration) : CString := bindMessage r.address (eventsStr r.events)

theorem length_le (r : Registration) :
    (message iflyosDoRegisterEvtReceiver r.payload).length ≤ 4095 := r.fits

theorem datagrams_init (r : Registration) (sendto : Datagram → SendResult) :
    (interfaceInitRegistration sendto r.address r.events).datagrams =
      [⟨umbrellaAddr, message iflyosDoRegisterEvtReceiver r.payload⟩] := by
  have hlen : r.events.length > 0 := List.length_pos_iff.mpr r.events_ne
  have hfits := r.length_le
  rw [length_message] at hfits
  rw [interfaceInitRegistration, if_pos hlen, interfaceBindEvents, interfaceSendEvent, sendTo,
    if_neg]
  · rfl
  · show ¬ tooLong iflyosDoRegisterEvtReceiver r.payload
    rw [tooLong]
    omega

end Registration

/-- **The umbrella reads from a registration the payload it was sent with.** -/
theorem produces_iff : Produces r msg ↔ msg = r.payload := by
  have hfits := r.length_le
  rw [length_message] at hfits
  have hread : readMessage (recvfrom (message iflyosDoRegisterEvtReceiver r.payload)) =
      some (iflyosDoRegisterEvtReceiver, r.payload) :=
    (readMessage_recvfrom_iff space_not_mem_doRegister).mpr hfits
  constructor
  · rintro ⟨sendto, d, hd, hmsg⟩
    rw [r.datagrams_init, List.mem_singleton] at hd
    rw [hd, hread, Option.some.injEq, Prod.mk.injEq] at hmsg
    exact hmsg.2.symm
  · rintro rfl
    refine ⟨sendAll, ⟨umbrellaAddr, message iflyosDoRegisterEvtReceiver r.payload⟩, ?_, hread⟩
    rw [r.datagrams_init]
    exact List.mem_singleton_self _

theorem interfaceRegisteration_of_produces (h : Produces r msg) :
    interfaceRegisteration receivers msg =
      SetTable.insertAll receivers (r.events.map fun e => (e, r.address)) := by
  rw [produces_iff.mp h, Registration.payload,
    interfaceRegisteration_bindMessage _ r.address_noSpace,
    eventVector_eventsStr r.event_ne r.event_noSpace]

/-- No registration is rejected: the two kinds of payloads are disjoint. -/
theorem not_rejected_of_produces (h : Produces r msg) : ¬ Rejected msg := by
  intro hrej
  -- the table without entries would get one, and none
  have hempty : interfaceRegisteration SetTable.empty msg = SetTable.empty :=
    interfaceRegisteration_of_rejected hrej
  rw [interfaceRegisteration_of_produces h] at hempty
  obtain ⟨e, he⟩ := List.exists_mem_of_ne_nil _ r.events_ne
  have hmem : r.address ∈ SetTable.members (SetTable.insertAll SetTable.empty
      (r.events.map fun e => (e, r.address))) e :=
    SetTable.mem_insertAll_iff.mpr (Or.inr (List.mem_map_of_mem he))
  rw [hempty, SetTable.members_empty] at hmem
  exact Finset.notMem_empty _ hmem

/-- The address that a payload names. -/
def addressField (msg : CString) : Option CString :=
  match msg.splitAt space with
  | none => none
  | some (_, str) => (str.splitAt space).map Prod.fst

/-- Whatever a payload is, it only inserts the address it names. -/
theorem exists_insertAll (msg : CString) :
    ∃ ps : List (CString × CString), (∀ p ∈ ps, addressField msg = some p.2) ∧
      ∀ receivers, interfaceRegisteration receivers msg = SetTable.insertAll receivers ps := by
  by_cases h : Rejected msg
  · exact ⟨[], by simp, fun receivers => interfaceRegisteration_of_rejected h⟩
  · rw [Rejected, not_or] at h
    obtain ⟨⟨intfVerStr, str⟩, hsplit⟩ := Option.ne_none_iff_exists'.mp h.1
    have hrest : ¬ (atoi (intfVerStr.bytes ++ [0]) ≠ some iflyosInterfaceCurrentVersion ∨
        str.splitAt space = none) := fun hr => h.2 ⟨intfVerStr, str, hsplit, hr⟩
    rw [not_or] at hrest
    obtain ⟨⟨addr, events⟩, hstr⟩ := Option.ne_none_iff_exists'.mp hrest.2
    refine ⟨(eventVector events).map fun e => (e, addr), fun p hp => ?_, fun receivers => ?_⟩
    · obtain ⟨e, -, rfl⟩ := List.mem_map.mp hp
      rw [addressField, hsplit]
      simp only [hstr, Option.map_some]
    · rw [interfaceRegisteration, hsplit]
      simp only [if_neg hrest.1, hstr]
      rw [SetTable.insertAll, List.foldl_map]

theorem mem_of_mem_interfaceRegisteration {a e : CString} (hmsg : addressField msg ≠ some a)
    (h : a ∈ SetTable.members (interfaceRegisteration receivers msg) e) :
    a ∈ SetTable.members receivers e := by
  obtain ⟨ps, haddr, hps⟩ := exists_insertAll msg
  rw [hps, SetTable.mem_insertAll_iff] at h
  rcases h with h | h
  · exact h
  · exact absurd (haddr _ h) hmsg

end Payload

/-! ### Whole sequences -/

/-- A payload of the list registers the address for the event. -/
def Subscribes (msgs : List CString) (address event : CString) : Prop :=
  ∃ msg ∈ msgs, ∃ r, Produces r msg ∧ r.address = address ∧ event ∈ r.events

/-- Every payload comes from a registration or is rejected. -/
def Admissible (msgs : List CString) : Prop := ∀ msg ∈ msgs, Rejected msg ∨ ∃ r, Produces r msg

section Registered

variable {receivers : Receivers} {msg : CString} {msgs msgs' : List CString}

theorem registered_append_singleton :
    registered (msgs ++ [msg]) = interfaceRegisteration (registered msgs) msg := by
  rw [registered, List.foldl_append, List.foldl_cons, List.foldl_nil, registered]

theorem mem_interfaceRegisteration_iff {a e : CString} (h : Rejected msg ∨ ∃ r, Produces r msg) :
    a ∈ SetTable.members (interfaceRegisteration receivers msg) e ↔
      a ∈ SetTable.members receivers e ∨
        ∃ r, Produces r msg ∧ r.address = a ∧ e ∈ r.events := by
  -- what a registration asks for, its payload inserts
  have hiff : ∀ r, Produces r msg →
      (a ∈ SetTable.members (interfaceRegisteration receivers msg) e ↔
        a ∈ SetTable.members receivers e ∨ r.address = a ∧ e ∈ r.events) := by
    intro r hr
    rw [interfaceRegisteration_of_produces hr, SetTable.mem_insertAll_iff, List.mem_map]
    simp only [Prod.mk.injEq]
    constructor
    · rintro (hmem | ⟨e', he', rfl, haddr⟩)
      · exact Or.inl hmem
      · exact Or.inr ⟨haddr, he'⟩
    · rintro (hmem | ⟨haddr, he⟩)
      · exact Or.inl hmem
      · exact Or.inr ⟨e, he, rfl, haddr⟩
  constructor
  · intro hmem
    rcases h with hrej | ⟨r, hr⟩
    · rw [interfaceRegisteration_of_rejected hrej] at hmem
      exact Or.inl hmem
    · exact ((hiff r hr).mp hmem).imp_right fun hr' => ⟨r, hr, hr'⟩
  · rintro (hmem | ⟨r, hr, hr'⟩)
    · obtain ⟨ps, -, hps⟩ := exists_insertAll msg
      rw [hps]
      exact SetTable.mem_insertAll_of_mem ps hmem
    · exact (hiff r hr).mpr (Or.inr hr')

theorem tight_registered (msgs : List CString) : SetTable.Tight (registered msgs) := by
  induction msgs using List.reverseRecOn with
  | nil => exact SetTable.tight_empty
  | append_singleton msgs msg ih =>
    rw [registered_append_singleton]
    obtain ⟨ps, -, hps⟩ := exists_insertAll msg
    rw [hps]
    exact ih.insertAll ps

theorem mem_registered_iff (h : Admissible msgs) {a e : CString} :
    a ∈ SetTable.members (registered msgs) e ↔ Subscribes msgs a e := by
  induction msgs using List.reverseRecOn with
  | nil =>
    rw [registered, List.foldl_nil, SetTable.members_empty]
    simp [Subscribes]
  | append_singleton msgs msg ih =>
    have hmsgs : Admissible msgs := fun m hm => h m (List.mem_append_left _ hm)
    rw [registered_append_singleton, mem_interfaceRegisteration_iff (h msg (by simp)), ih hmsgs,
      Subscribes, Subscribes]
    simp only [List.mem_append, List.mem_singleton]
    constructor
    · rintro (⟨m, hm, hr⟩ | hr)
      · exact ⟨m, Or.inl hm, hr⟩
      · exact ⟨msg, Or.inr rfl, hr⟩
    · rintro ⟨m, hm | rfl, hr⟩
      · exact Or.inl ⟨m, hm, hr⟩
      · exact Or.inr hr

/-- **The table holds the subscriptions requested, and nothing else**: an event
has an entry when an address is registered for it, the order and repetition of
the payloads does not matter, and a rejected payload changes no table. -/
theorem registered_eq (h : Admissible msgs) :
    (∀ a e, a ∈ SetTable.members (registered msgs) e ↔ Subscribes msgs a e) ∧
      (∀ e, (registered msgs e).isSome ↔ ∃ a, Subscribes msgs a e) ∧
      (∀ msgs', Admissible msgs' → (∀ a e, Subscribes msgs' a e ↔ Subscribes msgs a e) →
        registered msgs' = registered msgs) ∧
      ∀ receivers msg, Rejected msg → interfaceRegisteration receivers msg = receivers := by
  refine ⟨fun a e => mem_registered_iff h, fun e => ?_, fun msgs' h' hsame => ?_,
    fun receivers msg hrej => interfaceRegisteration_of_rejected hrej⟩
  · rw [tight_registered msgs e]
    exact exists_congr fun a => mem_registered_iff h
  · refine (tight_registered msgs').ext (tight_registered msgs) fun e a => ?_
    rw [mem_registered_iff h', mem_registered_iff h]
    exact hsame a e

end Registered

/-- White space is looked for in every byte of every name. -/
theorem noSpace_of_all {names : List CString}
    (h : (names.all fun e => e.bytes.all fun b => !isSpace b) = true) :
    ∀ e ∈ names, ∀ b ∈ e.bytes, ¬ isSpace b := by
  intro e he b hb
  have hname := List.all_eq_true.mp h e he
  simpa using List.all_eq_true.mp hname b hb

/-- `IFLYOS_EVT_STOPPED`. -/
def iflyosEvtStopped : CString := CString.ofString "EVT_STOPPED"

/-- `IFLYOS_EVT_DIALOG_END`. -/
def iflyosEvtDialogEnd : CString := CString.ofString "EVT_DIALOG_END"

/-- Two of the events that MicAgent registers. -/
def micRegistration : Registration where
  address := CString.ofString "IFLYOS_INTERFACE_MIC"
  events := [iflyosEvtStopped, iflyosEvtDialogEnd]
  address_ne := by decide +kernel
  address_noSpace := by decide +kernel
  events_ne := by simp
  event_ne := by decide +kernel
  event_noSpace := noSpace_of_all (by decide +kernel)
  fits := by decide +kernel

/-- MicAgent registers twice, with a payload without a space in between. -/
theorem mic_registered :
    micRegistration.address ∈ SetTable.members
      (registered [micRegistration.payload, letters 1, micRegistration.payload])
      iflyosEvtDialogEnd := by
  have hmic : Produces micRegistration micRegistration.payload := produces_iff.mpr rfl
  have hrej : Rejected (letters 1) := Or.inl (by decide)
  have hadm : Admissible [micRegistration.payload, letters 1, micRegistration.payload] := by
    intro msg hmsg
    simp only [List.mem_cons, List.not_mem_nil, or_false] at hmsg
    rcases hmsg with rfl | rfl | rfl
    · exact Or.inr ⟨_, hmic⟩
    · exact Or.inl hrej
    · exact Or.inr ⟨_, hmic⟩
  refine ((registered_eq hadm).1 _ _).mpr ⟨micRegistration.payload, ?_, micRegistration, hmic, rfl,
    ?_⟩
  · simp
  · exact List.mem_cons_of_mem _ List.mem_cons_self
