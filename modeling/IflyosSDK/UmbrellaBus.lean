/-
The umbrella's bus: its own handlers, and the events it forwards.

`main` installs the handler of registrations and three more; what has no
handler is forwarded to the addresses that have registered for it.  One of the
three is for the event EVT_CUSTOM_DIRECTIVE, which an app can register too.

* `umbrellaHandlers`, `umbrellaOnCall` — the table, and what its handlers do to
  the receivers;
* `grows_umbrellaOnCall` — they only add receivers;
* `mem_members_run` — a registration that was processed stays in the table;
* `registered_event_reaches` — **a registered event reaches its subscriber**, when
  the addresses of the event fit a `sun_path`.
-/
import IflyosSDK.Bus

namespace Bus

/-! ### The handlers -/

/-- `IFLYOS_DO_START`. -/
def iflyosDoStart : CString := CString.ofString "DO_START"

/-- `IFLYOS_DO_STOP`. -/
def iflyosDoStop : CString := CString.ofString "DO_STOP"

/-- `IFLYOS_EVT_CUSTOM_DIRECTIVE`. -/
def iflyosEvtCustomDirective : CString := CString.ofString "EVT_CUSTOM_DIRECTIVE"

/-- The functions that the umbrella installs. -/
inductive UmbrellaHandler
  | interfaceRegisteration
  | onIflyosDoStart
  | onIflyosDoStop
  | onCustomDirective
  deriving DecidableEq, Repr

/-- What `main` installs, in its order. -/
def umbrellaRegs : List (CString × UmbrellaHandler) :=
  [(iflyosDoRegisterEvtReceiver, .interfaceRegisteration),
    (iflyosDoStart, .onIflyosDoStart),
    (iflyosDoStop, .onIflyosDoStop),
    (iflyosEvtCustomDirective, .onCustomDirective)]

def umbrellaHandlers : Handlers UmbrellaHandler := handlersOf umbrellaRegs

/-- What a handler of the umbrella does to the receivers. -/
def umbrellaOnCall (handler : UmbrellaHandler) (_evt msg : CString) (receivers : Receivers) :
    Receivers :=
  match handler with
  | .interfaceRegisteration => interfaceRegisteration receivers msg
  | .onIflyosDoStart | .onIflyosDoStop | .onCustomDirective => receivers

/-- The names in the table are different. -/
theorem nodup_umbrellaRegs : (umbrellaRegs.map Prod.fst).Nodup := by
  decide +kernel

theorem umbrellaHandlers_of_mem {evt : CString} {handler : UmbrellaHandler}
    (h : (evt, handler) ∈ umbrellaRegs) : umbrellaHandlers evt = some handler := by
  cases hh : umbrellaHandlers evt with
  | none => exact absurd h (handlersOf_eq_none_iff.mp hh handler)
  | some handler' =>
    have hmem := mem_of_handlersOf hh
    rw [Option.some.injEq]
    exact congrArg Prod.snd (List.inj_on_of_nodup_map nodup_umbrellaRegs hmem h rfl)

/-- The only event that the umbrella handles itself is EVT_CUSTOM_DIRECTIVE. -/
theorem umbrellaHandlers_of_event {evt : CString} (hE : evt.bytes[0]? = some 'E'.toUInt8)
    (hcustom : evt ≠ iflyosEvtCustomDirective) : umbrellaHandlers evt = none := by
  have hnames : ∀ reg ∈ umbrellaRegs, reg.1 = iflyosEvtCustomDirective ∨
      reg.1.bytes[0]? ≠ some 'E'.toUInt8 := by
    decide +kernel
  rw [umbrellaHandlers, handlersOf_eq_none_iff]
  intro handler hmem
  rcases hnames _ hmem with h | h
  · exact hcustom h
  · exact h hE

/-- Only DO_REGISTER_EVT_RECEIVER has the handler of registrations. -/
theorem evt_of_interfaceRegisteration {evt : CString}
    (h : umbrellaHandlers evt = some .interfaceRegisteration) :
    evt = iflyosDoRegisterEvtReceiver := by
  rw [umbrellaHandlers] at h
  have hreg := mem_of_handlersOf h
  simpa [umbrellaRegs] using hreg

/-- A handler of the umbrella inserts the same pairs into every table. -/
theorem exists_insertAll_umbrellaOnCall (handler : UmbrellaHandler) (evt msg : CString) :
    ∃ ps, ∀ receivers, umbrellaOnCall handler evt msg receivers =
      SetTable.insertAll receivers ps := by
  cases handler with
  | interfaceRegisteration =>
    obtain ⟨ps, -, hps⟩ := exists_insertAll msg
    exact ⟨ps, hps⟩
  | onIflyosDoStart | onIflyosDoStop | onCustomDirective => exact ⟨[], fun _ => rfl⟩

theorem grows_umbrellaOnCall : Grows umbrellaOnCall where
  extends_receivers := by
    intro handler evt msg receivers e a ha
    obtain ⟨ps, hps⟩ := exists_insertAll_umbrellaOnCall handler evt msg
    rw [hps]
    exact SetTable.mem_insertAll_of_mem ps ha
  mono := by
    intro handler evt msg receivers receivers' hsub e a ha
    obtain ⟨ps, hps⟩ := exists_insertAll_umbrellaOnCall handler evt msg
    rw [hps, SetTable.mem_insertAll_iff] at ha ⊢
    exact ha.imp_left fun hmem => hsub e hmem

/-! ### What has been registered -/

section Registered

variable {b t u : Bus UmbrellaHandler} {v : Delivery}
  {tr : List (Bus UmbrellaHandler × Delivery)} {a e : CString}

/-- A step of the umbrella only adds addresses. -/
theorem mem_members_step (h : step .umbrella umbrellaOnCall b v = some u)
    (ha : a ∈ SetTable.members b.receivers e) : a ∈ SetTable.members u.receivers e := by
  rw [receive_of_step h]
  cases Worker.umbrella.receive b.handlers (some v.datagram) with
  | invoke handler evt msg =>
    exact grows_umbrellaOnCall.extends_receivers handler evt msg b.receivers e ha
  | _ => exact ha

theorem mem_members_run (h : Run (step .umbrella umbrellaOnCall) b tr t)
    (ha : a ∈ SetTable.members b.receivers e) : a ∈ SetTable.members t.receivers e :=
  Run.invariant (I := fun t => a ∈ SetTable.members t.receivers e) ha
    (fun _ _ _ hmem hu => mem_members_step hu hmem) h

/-- The umbrella has processed a registration. -/
theorem mem_members_of_registration {r : Registration} (hb : b.handlers = umbrellaHandlers)
    (h : step .umbrella umbrellaOnCall b v = some u)
    (hv : v.datagram = message iflyosDoRegisterEvtReceiver r.payload) (he : e ∈ r.events) :
    r.address ∈ SetTable.members u.receivers e := by
  have hhandler : umbrellaHandlers iflyosDoRegisterEvtReceiver = some .interfaceRegisteration :=
    umbrellaHandlers_of_mem List.mem_cons_self
  rw [eq_of_handler h hv space_not_mem_doRegister (hv ▸ r.length_le) (hb ▸ hhandler)]
  show r.address ∈ SetTable.members (interfaceRegisteration b.receivers r.payload) e
  rw [interfaceRegisteration_of_produces (produces_iff.mpr rfl), SetTable.mem_insertAll_iff]
  exact Or.inr (List.mem_map_of_mem he)

/-- The address that a datagram registers with the umbrella. -/
def registeredAddress (d : Bytes) : Option CString :=
  match readMessage (recvfrom d) with
  | none => none
  | some (evt, msg) => if evt = iflyosDoRegisterEvtReceiver then addressField msg else none

/-- No event is registered for the address. -/
def Unregistered (a : CString) (b : Bus UmbrellaHandler) : Prop :=
  ∀ e, a ∉ SetTable.members b.receivers e

theorem dest_mem_members {receivers : Receivers} {sendto : Datagram → SendResult}
    {evt msg : CString} {d : Datagram}
    (hd : d ∈ (interfaceUmbrellaSendEvent receivers sendto evt msg).datagrams) :
    d.dest ∈ SetTable.members receivers evt := by
  rw [interfaceUmbrellaSendEvent] at hd
  split at hd
  · exact absurd hd (by simp)
  · rename_i addresses hr
    rw [SetTable.members_of_eq_some hr]
    split at hd
    · exact absurd hd (by simp)
    · obtain ⟨address, haddress, rfl⟩ := List.mem_map.mp hd
      exact (Finset.mem_sort _).mp ((List.takeWhile_sublist _).subset haddress)

theorem dest_eq_osAddr {sendto : Datagram → SendResult} {evt msg : CString} {d : Datagram}
    (hd : d ∈ (interfaceUmbrellaSendAction sendto evt msg).datagrams) : d.dest = osAddr := by
  rw [interfaceUmbrellaSendAction, sendTo] at hd
  split at hd
  · exact absurd hd (by simp)
  · rw [List.mem_singleton.mp hd]

/-- A step that registers another address, or none. -/
theorem unregistered_step (ha : Unregistered a b) (hb : b.handlers = umbrellaHandlers)
    (h : step .umbrella umbrellaOnCall b v = some u)
    (hother : registeredAddress v.datagram ≠ some a) : Unregistered a u := by
  intro e hmem
  rw [receive_of_step h] at hmem
  cases hr : Worker.umbrella.receive b.handlers (some v.datagram) with
  | invoke handler evt msg =>
    rw [hr] at hmem
    cases handler with
    | interfaceRegisteration =>
      obtain ⟨hread, hh⟩ := of_receive_eq_invoke hr
      have hevt := evt_of_interfaceRegisteration (hb ▸ hh)
      rw [registeredAddress, hread] at hother
      simp only [if_pos hevt] at hother
      exact ha e (mem_of_mem_interfaceRegisteration hother hmem)
    | _ => exact ha e hmem
  | _ =>
    rw [hr] at hmem
    exact ha e hmem

/-- A step sends to registered addresses and to the OS address. -/
theorem sends_step (h : step .umbrella umbrellaOnCall b v = some u) :
    ∃ l, u.sends = b.sends ++ l ∧ ∀ sent ∈ l, ∀ d ∈ sent.datagrams,
      (∃ e, d.dest ∈ SetTable.members b.receivers e) ∨ d.dest = osAddr := by
  rw [receive_of_step h]
  cases Worker.umbrella.receive b.handlers (some v.datagram) with
  | relayEvent evt msg =>
    refine ⟨_, rfl, fun sent hsent d hd => ?_⟩
    rw [List.mem_singleton.mp hsent] at hd
    exact Or.inl ⟨evt, dest_mem_members hd⟩
  | relayAction evt msg =>
    refine ⟨_, rfl, fun sent hsent d hd => ?_⟩
    rw [List.mem_singleton.mp hsent] at hd
    exact Or.inr (dest_eq_osAddr hd)
  | _ => exact ⟨[], (List.append_nil _).symm, by simp⟩

/-- An address that is not registered is sent nothing, unless it is the OS
address. -/
theorem sends_of_unregistered (ha : Unregistered a b) (hos : a ≠ osAddr)
    (h : step .umbrella umbrellaOnCall b v = some u) :
    ∃ l, u.sends = b.sends ++ l ∧ ∀ sent ∈ l, ∀ d ∈ sent.datagrams, d.dest ≠ a := by
  obtain ⟨l, hl, hdest⟩ := sends_step h
  refine ⟨l, hl, fun sent hsent d hd heq => ?_⟩
  rcases hdest sent hsent d hd with ⟨e, hmem⟩ | hdest
  · exact ha e (heq ▸ hmem)
  · exact hos (heq ▸ hdest)

/-- **A registered event reaches its subscriber.**  Once the umbrella has
processed the registration, an event of the registration that it does not
handle itself goes to the registered address, in one copy, when the addresses
registered for it have at most 106 bytes. -/
theorem registered_event_reaches {r : Registration} {msg : CString}
    (h : Run (step .umbrella umbrellaOnCall) (new umbrellaHandlers) tr t)
    (hharmless : ∀ p ∈ tr, Harmless .umbrella p.1 p.2.datagram)
    (hreg : ∃ p ∈ tr, p.2.datagram = message iflyosDoRegisterEvtReceiver r.payload)
    (hshort : ∀ a ∈ SetTable.members t.receivers e, a.length ≤ 106)
    (he : e ∈ r.events) (hE : e.bytes[0]? = some 'E'.toUInt8)
    (hcustom : e ≠ iflyosEvtCustomDirective) (hv : v.datagram = message e msg)
    (hfits : v.datagram.length ≤ 4095) :
    ∃ u sent, step .umbrella umbrellaOnCall t v = some u ∧ u.sends = t.sends ++ [sent] ∧
      sent.datagrams.filter (fun d => d.dest = r.address) = [⟨r.address, message e msg⟩] := by
  have hmem : r.address ∈ SetTable.members t.receivers e := by
    obtain ⟨p, hp, hdatagram⟩ := hreg
    obtain ⟨tr₁, tr₂, rfl⟩ := List.append_of_mem hp
    obtain ⟨hbefore, u, hu, hafter⟩ := h.split
    exact mem_members_run hafter
      (mem_members_of_registration (handlers_run hbefore) hu hdatagram he)
  have hsp : space ∉ e.bytes := fun hsp => r.event_noSpace e he space hsp (by decide)
  have htoo : ¬ tooLong e msg := by
    rw [hv, length_message] at hfits
    rw [tooLong]
    omega
  obtain ⟨u, hu⟩ := step_of_inLoop (v := v) ((inLoop_run_iff rfl h).mpr hharmless)
  refine ⟨u, interfaceUmbrellaSendEvent t.receivers v.sendto e msg, hu, ?_,
    (sentTo_umbrellaSendEvent htoo hshort).filter_eq hmem⟩
  have hhandlers : t.handlers e = none := by
    rw [handlers_run h]
    exact umbrellaHandlers_of_event hE hcustom
  rw [eq_of_event hu hv hsp hfits hhandlers hE]
  rfl

/-- MicAgent is told that the app has stopped. -/
theorem stopped_reaches_mic :
    ∃ t u sent, Takes .umbrella umbrellaOnCall (new umbrellaHandlers)
        [⟨message iflyosDoRegisterEvtReceiver micRegistration.payload, sendAll⟩] t ∧
      step .umbrella umbrellaOnCall t ⟨message iflyosEvtStopped (letters 1), sendAll⟩ = some u ∧
      u.sends = t.sends ++ [sent] ∧
      sent.datagrams.filter (fun d => d.dest = micRegistration.address) =
        [⟨micRegistration.address, message iflyosEvtStopped (letters 1)⟩] := by
  have hexec : (Run.exec (step .umbrella umbrellaOnCall) (new umbrellaHandlers)
      [⟨message iflyosDoRegisterEvtReceiver micRegistration.payload, sendAll⟩]).map (fun r =>
        (r.2.inLoop, decide (∀ a ∈ SetTable.members r.2.receivers iflyosEvtStopped,
          a.length ≤ 106))) = some (true, true) := by
    decide +kernel
  obtain ⟨⟨tr, t⟩, hr, hobs⟩ := Option.map_eq_some_iff.mp hexec
  obtain ⟨ht, hshort⟩ := Prod.mk.inj hobs
  have hrun := Run.of_exec _ hr
  have htr := Run.labels_of_exec _ hr
  have hp : (⟨message iflyosDoRegisterEvtReceiver micRegistration.payload, sendAll⟩ : Delivery) ∈
      tr.map Prod.snd := by
    rw [htr]
    exact List.mem_singleton_self _
  obtain ⟨p, hp, hdatagram⟩ := List.mem_map.mp hp
  obtain ⟨u, sent, hu, hsends, hfilter⟩ := registered_event_reaches (r := micRegistration)
    (v := ⟨message iflyosEvtStopped (letters 1), sendAll⟩) hrun
    ((inLoop_run_iff rfl hrun).mp ht) ⟨p, hp, by rw [hdatagram]⟩ (of_decide_eq_true hshort)
    List.mem_cons_self (by decide +kernel) (by decide +kernel) rfl (by decide +kernel)
  exact ⟨t, u, sent, ⟨tr, hrun, htr⟩, hu, hsends, hfilter⟩

/-- MicAgent registers EVT_CUSTOM_DIRECTIVE. -/
def customRegistration : Registration where
  address := micRegistration.address
  events := [iflyosEvtCustomDirective]
  address_ne := micRegistration.address_ne
  address_noSpace := micRegistration.address_noSpace
  events_ne := by simp
  event_ne := by decide +kernel
  event_noSpace := noSpace_of_all (by decide +kernel)
  fits := by decide +kernel

/-- **The umbrella keeps EVT_CUSTOM_DIRECTIVE to itself**, whoever has
registered it. -/
theorem custom_directive_not_forwarded :
    ∃ t u, Takes .umbrella umbrellaOnCall (new umbrellaHandlers)
        [⟨message iflyosDoRegisterEvtReceiver customRegistration.payload, sendAll⟩] t ∧
      customRegistration.address ∈ SetTable.members t.receivers iflyosEvtCustomDirective ∧
      step .umbrella umbrellaOnCall t
        ⟨message iflyosEvtCustomDirective (letters 1), sendAll⟩ = some u ∧
      u.sends = t.sends := by
  obtain ⟨t, hreg⟩ : ∃ t, step .umbrella umbrellaOnCall (new umbrellaHandlers)
      ⟨message iflyosDoRegisterEvtReceiver customRegistration.payload, sendAll⟩ = some t :=
    step_of_inLoop rfl
  have ht : t.inLoop = true := by
    rw [eq_of_handler hreg rfl (by decide +kernel) (by decide +kernel)
      (umbrellaHandlers_of_mem List.mem_cons_self)]
    rfl
  obtain ⟨u, hu⟩ : ∃ u, step .umbrella umbrellaOnCall t
      ⟨message iflyosEvtCustomDirective (letters 1), sendAll⟩ = some u := step_of_inLoop ht
  refine ⟨t, u, ⟨_, Run.snoc Run.nil hreg, rfl⟩, ?_, hu, ?_⟩
  · exact mem_members_of_registration rfl hreg rfl List.mem_cons_self
  · have hhandler : t.handlers iflyosEvtCustomDirective = some .onCustomDirective := by
      rw [handlers_step hreg]
      exact umbrellaHandlers_of_mem (by simp [umbrellaRegs])
    rw [eq_of_handler hu rfl (by decide +kernel) (by decide +kernel) hhandler]

end Registered

end Bus
