/-
The addresses that the umbrella stores, and the socket address they go into.

`IFLYOS_InterfaceUmbrellaSendEvent` copies a stored address behind the leading
NUL of a `sun_path` of 108 bytes.  The umbrella stores whatever stands between
the first two spaces of a registration.

* `storedAddress` — what a datagram adds to the table;
* `Bus.Stays` — every stored address fits, and every copy has;
* `Bus.addresses_fit_iff` — **the sequences of datagrams that keep it so**.
-/
import IflyosSDK.UmbrellaBus

/-- The address that a payload has `IFLYOS_InterfaceRegisteration` store: that of
a registration of the current version that names an event. -/
def storedField (msg : CString) : Option CString :=
  match msg.splitAt space with
  | none => none
  | some (intfVerStr, str) =>
    if atoi (intfVerStr.bytes ++ [0]) ≠ some iflyosInterfaceCurrentVersion then none
    else
      match str.splitAt space with
      | none => none
      | some (addr, events) => if eventVector events = [] then none else some addr

/-- The address that a datagram has the umbrella store. -/
def storedAddress (d : Bytes) : Option CString :=
  match readMessage (recvfrom d) with
  | none => none
  | some (evt, msg) => if evt = iflyosDoRegisterEvtReceiver then storedField msg else none

section Payload

variable {receivers : Receivers} {msg a : CString}

/-- A payload adds the address it stores, and no other. -/
theorem exists_mem_interfaceRegisteration_iff :
    (∃ e, a ∈ SetTable.members (interfaceRegisteration receivers msg) e) ↔
      (∃ e, a ∈ SetTable.members receivers e) ∨ storedField msg = some a := by
  rw [interfaceRegisteration, storedField]
  cases msg.splitAt space with
  | none => simp
  | some p =>
    obtain ⟨intfVerStr, str⟩ := p
    simp only
    split
    · simp
    · cases str.splitAt space with
      | none => simp
      | some q =>
        obtain ⟨addr, events⟩ := q
        have hall : (eventVector events).foldl
            (fun receivers event => SetTable.insert receivers event addr) receivers =
              SetTable.insertAll receivers ((eventVector events).map fun e => (e, addr)) := by
          rw [SetTable.insertAll, List.foldl_map]
        simp only [hall, SetTable.mem_insertAll_iff, exists_or]
        refine or_congr_right ?_
        by_cases hnone : eventVector events = []
        · simp [hnone]
        · obtain ⟨e, he⟩ := List.exists_mem_of_ne_nil _ hnone
          rw [if_neg hnone, Option.some.injEq]
          constructor
          · rintro ⟨e, hmem⟩
            obtain ⟨_, _, heq⟩ := List.mem_map.mp hmem
            exact congrArg Prod.snd heq
          · rintro rfl
            exact ⟨e, List.mem_map_of_mem he⟩

end Payload

namespace Bus

/-- Every stored address fits a `sun_path`, and every copy made of one has
stayed inside it. -/
def Stays (b : Bus UmbrellaHandler) : Prop :=
  (∀ e, ∀ a ∈ SetTable.members b.receivers e, a.length ≤ 106) ∧
    ∀ sent ∈ b.sends, sent.overrun = none ∧ ∀ d ∈ sent.datagrams, (sunPath d.dest).isSome

/-- The address that a datagram has the umbrella store fits a `sun_path`. -/
def ShortAddress (d : Bytes) : Prop := ∀ a ∈ storedAddress d, a.length ≤ 106

instance (d : Bytes) : Decidable (ShortAddress d) :=
  inferInstanceAs (Decidable (∀ a ∈ storedAddress d, a.length ≤ 106))

section Stays

variable {b t u : Bus UmbrellaHandler} {v : Delivery}
  {tr : List (Bus UmbrellaHandler × Delivery)} {a : CString}

theorem stays_new : (new umbrellaHandlers).Stays := by
  refine ⟨fun e a ha => ?_, fun sent hsent => ?_⟩
  · rw [new, SetTable.members_empty] at ha
    exact absurd ha (Finset.notMem_empty a)
  · exact absurd hsent (List.not_mem_nil)

/-- A registration is the only message that changes the receivers. -/
theorem exists_mem_step_iff (hb : b.handlers = umbrellaHandlers)
    (h : step .umbrella umbrellaOnCall b v = some u) :
    (∃ e, a ∈ SetTable.members u.receivers e) ↔
      (∃ e, a ∈ SetTable.members b.receivers e) ∨ storedAddress v.datagram = some a := by
  rw [receive_of_step h, storedAddress]
  cases hread : readMessage (recvfrom v.datagram) with
  | none =>
    have hsame : (b.receive umbrellaOnCall v.sendto
        (Worker.umbrella.receive b.handlers (some v.datagram))).receivers = b.receivers := by
      by_cases hnil : v.datagram = []
      · rw [hnil, receive_nil]
        rfl
      · rw [receive_of_noSpace hnil hread]
        rfl
    rw [hsame]
    simp
  | some m =>
    obtain ⟨evt, msg⟩ := m
    simp only
    by_cases hevt : evt = iflyosDoRegisterEvtReceiver
    · have hhandler : b.handlers evt = some .interfaceRegisteration := by
        rw [hb, hevt]
        exact umbrellaHandlers_of_mem List.mem_cons_self
      rw [receive_eq_invoke hread hhandler, if_pos hevt]
      exact exists_mem_interfaceRegisteration_iff
    · rw [if_neg hevt]
      have hsame : (b.receive umbrellaOnCall v.sendto
          (Worker.umbrella.receive b.handlers (some v.datagram))).receivers = b.receivers := by
        cases hr : Worker.umbrella.receive b.handlers (some v.datagram) with
        | invoke handler evt' msg' =>
          obtain ⟨hread', hh⟩ := of_receive_eq_invoke hr
          rw [hread, Option.some.injEq, Prod.mk.injEq] at hread'
          cases handler with
          | interfaceRegisteration =>
            have hname := evt_of_interfaceRegisteration (hb ▸ hh)
            exact absurd (hread'.1.trans hname) hevt
          | _ => rfl
        | _ => rfl
      rw [hsame]
      simp

/-- A copy that is made of a stored address stays inside. -/
theorem overrun_step (hb : b.Stays) (h : step .umbrella umbrellaOnCall b v = some u) :
    ∀ sent ∈ u.sends, sent.overrun = none := by
  have hold : ∀ sent ∈ b.sends, sent.overrun = none := fun sent hsent => (hb.2 sent hsent).1
  rw [receive_of_step h]
  cases hr : Worker.umbrella.receive b.handlers (some v.datagram) with
  | relayEvent evt msg =>
    obtain ⟨-, hrelays⟩ := receive_eq_relayEvent_iff.mp hr
    refine List.forall_mem_append.mpr ⟨hold, fun sent hsent => ?_⟩
    rw [List.mem_singleton.mp hsent,
      overrun_eq_none_iff (not_tooLong_of_readMessage hrelays.read)]
    exact hb.1 evt
  | relayAction evt msg =>
    refine List.forall_mem_append.mpr ⟨hold, fun sent hsent => ?_⟩
    rw [List.mem_singleton.mp hsent, interfaceUmbrellaSendAction, sendTo]
    split <;> rfl
  | failed | noSpace | noHandler _ _ | invoke _ _ _ => exact hold

theorem sends_stay (hb : b.Stays) (h : step .umbrella umbrellaOnCall b v = some u) :
    ∀ sent ∈ u.sends, sent.overrun = none ∧ ∀ d ∈ sent.datagrams, (sunPath d.dest).isSome := by
  obtain ⟨l, hl, hdest⟩ := sends_step h
  refine fun sent hsent => ⟨overrun_step hb h sent hsent, ?_⟩
  rw [hl, List.mem_append] at hsent
  rcases hsent with hsent | hsent
  · exact (hb.2 sent hsent).2
  intro d hd
  rw [isSome_sunPath_iff]
  rcases hdest sent hsent d hd with ⟨e, hmem⟩ | hos
  · exact hb.1 e d.dest hmem
  · rw [hos]
    decide +kernel

theorem stays_step_iff (hb : b.Stays) (hhandlers : b.handlers = umbrellaHandlers)
    (h : step .umbrella umbrellaOnCall b v = some u) : u.Stays ↔ ShortAddress v.datagram := by
  constructor
  · rintro ⟨hstored, -⟩ a ha
    obtain ⟨e, hmem⟩ := (exists_mem_step_iff hhandlers h).mpr (Or.inr ha)
    exact hstored e a hmem
  · intro hshort
    refine ⟨fun e a hmem => ?_, sends_stay hb h⟩
    rcases (exists_mem_step_iff hhandlers h).mp ⟨e, hmem⟩ with ⟨e', hmem'⟩ | hnew
    · exact hb.1 e' a hmem'
    · exact hshort a hnew

/-- **The stored addresses fit a socket address, and every copy of one stays
inside it, exactly when no registration that is accepted carries an address of
more than 106 bytes.** -/
theorem addresses_fit_iff (h : Run (step .umbrella umbrellaOnCall) (new umbrellaHandlers) tr t) :
    ((∀ p ∈ tr, p.1.Stays) ∧ t.Stays) ↔ ∀ p ∈ tr, ShortAddress p.2.datagram := by
  have hboth := h.states_iff (I := fun b => b.Stays ∧ b.handlers = umbrellaHandlers)
    (C := fun _ v => ShortAddress v.datagram) ⟨stays_new, rfl⟩ fun b v u hb hu =>
      (and_iff_left ((handlers_step hu).trans hb.2)).trans (stays_step_iff hb.1 hb.2 hu)
  rw [← hboth]
  constructor
  · rintro ⟨htr, ht⟩
    refine ⟨fun p hp => ⟨htr p hp, ?_⟩, ht, handlers_run h⟩
    obtain ⟨tr₁, tr₂, rfl⟩ := List.append_of_mem hp
    exact handlers_run h.split.1
  · rintro ⟨htr, ht⟩
    exact ⟨fun p hp => (htr p hp).1, ht.1⟩

/-- MicAgent registers, and an event goes to its address. -/
theorem stays_of_mic :
    ∃ tr t, Run (step .umbrella umbrellaOnCall) (new umbrellaHandlers) tr t ∧
      tr.map Prod.snd = [⟨message iflyosDoRegisterEvtReceiver micRegistration.payload, sendAll⟩,
        ⟨message iflyosEvtStopped (letters 1), sendAll⟩] ∧
      (∀ p ∈ tr, p.1.Stays) ∧ t.Stays := by
  have hexec : (Run.exec (step .umbrella umbrellaOnCall) (new umbrellaHandlers)
      [⟨message iflyosDoRegisterEvtReceiver micRegistration.payload, sendAll⟩,
        ⟨message iflyosEvtStopped (letters 1), sendAll⟩]).isSome = true := by
    decide +kernel
  obtain ⟨⟨tr, t⟩, hr⟩ := Option.isSome_iff_exists.mp hexec
  have hrun := Run.of_exec _ hr
  have htr := Run.labels_of_exec _ hr
  have hshort : ∀ v ∈ tr.map Prod.snd, ShortAddress v.datagram := by
    rw [htr]
    decide +kernel
  refine ⟨tr, t, hrun, htr, (addresses_fit_iff hrun).mpr fun p hp => ?_⟩
  exact hshort _ (List.mem_map_of_mem hp)

/-- A registration of EVT_STOPPED at an address of 107 letters. -/
def longRegistration : Registration where
  address := letters 107
  events := [iflyosEvtStopped]
  address_ne := by decide
  address_noSpace := space_not_mem_letters 107
  events_ne := by simp
  event_ne := by decide +kernel
  event_noSpace := noSpace_of_all (by decide +kernel)
  fits := by decide +kernel

/-- **An address of 107 bytes is stored**, and the next event is copied past the
end of `sun_path`. -/
theorem leaves_sun_path :
    ∃ t u sent, Takes .umbrella umbrellaOnCall (new umbrellaHandlers)
        [⟨message iflyosDoRegisterEvtReceiver longRegistration.payload, sendAll⟩] t ∧
      ¬ t.Stays ∧
      step .umbrella umbrellaOnCall t ⟨message iflyosEvtStopped (letters 1), sendAll⟩ = some u ∧
      sent ∈ u.sends ∧ ∃ a, sent.overrun = some a ∧ sunPath a = none ∧ u.inLoop = false := by
  have hexec : (Run.exec (step .umbrella umbrellaOnCall) (new umbrellaHandlers)
      [⟨message iflyosDoRegisterEvtReceiver longRegistration.payload, sendAll⟩]).map (fun r =>
        (decide (letters 107 ∈ SetTable.members r.2.receivers iflyosEvtStopped),
          (step .umbrella umbrellaOnCall r.2
            ⟨message iflyosEvtStopped (letters 1), sendAll⟩).map fun u =>
              (u.inLoop, u.sends.map Sent.overrun))) =
      some (true, some (false, [some (letters 107)])) := by
    decide +kernel
  obtain ⟨⟨tr, t⟩, hr, hobs⟩ := Option.map_eq_some_iff.mp hexec
  obtain ⟨hstored, hobs⟩ := Prod.mk.inj hobs
  obtain ⟨u, hu, hobs⟩ := Option.map_eq_some_iff.mp hobs
  obtain ⟨hloop, hsends⟩ := Prod.mk.inj hobs
  obtain ⟨sent, hsent⟩ := List.map_eq_singleton_iff.mp hsends
  have hnone : sunPath (letters 107) = none := by
    rw [← Option.not_isSome_iff_eq_none, isSome_sunPath_iff]
    decide
  refine ⟨t, u, sent, ⟨tr, Run.of_exec _ hr, Run.labels_of_exec _ hr⟩, fun hs => ?_, hu,
    hsent.1 ▸ List.mem_singleton_self _, _, hsent.2, hnone, hloop⟩
  exact absurd (hs.1 _ _ (of_decide_eq_true hstored)) (by decide)

/-- So the event that comes behind the registration ends the umbrella's loop. -/
theorem disturbed_by_long_address :
    ¬ Undisturbed .umbrella umbrellaOnCall (new umbrellaHandlers)
      [⟨message iflyosDoRegisterEvtReceiver longRegistration.payload, sendAll⟩,
        ⟨message iflyosEvtStopped (letters 1), sendAll⟩] := by
  have hexec : (Run.exec (step .umbrella umbrellaOnCall) (new umbrellaHandlers)
      [⟨message iflyosDoRegisterEvtReceiver longRegistration.payload, sendAll⟩,
        ⟨message iflyosEvtStopped (letters 1), sendAll⟩]).map (fun r => r.2.inLoop) =
      some false := by
    decide +kernel
  obtain ⟨r, hr, hloop⟩ := Option.map_eq_some_iff.mp hexec
  rintro ⟨⟨t, ⟨tr, hrun, htr⟩, ht⟩, -⟩
  obtain ⟨-, rfl⟩ := hrun.unique (Run.of_exec _ hr) (htr.trans (Run.labels_of_exec _ hr).symm)
  rw [hloop] at ht
  cases ht

end Stays

end Bus
