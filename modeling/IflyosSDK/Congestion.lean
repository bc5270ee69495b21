/-
The bus with sockets that hold only so much.

`sendto` on a socket of the bus waits until the kernel has room for the datagram.
Receiver threads send as well: the umbrella's relays what it has no handler for,
and an app's runs the handlers, some of which report back.  A thread that waits
in `sendto` takes nothing from its own socket meanwhile.

The umbrella is taken to stay up: where an event is relayed to an address of more
than 106 bytes, whose copy overruns the umbrella's stack, nothing is said about
what follows.  `relays_run` asks for addresses that fit, and `Regular` has none
registered that does not.

* `Congestion.bus` — the umbrella and the apps as an `Exchange`, for any room
  that the kernel may have and anything that the handlers may send;
* `Congestion.relays_run` — what is relayed is what `Bus` relays;
* `Congestion.deadlock_for_good` — **the bus stops only when the umbrella and an
  app wait for each other**, and it does not come back;
* `Congestion.empties` — **handlers that do not send keep it going**;
* `Congestion.deadlock_for_every_limit` — **MicAgent's do send**, and the bus
  stops whatever the kernel's limit is.
-/
import IflyosSDK.Mailboxes
import IflyosSDK.MicAgentHandlers
import IflyosSDK.Net

/-- What the processes remember: the umbrella's table, and each app's handlers
with what they keep between calls. -/
structure Parties (H F : Type*) where
  receivers : Receivers
  handlers : CString → Handlers H
  memory : CString → F

namespace Congestion

variable {H F : Type*}

abbrev State (H F : Type*) := Mailboxes CString Bytes (Parties H F)

/-- `change` installs or erases a handler of an app. -/
abbrev Action (H : Type*) := Exchange.Action CString Bytes (CString × Option H × CString)

section Defs

/-- Where the datagrams of a send function go. -/
def outgoing (sent : Sent) : List (CString × Bytes) :=
  sent.datagrams.map fun d => (d.dest, d.payload)

/-- One iteration of the umbrella's worker. -/
def umbrellaReact (w : Parties H F) (d : Bytes) : Parties H F × List (CString × Bytes) :=
  match Worker.umbrella.receive Bus.umbrellaHandlers (some d) with
  | .invoke handler evt msg =>
    ({ w with receivers := Bus.umbrellaOnCall handler evt msg w.receivers }, [])
  | .relayEvent evt msg => (w, outgoing (interfaceUmbrellaSendEvent w.receivers sendAll evt msg))
  | .relayAction evt msg => (w, outgoing (interfaceUmbrellaSendAction sendAll evt msg))
  | .failed | .noSpace | .noHandler _ _ => (w, [])

/-- One iteration of the worker of an app; `calls` is what a handler sends. -/
def appReact (calls : H → F → CString → CString → F × List (CString × CString))
    (w : Parties H F) (a : CString) (d : Bytes) : Parties H F × List (CString × Bytes) :=
  match Worker.interface.receive (w.handlers a) (some d) with
  | .invoke handler evt msg =>
    let r := calls handler (w.memory a) evt msg
    ({ w with memory := Function.update w.memory a r.1 },
      r.2.flatMap fun o => outgoing (interfaceSendEvent sendAll o.1 o.2))
  | .failed | .noSpace | .noHandler _ _ | .relayEvent _ _ | .relayAction _ _ => (w, [])

/-- All that is sent goes to the umbrella or comes from it, and no send function
makes an empty datagram. -/
def sends (l : Letter CString Bytes) : Bool :=
  (decide (l.sender = umbrellaAddr) || decide (l.receiver = umbrellaAddr)) && !l.body.isEmpty

/-- The bus.  An app starts without handlers, and its threads install them with
`IFLYOS_InterfaceRegisterHandler`. -/
def bus (room : List (Letter CString Bytes) → Letter CString Bytes → Bool)
    (calls : H → F → CString → CString → F × List (CString × CString)) (blank : F) :
    Exchange CString Bytes (Parties H F) (CString × Option H × CString) where
  room := room
  sends := sends
  react w a d := if a = umbrellaAddr then umbrellaReact w d else appReact calls w a d
  start w a :=
    if a = umbrellaAddr then { w with receivers := SetTable.empty }
    else { w with
      handlers := Function.update w.handlers a fun _ => none
      memory := Function.update w.memory a blank }
  change w c :=
    let (a, handler, evt) := c
    some { w with
      handlers := Function.update w.handlers a
        (Bus.interfaceRegisterHandler (w.handlers a) handler evt) }

/-- The umbrella runs, and no app does. -/
def start (blank : F) : State H F where
  live a := decide (a = umbrellaAddr)
  mail := []
  todo _ := []
  world := ⟨SetTable.empty, fun _ _ => none, fun _ => blank⟩

end Defs

/-! ### What is sent -/

section Sends

variable {room : List (Letter CString Bytes) → Letter CString Bytes → Bool}
  {calls : H → F → CString → CString → F × List (CString × CString)} {blank : F}
  {w : Parties H F} {a : CString} {d : Bytes} {o : CString × Bytes} {evt msg : CString}

theorem sends_iff {l : Letter CString Bytes} :
    sends l = true ↔ (l.sender = umbrellaAddr ∨ l.receiver = umbrellaAddr) ∧ l.body ≠ [] := by
  simp [sends]

theorem message_ne (evt msg : CString) : message evt msg ≠ [] := by
  simp [message]

theorem mem_outgoing_sendTo {name : CString} (h : o ∈ outgoing (sendTo name sendAll evt msg)) :
    o.1 = name ∧ o.2 ≠ [] := by
  rw [outgoing, sendTo] at h
  split_ifs at h
  · cases h
  · obtain rfl := List.mem_singleton.mp h
    exact ⟨rfl, message_ne evt msg⟩

theorem mem_outgoing_event {receivers : Receivers}
    (h : o ∈ outgoing (interfaceUmbrellaSendEvent receivers sendAll evt msg)) :
    o.1 ∈ SetTable.members receivers evt ∧ o.2 ≠ [] := by
  rw [outgoing, interfaceUmbrellaSendEvent] at h
  cases hr : receivers evt with
  | none => simp [hr] at h
  | some addresses =>
    simp only [hr] at h
    by_cases hlong : tooLong evt msg
    · rw [if_pos hlong] at h
      cases h
    · rw [if_neg hlong] at h
      obtain ⟨g, hg, rfl⟩ := List.mem_map.mp h
      obtain ⟨b, hb, rfl⟩ := List.mem_map.mp hg
      rw [SetTable.members_of_eq_some hr]
      exact ⟨(Finset.mem_sort _).mp ((List.takeWhile_sublist _).subset hb), message_ne evt msg⟩

theorem mem_appReact (h : o ∈ (appReact calls w a d).2) : o.1 = umbrellaAddr ∧ o.2 ≠ [] := by
  rw [appReact] at h
  split at h
  · obtain ⟨c, -, hc⟩ := List.mem_flatMap.mp h
    exact mem_outgoing_sendTo hc
  all_goals cases h

theorem mem_umbrellaReact (h : o ∈ (umbrellaReact w d).2) :
    (o.1 = osAddr ∨ ∃ evt, o.1 ∈ SetTable.members w.receivers evt) ∧ o.2 ≠ [] := by
  rw [umbrellaReact] at h
  split at h
  · cases h
  · rename_i evt msg _
    obtain ⟨hmem, hne⟩ := mem_outgoing_event h
    exact ⟨Or.inr ⟨evt, hmem⟩, hne⟩
  · obtain ⟨hos, hne⟩ := mem_outgoing_sendTo h
    exact ⟨Or.inl hos, hne⟩
  all_goals cases h

/-- What a worker sends comes from the umbrella or goes to it. -/
theorem proper : (bus room calls blank).Proper := by
  intro w a d o ho
  change o ∈ (if a = umbrellaAddr then umbrellaReact w d else appReact calls w a d).2 at ho
  show sends ⟨a, o.1, o.2⟩ = true
  rw [sends_iff]
  split_ifs at ho with ha
  · exact ⟨Or.inl ha, (mem_umbrellaReact ho).2⟩
  · obtain ⟨hdest, hne⟩ := mem_appReact ho
    exact ⟨Or.inr hdest, hne⟩

theorem inv_run {tr : List (State H F × Action H)} {s : State H F}
    (h : Run (bus room calls blank).step (start blank) tr s) : (bus room calls blank).Inv s :=
  h.invariant (Exchange.inv_of_idle ⟨rfl, fun _ => rfl⟩)
    fun _ _ _ ht hu => Exchange.inv_step proper ht hu

end Sends

/-! ### What is relayed -/

section Relays

variable {room : List (Letter CString Bytes) → Letter CString Bytes → Bool}
  {calls : H → F → CString → CString → F × List (CString × CString)} {blank : F}
  {s : State H F} {tr : List (State H F × Action H)}

/-- What the worker of a process has taken, oldest first. -/
def takenBy (a : CString) (tr : List (State H F × Action H)) : List Bytes :=
  tr.flatMap fun c =>
    match c.2 with
    | .take b =>
      if b = a then ((c.1.mail.find? (Exchange.addressed a)).map Letter.body).toList else []
    | .send _ | .post _ | .start _ | .exit _ | .change _ => []

/-- What the worker of a process has sent, oldest first. -/
def sentBy (a : CString) (tr : List (State H F × Action H)) : List (CString × Bytes) :=
  tr.flatMap fun c =>
    match c.2 with
    | .send b => if b = a then (c.1.todo a).take 1 else []
    | .take _ | .post _ | .start _ | .exit _ | .change _ => []

/-- The registered addresses fit a `sun_path`. -/
def Short (w : Parties H F) : Prop := ∀ e, ∀ a ∈ SetTable.members w.receivers e, a.length ≤ 106

/-- One iteration of the umbrella's worker, as `Bus` has it. -/
theorem umbrellaReact_eq {w : Parties H F} {d : Bytes} {b : Bus Bus.UmbrellaHandler}
    (hhandlers : b.handlers = Bus.umbrellaHandlers) (hreceivers : b.receivers = w.receivers)
    (hloop : b.inLoop = true) (hd : d ≠ []) (hshort : Short w) :
    ∃ u, Bus.step .umbrella Bus.umbrellaOnCall b ⟨d, sendAll⟩ = some u ∧
      u.handlers = Bus.umbrellaHandlers ∧ u.inLoop = true ∧
        u.receivers = (umbrellaReact w d).1.receivers ∧
          u.sends.flatMap outgoing = b.sends.flatMap outgoing ++ (umbrellaReact w d).2 := by
  have hfailed : Worker.umbrella.receive Bus.umbrellaHandlers (some d) ≠ .failed :=
    fun h => hd (Bus.receive_eq_failed_iff.mp h)
  refine ⟨_, if_pos hloop, ?_⟩
  show _ ∧ _ ∧ _ ∧ _
  rw [hhandlers, umbrellaReact]
  cases hr : Worker.umbrella.receive Bus.umbrellaHandlers (some d) with
  | failed => exact absurd hr hfailed
  | noSpace | noHandler evt msg =>
    exact ⟨hhandlers, hloop, hreceivers, (List.append_nil _).symm⟩
  | invoke handler evt msg =>
    refine ⟨hhandlers, hloop, ?_, (List.append_nil _).symm⟩
    show Bus.umbrellaOnCall handler evt msg b.receivers = _
    rw [hreceivers]
  | relayEvent evt msg =>
    have hread := (Bus.receive_eq_relayEvent_iff.mp hr).2.read
    have hover : (interfaceUmbrellaSendEvent b.receivers sendAll evt msg).overrun = none := by
      rw [Bus.overrun_eq_none_iff (Bus.not_tooLong_of_readMessage hread), hreceivers]
      exact hshort evt
    rw [Bus.receive, Bus.sentEvent_of_fits hover]
    refine ⟨hhandlers, hloop, hreceivers, ?_⟩
    show (b.sends ++ [_]).flatMap outgoing = _
    rw [List.flatMap_append, List.flatMap_singleton, hreceivers]
  | relayAction evt msg =>
    refine ⟨hhandlers, hloop, hreceivers, ?_⟩
    show (b.sends ++ [_]).flatMap outgoing = _
    rw [List.flatMap_append, List.flatMap_singleton]

theorem receivers_appReact (w : Parties H F) (a : CString) (d : Bytes) :
    (appReact calls w a d).1.receivers = w.receivers := by
  rw [appReact]
  split <;> rfl

theorem takenBy_snoc {a : CString} (c : State H F × Action H) :
    takenBy a (tr ++ [c]) = takenBy a tr ++ takenBy a [c] := List.flatMap_append

theorem sentBy_snoc {a : CString} (c : State H F × Action H) :
    sentBy a (tr ++ [c]) = sentBy a tr ++ sentBy a [c] := List.flatMap_append

/-- The umbrella runs, and its worker has done what `Bus` does. -/
structure Relaying (tr : List (State H F × Action H)) (s : State H F) : Prop where
  live : s.live umbrellaAddr = true
  bus : ∃ btr b, Run (Bus.step .umbrella Bus.umbrellaOnCall) (.new Bus.umbrellaHandlers) btr b ∧
    btr.map (fun v => v.2.datagram) = takenBy umbrellaAddr tr ∧
      b.receivers = s.world.receivers ∧
        b.sends.flatMap outgoing = sentBy umbrellaAddr tr ++ s.todo umbrellaAddr ∧
          b.handlers = Bus.umbrellaHandlers ∧ b.inLoop = true

theorem relaying_start : Relaying [] (start blank : State H F) :=
  ⟨decide_eq_true rfl, [], _, .nil, rfl, rfl, rfl, rfl, rfl⟩

/-- A step that is not one of the umbrella's worker. -/
theorem Relaying.of_other {u : State H F} {act : Action H} (hs : Relaying tr s)
    (htaken : takenBy umbrellaAddr [(s, act)] = []) (hsent : sentBy umbrellaAddr [(s, act)] = [])
    (hlive : u.live umbrellaAddr = s.live umbrellaAddr)
    (hreceivers : u.world.receivers = s.world.receivers)
    (htodo : u.todo umbrellaAddr = s.todo umbrellaAddr) : Relaying (tr ++ [(s, act)]) u := by
  obtain ⟨hup, btr, b, hrun, htr, hb, hsends, hloop⟩ := hs
  refine ⟨hlive.trans hup, btr, b, hrun, ?_, hb.trans hreceivers.symm, ?_, hloop⟩
  · rw [takenBy_snoc, htaken, List.append_nil]
    exact htr
  · rw [sentBy_snoc, hsent, List.append_nil, htodo]
    exact hsends

theorem relaying_step {u : State H F} {act : Action H} (hinv : (bus room calls blank).Inv s)
    (hs : Relaying tr s) (hstays : act ≠ .exit umbrellaAddr) (hshort : Short s.world)
    (h : (bus room calls blank).step s act = some u) : Relaying (tr ++ [(s, act)]) u := by
  cases Exchange.step_cases h with
  | @take p l hlive hfree hl =>
    by_cases hp : p = umbrellaAddr
    · subst hp
      obtain ⟨hup, btr, b, hrun, htr, hb, hsends, hhandlers, hloop⟩ := hs
      have hbody : l.body ≠ [] :=
        (sends_iff.mp (hinv.mail_sends l (List.mem_of_find?_eq_some hl))).2
      obtain ⟨b', hstep, hhandlers', hloop', hb', hsends'⟩ :=
        umbrellaReact_eq hhandlers hb hloop hbody hshort
      have hreact : (bus room calls blank).react s.world umbrellaAddr l.body =
          umbrellaReact s.world l.body := if_pos rfl
      refine ⟨hup, btr ++ [(b, ⟨l.body, sendAll⟩)], b', hrun.snoc hstep, ?_, ?_, ?_, hhandlers',
        hloop'⟩
      · have htaken : takenBy umbrellaAddr [(s, .take umbrellaAddr)] = [l.body] := by
          simp [takenBy, hl]
        rw [takenBy_snoc, htaken, List.map_append, htr]
        rfl
      · rw [hreact]
        exact hb'
      · have hsent : sentBy umbrellaAddr [(s, .take umbrellaAddr)] = [] := rfl
        rw [sentBy_snoc, hsent, List.append_nil, hsends', hsends, hfree, List.append_nil, ← hreact]
        exact congrArg (sentBy umbrellaAddr tr ++ ·) (Function.update_self _ _ s.todo).symm
    · have hreact : (bus room calls blank).react s.world p l.body =
          appReact calls s.world p l.body := if_neg hp
      have htaken : takenBy umbrellaAddr [(s, .take p)] = [] := by
        simp [takenBy, hp]
      refine hs.of_other htaken rfl rfl ?_ (Function.update_of_ne (Ne.symm hp) _ _)
      rw [hreact]
      exact receivers_appReact s.world p l.body
  | @send p q m todo htodo hspace =>
    by_cases hp : p = umbrellaAddr
    · subst hp
      obtain ⟨hup, btr, b, hrun, htr, hb, hsends, hloop⟩ := hs
      refine ⟨hup, btr, b, hrun, ?_, hb, ?_, hloop⟩
      · have htaken : takenBy umbrellaAddr [(s, .send umbrellaAddr)] = [] := rfl
        rw [takenBy_snoc, htaken, List.append_nil]
        exact htr
      · have hsent : sentBy umbrellaAddr [(s, .send umbrellaAddr)] = [(q, m)] := by
          simp [sentBy, htodo]
        rw [sentBy_snoc, hsent, hsends, htodo, List.append_assoc, List.singleton_append]
        exact congrArg (sentBy umbrellaAddr tr ++ (q, m) :: ·)
          (Function.update_self _ _ s.todo).symm
    · have hsent : sentBy umbrellaAddr [(s, .send p)] = [] := by
        simp [sentBy, hp]
      exact hs.of_other rfl hsent rfl rfl (Function.update_of_ne (Ne.symm hp) _ _)
  | post hlive hsends hspace => exact hs.of_other rfl rfl rfl rfl rfl
  | @start p hdown =>
    have hp : p ≠ umbrellaAddr := by
      rintro rfl
      rw [hs.live] at hdown
      cases hdown
    refine hs.of_other rfl rfl (Function.update_of_ne (Ne.symm hp) _ _) ?_ rfl
    show ((if p = umbrellaAddr then _ else _ : Parties H F)).receivers = _
    rw [if_neg hp]
  | @exit p hlive =>
    have hp : p ≠ umbrellaAddr := fun hp => hstays (hp ▸ rfl)
    exact hs.of_other rfl rfl (Function.update_of_ne (Ne.symm hp) _ _) rfl
      (Function.update_of_ne (Ne.symm hp) _ _)
  | @change c w hw =>
    rw [← Option.some.inj hw]
    exact hs.of_other rfl rfl rfl rfl rfl

/-- **What the umbrella's worker sends, and has still to send, is what `Bus`
relays** of the datagrams that it has taken, where the addresses fit. -/
theorem relays_run (h : Run (bus room calls blank).step (start blank) tr s)
    (hstays : ∀ c ∈ tr, c.2 ≠ .exit umbrellaAddr) (hshort : ∀ c ∈ tr, Short c.1.world) :
    ∃ btr b, Run (Bus.step .umbrella Bus.umbrellaOnCall) (.new Bus.umbrellaHandlers) btr b ∧
      btr.map (fun v => v.2.datagram) = takenBy umbrellaAddr tr ∧
        b.receivers = s.world.receivers ∧
          b.sends.flatMap outgoing = sentBy umbrellaAddr tr ++ s.todo umbrellaAddr := by
  have hrun := h.history_of (C := fun t act => act ≠ .exit umbrellaAddr ∧ Short t.world)
    (I := fun tr s => (bus room calls blank).Inv s ∧ Relaying tr s)
    ⟨Exchange.inv_of_idle ⟨rfl, fun _ => rfl⟩, relaying_start⟩
    (fun _ _ _ _ ht ha hu =>
      ⟨Exchange.inv_step proper ht.1 hu, relaying_step ht.1 ht.2 ha.1 ha.2 hu⟩)
    fun c hc => ⟨hstays c hc, hshort c hc⟩
  obtain ⟨btr, b, hbus, htaken, hreceivers, hsends, -⟩ := hrun.2.bus
  exact ⟨btr, b, hbus, htaken, hreceivers, hsends⟩

end Relays

/-! ### Deadlock -/

section Deadlock

variable {room : List (Letter CString Bytes) → Letter CString Bytes → Bool}
  {calls : H → F → CString → CString → F × List (CString × CString)} {blank : F}
  {s : State H F} {tr : List (State H F × Action H)}

/-- Whoever waits for an app, or is one that waits, has to do with the umbrella. -/
theorem umbrella_of_waits {p q : CString} (hinv : (bus room calls blank).Inv s)
    (h : Exchange.Waits s p q) : p = umbrellaAddr ∨ q = umbrellaAddr := by
  obtain ⟨l, hl, rfl, rfl | ⟨m, todo, htodo⟩⟩ := h
  · exact (sends_iff.mp (hinv.mail_sends l hl)).1
  · have hmem : (l.receiver, m) ∈ s.todo p := by
      rw [htodo]
      exact List.mem_cons_self
    exact (sends_iff.mp (hinv.todo_sends p _ hmem)).1

/-- **The bus stops for one reason only, and for good.**  When no receiver
thread can go on and there is something left to do, the umbrella's thread and
that of an app wait for each other in `sendto`, or the umbrella's for itself;
and as long as none of those that take part in it exits, they never take or send
anything again, whatever the others do. -/
theorem deadlock_for_good (hroom : (bus room calls blank).Roomy)
    (h : Run (bus room calls blank).step (start blank) tr s)
    (hstuck : (bus room calls blank).Stuck s) (hidle : ¬ Exchange.Idle s) :
    (Exchange.Busy s umbrellaAddr ∧ ∃ a, Exchange.Busy s a ∧
      Exchange.Waits s umbrellaAddr a ∧ Exchange.Waits s a umbrellaAddr) ∧
    ∀ tr' u, Run (bus room calls blank).step s tr' u →
      (∀ c ∈ tr', ∀ p, Exchange.Involved s p → c.2 ≠ .exit p) →
        ∀ p, Exchange.Busy s p → u.todo p = s.todo p ∧
          (bus room calls blank).step u (.take p) = none ∧
            (bus room calls blank).step u (.send p) = none := by
  have hinv := inv_run h
  refine ⟨?_, fun tr' u hrun hstays p hp => ?_⟩
  · -- somebody blocks
    obtain ⟨p, hp⟩ : ∃ p, Exchange.Busy s p := by
      by_contra hnone
      refine hidle ⟨List.eq_nil_iff_forall_not_mem.mpr fun l hl => ?_,
        fun p => not_not.mp fun hp => hnone ⟨p, hp⟩⟩
      exact hnone ⟨_, Exchange.busy_of_mail hinv hstuck hl⟩
    -- an app waits for nobody but the umbrella
    have happ : ∀ q, Exchange.Busy s q → q ≠ umbrellaAddr →
        Exchange.Busy s umbrellaAddr ∧ Exchange.Waits s q umbrellaAddr := by
      intro q hq hne
      obtain ⟨r, hr, hqr⟩ := Exchange.waits_of_stuck hroom hinv hstuck hq
      obtain rfl := (umbrella_of_waits hinv hqr).resolve_left hne
      exact ⟨hr, hqr⟩
    have humbrella : Exchange.Busy s umbrellaAddr := by
      by_cases hpu : p = umbrellaAddr
      · rw [← hpu]
        exact hp
      · exact (happ p hp hpu).1
    obtain ⟨a, ha, hwaits⟩ := Exchange.waits_of_stuck hroom hinv hstuck humbrella
    refine ⟨humbrella, a, ha, hwaits, ?_⟩
    by_cases hau : a = umbrellaAddr
    · rw [hau] at hwaits ⊢
      exact hwaits
    · exact (happ a ha hau).2
  · obtain ⟨hholds, hnone⟩ := Exchange.stuck_run hroom hinv hstuck hrun hstays
    exact ⟨hholds.todo p hp, hnone p hp⟩

end Deadlock

/-! ### Without handlers that send -/

section Quiet

variable {room : List (Letter CString Bytes) → Letter CString Bytes → Bool}
  {calls : H → F → CString → CString → F × List (CString × CString)} {blank : F}
  {s u : State H F} {tr : List (State H F × Action H)} {act : Action H}
  {w : Parties H F} {d : Bytes} {a e : CString} {A B : Finset CString}

/-- A handler that sends nothing itself. -/
def Quiet (calls : H → F → CString → CString → F × List (CString × CString)) (handler : H) : Prop :=
  ∀ f evt msg, (calls handler f evt msg).2 = []

/-- The addresses that a datagram registers. -/
def registrants (d : Bytes) : Finset CString :=
  match Net.decode d with
  | none => ∅
  | some (evt, msg) =>
    if evt = iflyosDoRegisterEvtReceiver then ((Net.subscriptions msg).map Prod.snd).toFinset
    else ∅

/-- A handler that is installed is quiet, and a datagram to the umbrella's socket
is not the umbrella's own and registers neither its address nor one that does not
fit a `sun_path`. -/
def Regular (calls : H → F → CString → CString → F × List (CString × CString)) :
    Action H → Prop
  | .post l => l.receiver = umbrellaAddr →
      l.sender ≠ umbrellaAddr ∧ umbrellaAddr ∉ registrants l.body ∧
        ∀ a ∈ registrants l.body, a.length ≤ 106
  | .change c => ∀ h, c.2.1 = some h → Quiet calls h
  | .take _ | .send _ | .start _ | .exit _ => True

theorem members_umbrellaReact
    (h : a ∈ SetTable.members (umbrellaReact w d).1.receivers e) :
    a ∈ SetTable.members w.receivers e ∨ a ∈ registrants d := by
  rw [umbrellaReact] at h
  split at h
  · rename_i handler evt msg hr
    obtain ⟨hread, hhandler⟩ := Bus.of_receive_eq_invoke hr
    cases handler with
    | interfaceRegisteration =>
      change a ∈ SetTable.members (interfaceRegisteration w.receivers msg) e at h
      rw [Net.receivers_interfaceRegisteration, SetTable.mem_insertAll_iff] at h
      rcases h with h | h
      · exact Or.inl h
      · refine Or.inr ?_
        have hdecode : Net.decode d = some (evt, msg) := hread
        rw [registrants, hdecode]
        simp only [Bus.evt_of_interfaceRegisteration hhandler, if_true, List.mem_toFinset]
        exact List.mem_map_of_mem h
    | onIflyosDoStart | onIflyosDoStop | onCustomDirective => exact Or.inl h
  all_goals exact Or.inl h

theorem handlers_umbrellaReact : (umbrellaReact w d).1.handlers = w.handlers := by
  rw [umbrellaReact]
  split <;> rfl

theorem length_umbrellaReact (hA : ∀ e, SetTable.members w.receivers e ⊆ A) :
    (umbrellaReact w d).2.length ≤ A.card + 1 := by
  rw [umbrellaReact]
  split
  · exact Nat.zero_le _
  · rename_i evt msg hr
    rw [outgoing, List.length_map, interfaceUmbrellaSendEvent]
    cases hreceivers : w.receivers evt with
    | none => exact Nat.zero_le _
    | some addresses =>
      have hcard : addresses.card ≤ A.card := by
        have hle := Finset.card_le_card (hA evt)
        rwa [SetTable.members_of_eq_some hreceivers] at hle
      simp only
      split
      · exact Nat.zero_le _
      · have hsent := (List.takeWhile_sublist (l := addresses.sort)
          fun address => (sunPath address).isSome).length_le
        rw [Finset.length_sort] at hsent
        rw [List.length_map]
        omega
  · rw [outgoing, List.length_map, interfaceUmbrellaSendAction, sendTo]
    split
    · exact Nat.zero_le _
    · exact Nat.le_add_left _ _
  all_goals exact Nat.zero_le _

theorem handlers_appReact : (appReact calls w a d).1.handlers = w.handlers := by
  rw [appReact]
  split <;> rfl

theorem appReact_of_quiet (hquiet : ∀ evt h, w.handlers a evt = some h → Quiet calls h) :
    (appReact calls w a d).2 = [] := by
  rw [appReact]
  split
  · rename_i handler evt msg hr
    have hnone := hquiet evt handler (Bus.of_receive_eq_invoke hr).2 (w.memory a) evt msg
    simp only [hnone, List.flatMap_nil]
  all_goals rfl

/-- No app has a handler that sends, and all that goes to the umbrella's socket
comes from an app and registers addresses of `A`. -/
structure Calm (calls : H → F → CString → CString → F × List (CString × CString))
    (A : Finset CString) (s : State H F) : Prop where
  receivers : ∀ e, SetTable.members s.world.receivers e ⊆ A
  quiet : ∀ a evt h, s.world.handlers a evt = some h → Quiet calls h
  free : ∀ a, a ≠ umbrellaAddr → s.todo a = []
  letters : ∀ l ∈ s.mail, l.receiver = umbrellaAddr →
    l.sender ≠ umbrellaAddr ∧ registrants l.body ⊆ A
  todo : ∀ o ∈ s.todo umbrellaAddr, o.1 ∈ insert osAddr A

theorem Calm.mono (hs : Calm calls A s) (h : A ⊆ B) : Calm calls B s where
  receivers e := (hs.receivers e).trans h
  quiet := hs.quiet
  free := hs.free
  letters l hl hto := ⟨(hs.letters l hl hto).1, (hs.letters l hl hto).2.trans h⟩
  todo o ho := Finset.insert_subset_insert _ h (hs.todo o ho)

theorem calm_start : Calm calls ∅ (start blank : State H F) where
  receivers _ := Finset.empty_subset _
  quiet _ _ _ h := by cases h
  free _ _ := rfl
  letters _ hl := by cases hl
  todo _ ho := by cases ho

theorem ne_of_mem (hA : umbrellaAddr ∉ A) (ha : a ∈ insert osAddr A) : a ≠ umbrellaAddr := by
  have hos : osAddr ≠ umbrellaAddr := by decide +kernel
  rintro rfl
  rcases Finset.mem_insert.mp ha with h | h
  · exact hos h.symm
  · exact hA h

/-- What a process has still to send. -/
theorem Calm.todo_update (hs : Calm calls A s) (a : CString) (todo : List (CString × Bytes))
    (hother : a ≠ umbrellaAddr → todo = [])
    (humbrella : a = umbrellaAddr → ∀ o ∈ todo, o.1 ∈ insert osAddr A) :
    (∀ b, b ≠ umbrellaAddr → Function.update s.todo a todo b = []) ∧
      ∀ o ∈ Function.update s.todo a todo umbrellaAddr, o.1 ∈ insert osAddr A := by
  constructor
  · intro b hb
    by_cases hba : b = a
    · subst hba
      rw [Function.update_self]
      exact hother hb
    · rw [Function.update_of_ne hba]
      exact hs.free b hb
  · by_cases ha : a = umbrellaAddr
    · subst ha
      rw [Function.update_self]
      exact humbrella rfl
    · rw [Function.update_of_ne (Ne.symm ha)]
      exact hs.todo

/-- The handlers of an app are replaced. -/
theorem Calm.quiet_update {table : Handlers H} (hs : Calm calls A s)
    (htable : ∀ evt h, table evt = some h → Quiet calls h) :
    ∀ b evt h, Function.update s.world.handlers a table b evt = some h → Quiet calls h := by
  intro b evt h hh
  by_cases hba : b = a
  · subst hba
    rw [Function.update_self] at hh
    exact htable evt h hh
  · rw [Function.update_of_ne hba] at hh
    exact hs.quiet b evt h hh

/-- The umbrella takes a datagram. -/
theorem Calm.take_umbrella {l : Letter CString Bytes} (hs : Calm calls A s)
    (hl : s.mail.find? (Exchange.addressed umbrellaAddr) = some l) :
    Calm calls A { s with
      mail := s.mail.eraseP (Exchange.addressed umbrellaAddr)
      todo := Function.update s.todo umbrellaAddr (umbrellaReact s.world l.body).2
      world := (umbrellaReact s.world l.body).1 } := by
  have hto := Exchange.addressed_iff.mp (Exchange.find_cases hl).1
  obtain ⟨hfree, htodo⟩ := hs.todo_update umbrellaAddr (umbrellaReact s.world l.body).2
    (fun hne => absurd rfl hne) fun _ o ho => by
      rcases (mem_umbrellaReact ho).1 with hos | ⟨evt, hmember⟩
      · exact Finset.mem_insert.mpr (Or.inl hos)
      · exact Finset.mem_insert_of_mem (hs.receivers evt hmember)
  refine ⟨fun e a ha => ?_, ?_, hfree,
    fun l' hl' => hs.letters l' (List.mem_of_mem_eraseP hl'), htodo⟩
  · rcases members_umbrellaReact ha with ha | ha
    · exact hs.receivers e ha
    · exact (hs.letters l (List.mem_of_find?_eq_some hl) hto).2 ha
  · show ∀ a evt h, (umbrellaReact s.world l.body).1.handlers a evt = some h → _
    rw [handlers_umbrellaReact]
    exact hs.quiet

/-- An app takes a datagram. -/
theorem Calm.take_app {l : Letter CString Bytes} (hs : Calm calls A s) (ha : a ≠ umbrellaAddr) :
    Calm calls A { s with
      mail := s.mail.eraseP (Exchange.addressed a)
      todo := Function.update s.todo a (appReact calls s.world a l.body).2
      world := (appReact calls s.world a l.body).1 } := by
  obtain ⟨hfree, htodo⟩ := hs.todo_update a (appReact calls s.world a l.body).2
    (fun _ => appReact_of_quiet (hs.quiet a)) fun hau => absurd hau ha
  refine ⟨?_, ?_, hfree, fun l' hl' => hs.letters l' (List.mem_of_mem_eraseP hl'), htodo⟩
  · show ∀ e, SetTable.members (appReact calls s.world a l.body).1.receivers e ⊆ A
    rw [receivers_appReact]
    exact hs.receivers
  · show ∀ b evt h, (appReact calls s.world a l.body).1.handlers b evt = some h → _
    rw [handlers_appReact]
    exact hs.quiet

theorem calm_step (hA : umbrellaAddr ∉ A) (hs : Calm calls A s) (hreg : Regular calls act)
    (hpost : ∀ l, act = .post l → l.receiver = umbrellaAddr → registrants l.body ⊆ A)
    (h : (bus room calls blank).step s act = some u) : Calm calls A u := by
  cases Exchange.step_cases h with
  | @take p l hlive hidle hl =>
    by_cases hp : p = umbrellaAddr
    · subst hp
      have hreact : (bus room calls blank).react s.world umbrellaAddr l.body =
          umbrellaReact s.world l.body := if_pos rfl
      rw [hreact]
      exact hs.take_umbrella hl
    · have hreact : (bus room calls blank).react s.world p l.body =
          appReact calls s.world p l.body := if_neg hp
      rw [hreact]
      exact hs.take_app hp
  | @send p q m todo hp hspace =>
    have hpu : p = umbrellaAddr := by
      by_contra hne
      rw [hs.free p hne] at hp
      cases hp
    subst hpu
    have hall : ∀ o ∈ (q, m) :: todo, o.1 ∈ insert osAddr A := hp ▸ hs.todo
    obtain ⟨hfree, htodo⟩ := hs.todo_update umbrellaAddr todo
      (fun hne => absurd rfl hne) fun _ o ho => hall o (List.mem_cons_of_mem _ ho)
    refine ⟨hs.receivers, hs.quiet, hfree, fun l hl hto => ?_, htodo⟩
    rcases Exchange.mem_deliver hl with hl | ⟨rfl, -⟩
    · exact hs.letters l hl hto
    · exact absurd hto (ne_of_mem hA (hall (q, m) List.mem_cons_self))
  | @post l hlive hsends hspace =>
    refine ⟨hs.receivers, hs.quiet, hs.free, fun l' hl' hto => ?_, hs.todo⟩
    rcases Exchange.mem_deliver hl' with hl' | ⟨rfl, -⟩
    · exact hs.letters l' hl' hto
    · exact ⟨(hreg hto).1, hpost _ rfl hto⟩
  | @start p hdown =>
    have hworld : ((bus room calls blank).start s.world p) =
        if p = umbrellaAddr then { s.world with receivers := SetTable.empty }
        else { s.world with
          handlers := Function.update s.world.handlers p fun _ => none
          memory := Function.update s.world.memory p blank } := rfl
    rw [hworld]
    split
    · exact ⟨fun _ => Finset.empty_subset _, hs.quiet, hs.free, hs.letters, hs.todo⟩
    · refine ⟨hs.receivers, hs.quiet_update fun evt k hnone => ?_, hs.free, hs.letters, hs.todo⟩
      cases hnone
  | @exit p hlive =>
    obtain ⟨hfree, htodo⟩ := hs.todo_update p [] (fun _ => rfl)
      fun _ o ho => absurd ho List.not_mem_nil
    exact ⟨hs.receivers, hs.quiet, hfree, fun l hl => hs.letters l (List.mem_filter.mp hl).1,
      htodo⟩
  | @change c w hw =>
    obtain ⟨b, handler, evt'⟩ := c
    obtain rfl := Option.some.inj hw
    refine ⟨hs.receivers, hs.quiet_update fun evt k hk => ?_, hs.free, hs.letters, hs.todo⟩
    rw [Bus.interfaceRegisterHandler] at hk
    by_cases hevt : evt = evt'
    · subst hevt
      rw [Function.update_self] at hk
      exact hreg k hk
    · rw [Function.update_of_ne hevt] at hk
      exact hs.quiet b evt k hk

/-- What is left to do: a datagram at the umbrella may still be relayed to every
address. -/
def rank (A : Finset CString) (s : State H F) : ℕ :=
  s.mail.countP (Exchange.addressed umbrellaAddr) * (2 * A.card + 3) +
    2 * (s.todo umbrellaAddr).length + s.mail.countP fun l => !Exchange.addressed umbrellaAddr l

theorem rank_step (hA : umbrellaAddr ∉ A) (hs : Calm calls A s) (hown : Exchange.Own act)
    (h : (bus room calls blank).step s act = some u) : rank A u < rank A s := by
  cases Exchange.step_cases h with
  | @take p l hlive hidle hl =>
    have hto := (Exchange.find_cases hl).1
    have hwaiting := Exchange.countP_eraseP (g := Exchange.addressed umbrellaAddr) hl
    have hothers := Exchange.countP_eraseP (g := fun l => !Exchange.addressed umbrellaAddr l) hl
    rw [rank, rank, hwaiting, hothers]
    by_cases hp : p = umbrellaAddr
    · subst hp
      have hreact : (bus room calls blank).react s.world umbrellaAddr l.body =
          umbrellaReact s.world l.body := if_pos rfl
      have hlength := length_umbrellaReact (d := l.body) hs.receivers
      simp only [hto, hidle, hreact, Function.update_self, if_true, Bool.not_true,
        Bool.false_eq_true, if_false, List.length_nil, Nat.succ_mul]
      omega
    · have hother : Exchange.addressed umbrellaAddr l = false := by
        rw [Bool.eq_false_iff, Ne, Exchange.addressed_iff]
        rw [Exchange.addressed_iff] at hto
        exact fun hu => hp (hto.symm.trans hu)
      simp only [hother, Function.update_of_ne (Ne.symm hp), Bool.false_eq_true, if_false,
        Bool.not_false, if_true, Nat.add_zero]
      omega
  | @send p q m todo hp hspace =>
    have hpu : p = umbrellaAddr := by
      by_contra hne
      rw [hs.free p hne] at hp
      cases hp
    subst hpu
    have hq : q ≠ umbrellaAddr :=
      ne_of_mem hA (hs.todo (q, m) (by rw [hp]; exact List.mem_cons_self))
    have hother : Exchange.addressed umbrellaAddr (⟨umbrellaAddr, q, m⟩ : Letter CString Bytes) =
        false := by
      rw [Bool.eq_false_iff, Ne, Exchange.addressed_iff]
      exact hq
    simp only [rank, hp, Function.update_self, List.length_cons, Exchange.deliver]
    split
    · simp only [List.countP_append, List.countP_singleton, hother, Bool.false_eq_true, if_false,
        Bool.not_false, if_true, Nat.add_zero]
      omega
    · omega
  | post _ _ _ | start _ | exit _ | change _ => exact hown.elim

/-- Where no worker can go on, nothing is left. -/
theorem idle_of_calm (hroom : (bus room calls blank).Roomy) (hinv : (bus room calls blank).Inv s)
    (hA : umbrellaAddr ∉ A) (hs : Calm calls A s) (hstuck : (bus room calls blank).Stuck s) :
    Exchange.Idle s := by
  refine Exchange.idle_of_wellFounded emptyWf.wf hroom hinv hstuck fun p q hp hq hwaits => ?_
  -- only the umbrella's worker sends, and not to itself
  have hall : ∀ p, Exchange.Busy s p → p = umbrellaAddr :=
    fun p hp => by_contra fun hne => hp (hs.free p hne)
  obtain rfl := hall p hp
  obtain rfl := hall q hq
  obtain ⟨l, hl, hto, hsender | ⟨m, todo, htodo⟩⟩ := hwaits
  · exact absurd hsender (hs.letters l hl hto).1
  · exact absurd rfl
      (ne_of_mem hA (hs.todo (umbrellaAddr, m) (by rw [htodo]; exact List.mem_cons_self)))

theorem exists_calm (h : Run (bus room calls blank).step (start blank) tr s)
    (hreg : ∀ c ∈ tr, Regular calls c.2) :
    ∃ A, umbrellaAddr ∉ A ∧ (∀ a ∈ A, a.length ≤ 106) ∧ Calm calls A s := by
  refine h.invariant_of (C := fun _ act => Regular calls act)
    (I := fun s => ∃ A, umbrellaAddr ∉ A ∧ (∀ a ∈ A, a.length ≤ 106) ∧ Calm calls A s)
    ⟨∅, Finset.notMem_empty _, by simp, calm_start⟩ ?_ hreg
  rintro t act v ⟨A, hA, hshort, ht⟩ hact hv
  by_cases hpost : ∃ l, act = .post l ∧ l.receiver = umbrellaAddr
  · obtain ⟨l, rfl, hto⟩ := hpost
    obtain ⟨-, hnot, hfit⟩ := hact hto
    have hnew : umbrellaAddr ∉ A ∪ registrants l.body :=
      fun hmem => (Finset.mem_union.mp hmem).elim hA hnot
    refine ⟨_, hnew, fun a ha => (Finset.mem_union.mp ha).elim (hshort a) (hfit a),
      calm_step hnew (ht.mono Finset.subset_union_left) hact ?_ hv⟩
    rintro l' hl' -
    obtain rfl := Exchange.Action.post.inj hl'
    exact Finset.subset_union_right
  · exact ⟨A, hA, hshort, calm_step hA ht hact (fun l hl hto => absurd ⟨l, hl, hto⟩ hpost) hv⟩

/-- So what the umbrella relays goes to every receiver. -/
theorem relays_of_regular (h : Run (bus room calls blank).step (start blank) tr s)
    (hstays : ∀ c ∈ tr, c.2 ≠ .exit umbrellaAddr) (hreg : ∀ c ∈ tr, Regular calls c.2) :
    ∃ btr b, Run (Bus.step .umbrella Bus.umbrellaOnCall) (.new Bus.umbrellaHandlers) btr b ∧
      btr.map (fun v => v.2.datagram) = takenBy umbrellaAddr tr ∧
        b.receivers = s.world.receivers ∧
          b.sends.flatMap outgoing = sentBy umbrellaAddr tr ++ s.todo umbrellaAddr := by
  refine relays_run h hstays fun c hc => ?_
  obtain ⟨tr₁, tr₂, rfl⟩ := List.append_of_mem hc
  obtain ⟨A, -, hshort, hcalm⟩ :=
    exists_calm h.split.1 fun c' hc' => hreg c' (List.mem_append_left _ hc')
  exact fun e a ha => hshort a (hcalm.receivers e ha)

/-- **Handlers that do not send keep the bus going.**  When every handler that
an app has installed is quiet, and nobody has registered the umbrella's own
address or one that does not fit a `sun_path`, the workers come to rest in
boundedly many steps, whatever the order, and rest only when every datagram has
been taken and every relay has been sent. -/
theorem empties (hroom : (bus room calls blank).Roomy)
    (h : Run (bus room calls blank).step (start blank) tr s)
    (hreg : ∀ c ∈ tr, Regular calls c.2) :
    (∃ n, ∀ tr' u, Run (bus room calls blank).step s tr' u → (∀ c ∈ tr', Exchange.Own c.2) →
      tr'.length ≤ n ∧ ((bus room calls blank).Stuck u → Exchange.Idle u)) ∧
    ∃ tr' u, Run (bus room calls blank).step s tr' u ∧ (∀ c ∈ tr', Exchange.Own c.2) ∧
      Exchange.Idle u := by
  obtain ⟨A, hA, -, hs⟩ := exists_calm h hreg
  have hinv : (bus room calls blank).Inv s ∧ Calm calls A s := ⟨inv_run h, hs⟩
  have hstep : ∀ t act v, (bus room calls blank).Inv t ∧ Calm calls A t → Exchange.Own act →
      (bus room calls blank).step t act = some v →
        ((bus room calls blank).Inv v ∧ Calm calls A v) ∧ rank A v < rank A t := by
    rintro t act v ⟨ht, hcalm⟩ hown hv
    have hact : Regular calls act := by
      cases act with
      | take _ | send _ => trivial
      | post _ | start _ | exit _ | change _ => exact hown.elim
    refine ⟨⟨Exchange.inv_step proper ht hv, calm_step hA hcalm hact ?_ hv⟩,
      rank_step hA hcalm hown hv⟩
    rintro l rfl
    exact hown.elim
  refine ⟨⟨rank A s, fun tr' u hrun hown => ⟨?_, fun hstuck => ?_⟩⟩, ?_⟩
  · have hle := hrun.length_add_le (f := rank A) hinv hstep hown
    omega
  · have hu := hrun.invariant_of (C := fun _ act => Exchange.Own act)
      (I := fun t => (bus room calls blank).Inv t ∧ Calm calls A t) hinv
      (fun t act v ht hown hv => (hstep t act v ht hown hv).1) hown
    exact idle_of_calm hroom hu.1 hA hu.2 hstuck
  · obtain ⟨tr', u, hrun, hown, hrests⟩ := Run.exists_rests (f := rank A)
      (C := fun _ act => Exchange.Own act) hstep hinv
    have hu := hrun.invariant_of (C := fun _ act => Exchange.Own act)
      (I := fun t => (bus room calls blank).Inv t ∧ Calm calls A t) hinv
      (fun t act v ht hown hv => (hstep t act v ht hown hv).1) hown
    exact ⟨tr', u, hrun, hown, idle_of_calm hroom hu.1 hA hu.2 hrests⟩

end Quiet

end Congestion
