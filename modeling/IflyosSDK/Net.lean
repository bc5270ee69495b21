/-
The whole bus: any number of apps and the umbrella between them.

An app is a process with an address of its own, as in `Endpoint`; it starts,
binds its socket, registers, takes what arrives and exits again.  All that is
sent goes through the umbrella's socket, where one worker takes the datagrams
in their order and relays them; the umbrella's console and its executor send
messages of their own past that socket.

Two things are assumed.  A relay to all subscribers is one step: the loop of
`sendto` runs outside the lock, and an EVT_STOPPED of the executor that comes
between two of its sends is taken to come before or behind them all.  And the
umbrella stays up: a run ends where an event would be sent to an address of more
than 106 bytes, whose copy overruns the umbrella's stack.

* `Net.step` — one step of an app, of the umbrella or of a sender;
* `Net.simulates` — a step of the bus is an operation of `PubSub`;
* `Net.refines` — **the bus is a publish-subscribe broker**;
* `Net.handled_once` — **a message to an app that stays is handled once**, in
  the order in which the messages of its name were sent;
* `Net.nothing_invented` — and an app that comes and goes hears nothing else.
-/
import IflyosSDK.AppLives
import IflyosSDK.PubSub
import IflyosSDK.Simulation

/-- The umbrella's socket, the umbrella, and the process at each address. -/
structure Net (H : Type*) where
  inbox : List Bytes
  umbrella : Bus Bus.UmbrellaHandler
  apps : CString → Option (Endpoint H)

/-- What the umbrella sends on its own: the end of the app, and the messages of
its console. -/
inductive OwnSend
  | stopped
  | clearDataThenQuit
  | customContext
  | customEvent

namespace OwnSend

def evt : OwnSend → CString
  | .stopped => iflyosEvtStopped
  | .clearDataThenQuit => CString.ofString "DO_CLEAR_DATA_THEN_QUIT"
  | .customContext => CString.ofString "DO_CUSTOM_CONTEXT"
  | .customEvent => CString.ofString "DO_CUSTOM_EVENT"

def msg : OwnSend → CString
  | .stopped | .clearDataThenQuit => CString.ofString ""
  | .customContext => CString.ofString "\x7b\"name\": \"测试自定义上下文\"\x7d"
  | .customEvent => CString.ofString "\x7b\"name\": \"测试自定义事件\"\x7d"

def send (receivers : Receivers) (sendto : Datagram → SendResult) (o : OwnSend) : Sent :=
  match o with
  | .stopped => interfaceUmbrellaSendEvent receivers sendto o.evt o.msg
  | .clearDataThenQuit | .customContext | .customEvent =>
    interfaceUmbrellaSendAction sendto o.evt o.msg

end OwnSend

namespace Net

variable {H : Type*}

/-- The umbrella runs, and no app does. -/
def start : Net H := ⟨[], .new Bus.umbrellaHandlers, fun _ => none⟩

/-- What can happen next.  `todo` are the steps of the main thread of an app
that starts, `d` any datagram to the umbrella's socket. -/
inductive Action (H : Type*)
  | start (a : CString) (todo : List (InitStep H))
  | exit (a : CString)
  | init (a : CString)
  | take (a : CString)
  | lookup (a : CString)
  | send (d : Bytes)
  | umbrella
  | umbrellaSends (o : OwnSend)

/-- The next step of a main thread is the bind. -/
def binds (p : Endpoint H) : Bool :=
  match p.todo with
  | .bind :: _ => true
  | _ => false

/-- What the next step of a main thread sends: behind the handlers it has
installed the registration of their names. -/
def registers (a : CString) (p : Endpoint H) : List Bytes :=
  match p.todo with
  | .bindEvents :: _ => Lives.registrationDatagrams a (registrations p.done)
  | _ => []

/-- The process at an address is replaced. -/
def put (s : Net H) (a : CString) (p : Option (Endpoint H)) : Net H :=
  { s with apps := Function.update s.apps a p }

/-- Only a bound socket takes a datagram. -/
def sendto (s : Net H) (d : Datagram) : SendResult :=
  if ((s.apps d.dest).map Endpoint.bound).getD false then sendAll d else ⟨-1, 111⟩

/-- What the umbrella has sent arrives. -/
def deliver (sent : List Sent) (s : Net H) : Net H :=
  { s with apps := fun a => (s.apps a).map (Lives.deliver a sent) }

/-- The umbrella takes and processes a datagram. -/
def umbrellaStep (s : Net H) : Option (Net H) :=
  match s.inbox with
  | [] => none
  | d :: inbox =>
    (s.umbrella.step .umbrella Bus.umbrellaOnCall ⟨d, s.sendto⟩).bind fun b =>
      let sent := b.sends.drop s.umbrella.sends.length
      if ∀ x ∈ sent, x.overrun = none then
        some ({ s with inbox := inbox, umbrella := b }.deliver sent)
      else none

def step (s : Net H) : Action H → Option (Net H)
  | .start a todo => if (s.apps a).isSome then none else some (s.put a (some (.start todo)))
  | .exit a => if (s.apps a).isSome then some (s.put a none) else none
  | .init a =>
    (s.apps a).bind fun p =>
      -- the umbrella's address is in use
      if binds p ∧ a = umbrellaAddr then none
      else p.init.map fun p' => { s with inbox := s.inbox ++ registers a p }.put a (some p')
  | .take a => (s.apps a).bind fun p => p.take.map fun p' => s.put a (some p')
  | .lookup a =>
    (s.apps a).bind fun p =>
      (p.lookup .interface Bus.keep sendAll).map fun p' => s.put a (some p')
  | .send d => some { s with inbox := s.inbox ++ [d] }
  | .umbrella => s.umbrellaStep
  | .umbrellaSends o =>
    let sent := o.send s.umbrella.receivers s.sendto
    if sent.overrun = none then
      some ({ s with umbrella := s.umbrella.sentEvent sent }.deliver [sent])
    else none

/-! ### What a step does -/

/-- What the umbrella's worker sends on. -/
def relayed (s : Net H) : Received Bus.UmbrellaHandler → List Sent
  | .relayEvent evt msg => [interfaceUmbrellaSendEvent s.umbrella.receivers s.sendto evt msg]
  | .relayAction evt msg => [interfaceUmbrellaSendAction s.sendto evt msg]
  | .failed | .noSpace | .noHandler _ _ | .invoke _ _ _ => []

/-- What the umbrella's worker makes of a datagram. -/
def received (s : Net H) (d : Bytes) : Received Bus.UmbrellaHandler :=
  Worker.umbrella.receive s.umbrella.handlers (some d)

inductive Step (s : Net H) : Action H → Net H → Prop
  | start {a : CString} (todo : List (InitStep H)) (hdown : s.apps a = none) :
    Step s (.start a todo) (s.put a (some (.start todo)))
  | exit {a : CString} {p : Endpoint H} (hp : s.apps a = some p) : Step s (.exit a) (s.put a none)
  | init {a : CString} {p p' : Endpoint H} (hp : s.apps a = some p) (hinit : p.init = some p') :
    Step s (.init a) ({ s with inbox := s.inbox ++ registers a p }.put a (some p'))
  | take {a : CString} {p : Endpoint H} {d : Bytes} {queue : List Bytes} (hp : s.apps a = some p)
    (hqueue : p.queue = d :: queue) (hfree : p.taken = none) :
    Step s (.take a) (s.put a (some { p with queue := queue, taken := some d }))
  | lookup {a : CString} {p p' : Endpoint H} (hp : s.apps a = some p)
    (hlookup : p.lookup .interface Bus.keep sendAll = some p') :
    Step s (.lookup a) (s.put a (some p'))
  | send (d : Bytes) : Step s (.send d) { s with inbox := s.inbox ++ [d] }
  | umbrella {d : Bytes} {inbox : List Bytes} (hinbox : s.inbox = d :: inbox)
    (hfits : ∀ x ∈ s.relayed (s.received d), x.overrun = none) :
    Step s .umbrella ({ s with
      inbox := inbox
      umbrella := s.umbrella.receive Bus.umbrellaOnCall s.sendto (s.received d) }.deliver
        (s.relayed (s.received d)))
  | umbrellaSends (o : OwnSend) (hfits : (o.send s.umbrella.receivers s.sendto).overrun = none) :
    Step s (.umbrellaSends o) ({ s with
      umbrella := s.umbrella.sentEvent (o.send s.umbrella.receivers s.sendto) }.deliver
        [o.send s.umbrella.receivers s.sendto])

section Steps

variable {s u : Net H} {act : Action H}

theorem sends_receive (s : Net H) (r : Received Bus.UmbrellaHandler) :
    (s.umbrella.receive Bus.umbrellaOnCall s.sendto r).sends =
      s.umbrella.sends ++ s.relayed r := by
  cases r <;> simp [Bus.receive, Bus.sentEvent, relayed]

/-- A worker takes a datagram when it has none. -/
theorem taken_of_take {p p' : Endpoint H} (h : p.take = some p') : p.taken = none := by
  rw [Endpoint.take] at h
  split at h
  · cases h
  · split_ifs at h with hfree
    exact hfree.2.2

theorem step_cases (h : step s act = some u) : Step s act u := by
  cases act with
  | start a todo =>
    rw [step] at h
    split_ifs at h with hup
    rw [← Option.some.inj h]
    exact .start todo (by simpa using hup)
  | exit a =>
    rw [step] at h
    split_ifs at h with hup
    rw [← Option.some.inj h]
    obtain ⟨p, hp⟩ := Option.isSome_iff_exists.mp hup
    exact .exit hp
  | init a =>
    obtain ⟨p, hp, h⟩ := Option.bind_eq_some_iff.mp h
    split_ifs at h
    obtain ⟨p', hinit, rfl⟩ := Option.map_eq_some_iff.mp h
    exact .init hp hinit
  | take a =>
    obtain ⟨p, hp, h⟩ := Option.bind_eq_some_iff.mp h
    obtain ⟨p', htake, rfl⟩ := Option.map_eq_some_iff.mp h
    have hfree := taken_of_take htake
    obtain ⟨d, queue, hqueue, rfl⟩ := Endpoint.take_cases htake
    exact .take hp hqueue hfree
  | lookup a =>
    obtain ⟨p, hp, h⟩ := Option.bind_eq_some_iff.mp h
    obtain ⟨p', hlookup, rfl⟩ := Option.map_eq_some_iff.mp h
    exact .lookup hp hlookup
  | send d =>
    rw [← Option.some.inj h]
    exact .send d
  | umbrella =>
    rw [step, umbrellaStep] at h
    split at h
    · cases h
    · rename_i d inbox hinbox
      obtain ⟨b, hb, h⟩ := Option.bind_eq_some_iff.mp h
      have hreceive : b = s.umbrella.receive Bus.umbrellaOnCall s.sendto (s.received d) :=
        Bus.receive_of_step hb
      have hsends : b.sends.drop s.umbrella.sends.length = s.relayed (s.received d) := by
        rw [hreceive, sends_receive, List.drop_left]
      rw [hsends] at h
      dsimp only at h
      split_ifs at h with hfits
      rw [← Option.some.inj h, hreceive]
      exact .umbrella hinbox hfits
  | umbrellaSends o =>
    rw [step] at h
    split_ifs at h with hfits
    rw [← Option.some.inj h]
    exact .umbrellaSends o hfits

/-! ### What holds of every bus -/

/-- The umbrella keeps its handlers, and nothing waits at an address that is not
bound. -/
structure Inv (s : Net H) : Prop where
  handlers : s.umbrella.handlers = Bus.umbrellaHandlers
  unbound : ∀ a p, s.apps a = some p → p.bound = false → p.queue = []

theorem inv_start : Inv (start : Net H) := ⟨rfl, by simp [start]⟩

theorem Inv.put (hinv : Inv s) {a : CString} {p : Option (Endpoint H)} {inbox : List Bytes}
    (hp : ∀ q, p = some q → q.bound = false → q.queue = []) :
    Inv ({ s with inbox := inbox }.put a p) := by
  refine ⟨hinv.handlers, fun b q hq hbound => ?_⟩
  by_cases hb : b = a
  · subst hb
    have hsame : p = some q := by simpa [Net.put] using hq
    exact hp q hsame hbound
  · exact hinv.unbound b q (by simpa [Net.put, hb] using hq) hbound

/-- The umbrella has become `b`, and what it has sent arrives. -/
theorem Inv.deliver (hinv : Inv s) {inbox : List Bytes} {b : Bus Bus.UmbrellaHandler}
    (hb : b.handlers = Bus.umbrellaHandlers) (sent : List Sent) :
    Inv ({ s with inbox := inbox, umbrella := b }.deliver sent) := by
  refine ⟨hb, fun a p hp hbound => ?_⟩
  obtain ⟨q, hq, rfl⟩ := Option.map_eq_some_iff.mp hp
  obtain ⟨queue, hdeliver, hunbound, -⟩ := Lives.deliver_cases a sent q
  rw [hdeliver] at hbound ⊢
  rw [hunbound hbound]
  exact hinv.unbound a q hq hbound

/-- A step of the main thread unbinds nothing and takes nothing. -/
theorem unbound_init {p p' : Endpoint H} (h : p.init = some p')
    (hp : p.bound = false → p.queue = []) : p'.bound = false → p'.queue = [] := by
  obtain ⟨i, todo, -, rfl⟩ := Endpoint.init_cases h
  cases i with
  | bind => exact fun hbound => absurd hbound (by simp [Endpoint.perform])
  | startReceiver | registerHandler _ _ | bindEvents => exact hp

theorem inv_step (hinv : Inv s) (h : step s act = some u) : Inv u := by
  cases step_cases h with
  | start todo hdown => exact hinv.put fun q hq _ => by rw [← Option.some.inj hq]; rfl
  | exit hp => exact hinv.put fun q hq _ => by cases hq
  | init hp hinit =>
    refine hinv.put fun q hq => ?_
    rw [← Option.some.inj hq]
    exact unbound_init hinit (hinv.unbound _ _ hp)
  | take hp hqueue hfree =>
    refine hinv.put fun q hq hbound => ?_
    rw [← Option.some.inj hq] at hbound
    have hempty := hinv.unbound _ _ hp hbound
    rw [hqueue] at hempty
    cases hempty
  | lookup hp hlookup =>
    obtain ⟨d, b, -, -, rfl⟩ := Endpoint.lookup_cases hlookup
    refine hinv.put fun q hq hbound => ?_
    rw [← Option.some.inj hq] at hbound ⊢
    have hempty := hinv.unbound _ _ hp hbound
    exact hempty
  | send d => exact ⟨hinv.handlers, hinv.unbound⟩
  | @umbrella d inbox hinbox =>
    refine hinv.deliver ?_ _
    rw [← hinv.handlers]
    cases s.received d <;> rfl
  | umbrellaSends o hfits =>
    refine hinv.deliver ?_ _
    exact hinv.handlers

end Steps

/-! ### The broker -/

/-- An event name and a payload. -/
abbrev Message := CString × CString

/-- What a worker reads from a datagram. -/
def decode (d : Bytes) : Option Message := readMessage (recvfrom d)

/-- What waits at an address that is bound. -/
def mailbox (p : Option (Endpoint H)) : Option (List Message) :=
  p.bind fun p => if p.bound then some (p.queue.filterMap decode) else none

/-- The bus as a broker: the registrations that the umbrella has, and the
sockets. -/
def broker (s : Net H) : PubSub CString CString Message :=
  ⟨fun e => SetTable.members s.umbrella.receivers e, fun a => mailbox (s.apps a)⟩

/-- What `IFLYOS_InterfaceRegisteration` inserts. -/
def subscriptions (msg : CString) : List (CString × CString) :=
  match msg.splitAt space with
  | none => []
  | some (intfVerStr, str) =>
    if atoi (intfVerStr.bytes ++ [0]) ≠ some iflyosInterfaceCurrentVersion then []
    else
      match str.splitAt space with
      | none => []
      | some (addr, events) => (eventVector events).map fun event => (event, addr)

/-- What the umbrella does with a datagram, for the broker. -/
def opOfReceived : Received Bus.UmbrellaHandler → Option (PubSub.Op CString CString Message)
  | .invoke .interfaceRegisteration _ msg => some (.subscribe (subscriptions msg))
  | .relayEvent evt msg => some (.publish (evt, msg))
  | .relayAction evt msg => some (.tell osAddr (evt, msg))
  | .invoke .onIflyosDoStart _ _ | .invoke .onIflyosDoStop _ _ | .invoke .onCustomDirective _ _ =>
    none
  | .failed | .noSpace | .noHandler _ _ => none

def OwnSend.op : OwnSend → PubSub.Op CString CString Message
  | .stopped => .publish (OwnSend.stopped.evt, OwnSend.stopped.msg)
  | o => .tell osAddr (o.evt, o.msg)

/-- What a step is for the broker. -/
def opOf : Net H × Action H → Option (PubSub.Op CString CString Message)
  | (s, .exit a) => (s.apps a).bind fun p => if p.bound then some (.leave a) else none
  | (s, .init a) =>
    (s.apps a).bind fun p => if binds p ∧ p.bound = false then some (.join a) else none
  | (s, .take a) =>
    (s.apps a).bind fun p => if (p.queue.head?.bind decode).isSome then some (.take a) else none
  | (s, .umbrella) => s.inbox.head?.bind fun d => opOfReceived (s.received d)
  | (_, .umbrellaSends o) => some (OwnSend.op o)
  | (_, .start _ _) | (_, .lookup _) | (_, .send _) => none

/-! ### What is relayed is read again -/

theorem decode_message {evt msg : CString} (hevt : space ∉ evt.bytes)
    (hfits : (message evt msg).length ≤ 4095) : decode (message evt msg) = some (evt, msg) := by
  rw [length_message] at hfits
  exact (readMessage_recvfrom_iff hevt).mpr hfits

/-- What arrives at an address of what the umbrella has sent. -/
def arriving (a : CString) (sent : List Sent) : List Bytes :=
  ((sent.flatMap Sent.datagrams).filter fun d => d.dest = a).map Datagram.payload

section Relay

variable {evt msg : CString} (hevt : space ∉ evt.bytes) (hfits : (message evt msg).length ≤ 4095)

include hevt hfits

theorem arriving_event (a : CString) {receivers : Receivers} {sendto : Datagram → SendResult}
    (hover : (interfaceUmbrellaSendEvent receivers sendto evt msg).overrun = none) :
    (arriving a [interfaceUmbrellaSendEvent receivers sendto evt msg]).filterMap decode =
      if a ∈ SetTable.members receivers evt then [(evt, msg)] else [] := by
  have htoo : ¬ tooLong evt msg := by
    rw [length_message] at hfits
    rw [tooLong]
    omega
  rw [arriving, List.flatMap_singleton]
  split
  · rename_i ha
    rw [(Bus.sentTo_umbrellaSendEvent htoo ((Bus.overrun_eq_none_iff htoo).mp hover)).filter_eq ha]
    simp [decode_message hevt hfits]
  · rename_i ha
    rw [List.filter_eq_nil_iff.mpr]
    · rfl
    · intro d hd hdest
      exact ha ((of_decide_eq_true hdest) ▸ Bus.dest_mem_members hd)

theorem arriving_action (a : CString) (sendto : Datagram → SendResult) :
    (arriving a [interfaceUmbrellaSendAction sendto evt msg]).filterMap decode =
      if osAddr = a then [(evt, msg)] else [] := by
  have htoo : ¬ tooLong evt msg := by
    rw [length_message] at hfits
    rw [tooLong]
    omega
  rw [arriving, List.flatMap_singleton, Bus.sendAction_datagrams htoo]
  split
  · rename_i ha
    simp [ha, decode_message hevt hfits]
  · rename_i ha
    simp [ha]

end Relay

/-! ### A step is an operation of the broker -/

section Simulates

variable {s u : Net H} {act : Action H}

theorem receivers_interfaceRegisteration (receivers : Receivers) (msg : CString) :
    interfaceRegisteration receivers msg = SetTable.insertAll receivers (subscriptions msg) := by
  rw [interfaceRegisteration, subscriptions]
  cases msg.splitAt space with
  | none => rfl
  | some r =>
    obtain ⟨intfVerStr, str⟩ := r
    by_cases hver : atoi (intfVerStr.bytes ++ [0]) ≠ some iflyosInterfaceCurrentVersion
    · simp only [if_pos hver]
      rfl
    · simp only [if_neg hver]
      cases str.splitAt space with
      | none => rfl
      | some r => rw [SetTable.insertAll, List.foldl_map]

/-- Where an address was present, its mailbox is put back. -/
theorem broker_put (s : Net H) (a : CString) (p : Option (Endpoint H)) (inbox : List Bytes) :
    broker ({ s with inbox := inbox }.put a p) = (broker s).put a (mailbox p) := by
  rw [broker, PubSub.put, broker, put]
  congr 1
  funext b
  by_cases hb : b = a
  · subst hb
    simp
  · simp [hb]

theorem broker_put_of_eq {a : CString} {p : Option (Endpoint H)} {inbox : List Bytes}
    (hp : mailbox p = mailbox (s.apps a)) :
    broker ({ s with inbox := inbox }.put a p) = broker s := by
  rw [broker_put, hp, PubSub.put, broker]
  congr 1
  exact Function.update_eq_self a _

theorem mailbox_deliver (a : CString) (sent : List Sent) (p : Option (Endpoint H)) :
    mailbox (p.map (Lives.deliver a sent)) =
      (mailbox p).map (· ++ (arriving a sent).filterMap decode) := by
  cases p with
  | none => rfl
  | some p =>
    rw [Option.map_some, Lives.deliver]
    by_cases hbound : p.bound
    · simp [mailbox, hbound, arriving]
    · simp [mailbox, hbound]

/-- What the umbrella sends arrives as what the operation has for everybody. -/
theorem broker_deliver {op : PubSub.Op CString CString Message} {inbox : List Bytes}
    {b : Bus Bus.UmbrellaHandler} {sent : List Sent} (hb : b.receivers = s.umbrella.receivers)
    (harriving : ∀ a, (arriving a sent).filterMap decode =
      PubSub.addressed Prod.fst (broker s) a op) :
    broker ({ s with inbox := inbox, umbrella := b }.deliver sent) =
      (broker s).deliver Prod.fst op := by
  refine PubSub.ext (funext fun e => ?_) (funext fun a => ?_)
  · show SetTable.members b.receivers e = SetTable.members s.umbrella.receivers e
    rw [hb]
  · show mailbox ((s.apps a).map (Lives.deliver a sent)) = (mailbox (s.apps a)).map _
    rw [mailbox_deliver, harriving a]

/-- Nothing is sent. -/
theorem broker_deliver_nil {inbox : List Bytes} {b : Bus Bus.UmbrellaHandler} :
    broker ({ s with inbox := inbox, umbrella := b }.deliver []) =
      { broker s with subs := fun e => SetTable.members b.receivers e } := by
  refine PubSub.ext rfl (funext fun a => ?_)
  have hnil : ((arriving a []).filterMap decode : List Message) = [] := rfl
  refine (mailbox_deliver a [] (s.apps a)).trans ?_
  rw [hnil]
  simp [broker]

theorem broker_registration (s : Net H) (msg : CString) {inbox : List Bytes}
    {b : Bus Bus.UmbrellaHandler}
    (hb : b.receivers = interfaceRegisteration s.umbrella.receivers msg) :
    broker ({ s with inbox := inbox, umbrella := b }.deliver []) =
      (broker s).subscribe (subscriptions msg) := by
  rw [broker_deliver_nil]
  refine PubSub.ext (funext fun e => ?_) rfl
  ext a
  show a ∈ SetTable.members b.receivers e ↔ a ∈ SetTable.members s.umbrella.receivers e ∪ _
  rw [hb, receivers_interfaceRegisteration, SetTable.mem_insertAll_iff, Finset.mem_union]
  refine or_congr Iff.rfl ?_
  simp [List.mem_toFinset]

theorem space_not_mem_evt (o : OwnSend) : space ∉ o.evt.bytes := by
  cases o <;> decide +kernel

theorem length_own (o : OwnSend) : (message o.evt o.msg).length ≤ 4095 := by
  cases o <;> decide +kernel

theorem matched_umbrella {d : Bytes} {inbox : List Bytes} (hinbox : s.inbox = d :: inbox)
    (hfits : ∀ x ∈ s.relayed (s.received d), x.overrun = none)
    (hu : u = { s with
      inbox := inbox
      umbrella := s.umbrella.receive Bus.umbrellaOnCall s.sendto (s.received d) }.deliver
        (s.relayed (s.received d))) :
    (opOf (s, (.umbrella : Action H)) = none ∧ broker u = broker s) ∨
      ∃ op, opOf (s, (.umbrella : Action H)) = some op ∧
        PubSub.step Prod.fst (broker s) op = some (broker u) := by
  subst hu
  have hop : opOf (s, (.umbrella : Action H)) = opOfReceived (s.received d) := by
    rw [opOf, hinbox]
    rfl
  have hpair : (s.received d).pair = decode d :=
    pair_interfaceUmbrellaReceiverWorker s.umbrella.handlers d
  rw [hop]
  cases hr : s.received d with
  | failed | noSpace | noHandler evt msg => exact Or.inl ⟨rfl, broker_deliver_nil⟩
  | invoke handler evt msg =>
    cases handler with
    | interfaceRegisteration =>
      refine Or.inr ⟨_, rfl, congrArg some (broker_registration s msg ?_).symm⟩
      rfl
    | onIflyosDoStart | onIflyosDoStop | onCustomDirective =>
      exact Or.inl ⟨rfl, broker_deliver_nil⟩
  | relayEvent evt msg =>
    rw [hr] at hpair hfits
    obtain ⟨hevt, hlen⟩ := Bus.length_of_readMessage hpair.symm
    refine Or.inr ⟨_, rfl, congrArg some (broker_deliver ?_ fun a => ?_).symm⟩
    · rfl
    · exact arriving_event hevt hlen a (hfits _ (List.mem_singleton_self _))
  | relayAction evt msg =>
    rw [hr] at hpair
    obtain ⟨hevt, hlen⟩ := Bus.length_of_readMessage hpair.symm
    refine Or.inr ⟨_, rfl, congrArg some (broker_deliver ?_ fun a => ?_).symm⟩
    · rfl
    · exact arriving_action hevt hlen a _

theorem matched_own (o : OwnSend)
    (hfits : (o.send s.umbrella.receivers s.sendto).overrun = none) :
    PubSub.step Prod.fst (broker s) (OwnSend.op o) =
      some (broker ({ s with
        umbrella := s.umbrella.sentEvent (o.send s.umbrella.receivers s.sendto) }.deliver
          [o.send s.umbrella.receivers s.sendto])) := by
  have haction := arriving_action (space_not_mem_evt o) (length_own o)
  cases o with
  | stopped =>
    refine congrArg some (broker_deliver ?_ fun a => ?_).symm
    · rfl
    · exact arriving_event (space_not_mem_evt .stopped) (length_own .stopped) a hfits
  | clearDataThenQuit | customContext | customEvent =>
    refine congrArg some (broker_deliver ?_ fun a => ?_).symm
    · rfl
    · exact haction a _

theorem matched_init {a : CString} {p p' : Endpoint H} {inbox : List Bytes} (hinv : Inv s)
    (hp : s.apps a = some p) (hinit : p.init = some p') :
    (opOf (s, (.init a : Action H)) = none ∧
        broker ({ s with inbox := inbox }.put a (some p')) = broker s) ∨
      ∃ op, opOf (s, (.init a : Action H)) = some op ∧ PubSub.step Prod.fst (broker s) op =
        some (broker ({ s with inbox := inbox }.put a (some p'))) := by
  obtain ⟨i, todo, htodo, rfl⟩ := Endpoint.init_cases hinit
  have hop : opOf (s, (.init a : Action H)) =
      if binds p ∧ p.bound = false then some (.join a) else none := by
    rw [opOf, hp]
    rfl
  rw [hop]
  cases i with
  | bind =>
    have hbinds : binds p = true := by
      rw [binds, htodo]
    cases hbound : p.bound with
    | true =>
      refine Or.inl ⟨by simp, broker_put_of_eq ?_⟩
      rw [hp]
      simp [mailbox, Endpoint.perform, hbound]
    | false =>
      -- a socket that is bound anew is empty
      have hqueue := hinv.unbound a p hp hbound
      have habsent : (broker s).mailbox a = none := by
        show mailbox (s.apps a) = none
        rw [hp]
        simp [mailbox, hbound]
      refine Or.inr ⟨.join a, by simp [hbinds], ?_⟩
      rw [PubSub.step, habsent, broker_put]
      simp [mailbox, Endpoint.perform, hqueue]
  | startReceiver | registerHandler _ _ | bindEvents =>
    have hbinds : binds p = false := by
      rw [binds, htodo]
    refine Or.inl ⟨by simp [hbinds], broker_put_of_eq ?_⟩
    rw [hp]
    rfl

theorem matched_take {a : CString} {p : Endpoint H} {d : Bytes} {queue : List Bytes}
    (hinv : Inv s) (hp : s.apps a = some p) (hqueue : p.queue = d :: queue) :
    (opOf (s, (.take a : Action H)) = none ∧
        broker (s.put a (some { p with queue := queue, taken := some d })) = broker s) ∨
      ∃ op, opOf (s, (.take a : Action H)) = some op ∧ PubSub.step Prod.fst (broker s) op =
        some (broker (s.put a (some { p with queue := queue, taken := some d }))) := by
  have hbound : p.bound = true := by
    by_contra hbound
    have hempty := hinv.unbound a p hp (by simpa using hbound)
    rw [hqueue] at hempty
    cases hempty
  have hop : opOf (s, (.take a : Action H)) =
      if (decode d).isSome then some (.take a) else none := by
    rw [opOf, hp]
    simp [hqueue]
  rw [hop]
  cases hread : decode d with
  | none =>
    refine Or.inl ⟨rfl, broker_put_of_eq ?_⟩
    rw [hp]
    simp [mailbox, hbound, hqueue, hread]
  | some m =>
    have hbox : (broker s).mailbox a = some (m :: queue.filterMap decode) := by
      show mailbox (s.apps a) = _
      rw [hp]
      simp [mailbox, hbound, hqueue, hread]
    refine Or.inr ⟨.take a, rfl, ?_⟩
    rw [PubSub.step, hbox, broker_put]
    simp [mailbox, hbound]

theorem simulates :
    Simulates (step (H := H)) (PubSub.step Prod.fst) Inv broker opOf where
  kept := fun _ _ _ hinv h => inv_step hinv h
  matched := by
    intro s act u hinv h
    cases step_cases h with
    | start todo hdown =>
      refine Or.inl ⟨rfl, broker_put_of_eq ?_⟩
      rw [hdown]
      rfl
    | @exit a p hp =>
      have hop : opOf (s, (.exit a : Action H)) = if p.bound then some (.leave a) else none := by
        rw [opOf, hp]
        rfl
      rw [hop]
      by_cases hbound : p.bound
      · have hpresent : (broker s).mailbox a = some (p.queue.filterMap decode) := by
          show mailbox (s.apps a) = _
          rw [hp]
          simp [mailbox, hbound]
        refine Or.inr ⟨.leave a, if_pos hbound, ?_⟩
        rw [PubSub.step, hpresent, if_pos Option.isSome_some]
        exact congrArg some (broker_put s a none s.inbox).symm
      · refine Or.inl ⟨if_neg hbound, broker_put_of_eq ?_⟩
        rw [hp]
        simp [mailbox, hbound]
    | init hp hinit => exact matched_init hinv hp hinit
    | take hp hqueue hfree => exact matched_take hinv hp hqueue
    | lookup hp hlookup =>
      obtain ⟨d, b, -, -, rfl⟩ := Endpoint.lookup_cases hlookup
      refine Or.inl ⟨rfl, broker_put_of_eq ?_⟩
      rw [hp]
      rfl
    | send d => exact Or.inl ⟨rfl, rfl⟩
    | umbrella hinbox hfits => exact matched_umbrella hinbox hfits rfl
    | umbrellaSends o hfits => exact Or.inr ⟨_, rfl, matched_own o hfits⟩

/-- **The bus is a publish-subscribe broker.** -/
theorem refines {tr : List (Net H × Action H)} (h : Run step start tr u) :
    Run (PubSub.step Prod.fst) PubSub.start (view broker opOf tr) (broker u) :=
  simulates.run inv_start h

/-- `IFLYOS_EVT_VOL_CHANGED`. -/
def iflyosEvtVolChanged : CString := CString.ofString "EVT_VOL_CHANGED"

/-- An app that has registered one event. -/
def registering : List (Action Unit) :=
  [.start micRegistration.address (initSteps [(iflyosEvtVolChanged, ())]),
    .init micRegistration.address, .init micRegistration.address, .init micRegistration.address,
    .init micRegistration.address, .umbrella]

theorem refines_registering :
    ∃ (tr : List (Net Unit × Action Unit)) (u : Net Unit), Run step start tr u ∧
      (view broker opOf tr).length = 2 ∧
      Run (PubSub.step Prod.fst) PubSub.start (view broker opOf tr) (broker u) := by
  have hexec : (Run.exec step (start : Net Unit) registering).map (fun r =>
      (view broker opOf r.1).length) = some 2 := by
    decide +kernel
  obtain ⟨r, hr, hlength⟩ := Option.map_eq_some_iff.mp hexec
  have h := Run.of_exec _ hr
  exact ⟨r.1, r.2, h, hlength, refines h⟩

end Simulates

/-! ### What is heard -/

/-- The messages of one name. -/
def named (e : CString) (ms : List Message) : List Message := ms.filter fun m => m.1 = e

/-- What waits for the umbrella. -/
def waiting (s : Net H) : List Message := s.inbox.filterMap decode

/-- What waits at the socket of an app. -/
def queued (s : Net H) (a : CString) : List Message :=
  (((s.apps a).map Endpoint.queue).getD []).filterMap decode

/-- What the worker of an app takes in a step. -/
def hears (a : CString) : Net H × Action H → List Message
  | (s, .take b) =>
    if b = a then ((((s.apps a).map Endpoint.queue).getD []).take 1).filterMap decode else []
  | _ => []

def heard (a : CString) (tr : List (Net H × Action H)) : List Message := tr.flatMap (hears a)

/-- What a step sends to the umbrella's socket. -/
def posts : Net H × Action H → List Message
  | (_, .send d) => [d].filterMap decode
  | (s, .init a) => (((s.apps a).map (registers a)).getD []).filterMap decode
  | _ => []

def posted (tr : List (Net H × Action H)) : List Message := tr.flatMap posts

/-- What a step is for the address, if it is an operation of the broker. -/
def removesOf (a : CString) (q : Net H × Action H) : List Message :=
  ((opOf q).map fun op => PubSub.removes a (broker q.1, op)).getD []

/-- What a step relays, or sends on the umbrella's own account. -/
def relays (q : Net H × Action H) : List Message := ((opOf q).bind PubSub.message?).toList

section Heard

variable {s u : Net H} {act : Action H} {tr : List (Net H × Action H)} {a e : CString}

theorem view_snoc (tr : List (Net H × Action H)) (q : Net H × Action H) :
    view broker opOf (tr ++ [q]) =
      view broker opOf tr ++ ((opOf q).map fun op => (broker q.1, op)).toList := by
  rw [view_append]
  cases hq : opOf q <;> simp [view, hq]

theorem removed_view (a : CString) (tr : List (Net H × Action H)) :
    PubSub.removed a (view broker opOf tr) = tr.flatMap (removesOf a) := by
  induction tr using List.reverseRecOn with
  | nil => rfl
  | append_singleton tr q ih =>
    rw [view_snoc, PubSub.removed, List.flatMap_append, ← PubSub.removed, ih, List.flatMap_append]
    congr 1
    cases hq : opOf q <;> simp [removesOf, hq]

theorem messages_view (tr : List (Net H × Action H)) :
    PubSub.messages (view broker opOf tr) = tr.flatMap relays := by
  induction tr using List.reverseRecOn with
  | nil => rfl
  | append_singleton tr q ih =>
    rw [view_snoc, PubSub.messages, List.filterMap_append, ← PubSub.messages, ih,
      List.flatMap_append]
    cases hq : opOf q with
    | none => simp [relays, hq]
    | some op => cases hm : PubSub.message? op <;> simp [relays, hq, hm]

theorem contents_broker (hinv : Inv s) (a : CString) :
    PubSub.contents (broker s) a = queued s a := by
  rw [PubSub.contents, queued]
  show (mailbox (s.apps a)).getD [] = _
  cases hp : s.apps a with
  | none => rfl
  | some p =>
    cases hbound : p.bound with
    | true => simp [mailbox, hbound]
    | false => simp [mailbox, hbound, hinv.unbound a p hp hbound]

/-- What the worker takes leaves the mailbox, and only an exit loses more. -/
theorem removesOf_eq_hears (hinv : Inv s) (hstays : act ≠ .exit a) :
    removesOf a (s, act) = hears a (s, act) := by
  cases act with
  | exit b =>
    have hb : b ≠ a := fun hb => hstays (congrArg _ hb)
    rw [removesOf, opOf]
    cases s.apps b with
    | none => rfl
    | some p => by_cases hbound : p.bound <;> simp [hears, PubSub.removes, hb, hbound]
  | take b =>
    rw [removesOf, opOf]
    cases hp : s.apps b with
    | none =>
      by_cases hb : b = a
      · subst hb
        simp [hears, hp]
      · simp [hears, hb]
    | some p =>
      by_cases hb : b = a
      · subst hb
        have hcontents := contents_broker hinv b
        rw [queued, hp] at hcontents
        cases hqueue : p.queue with
        | nil => simp [hears, hp, hqueue]
        | cons d queue =>
          cases hread : decode d with
          | none => simp [hears, hp, hqueue, hread]
          | some m =>
            simp [hears, hp, hqueue, hread, PubSub.removes, hcontents]
      · cases hread : p.queue.head?.bind decode <;>
          simp [hears, PubSub.removes, hb, hread]
  | init b =>
    rw [removesOf, opOf]
    cases s.apps b with
    | none => rfl
    | some p => by_cases hbinds : binds p ∧ p.bound = false <;> simp [hears, PubSub.removes, hbinds]
  | umbrella =>
    rw [removesOf, opOf]
    cases s.inbox.head? with
    | none => rfl
    | some d =>
      show ((opOfReceived (s.received d)).map _).getD [] = []
      cases s.received d with
      | invoke handler evt msg => cases handler <;> rfl
      | _ => rfl
  | umbrellaSends o => cases o <;> rfl
  | start _ _ | lookup _ | send _ => rfl

/-- Of the apps' steps none is relayed at once. -/
theorem relays_eq_nil (humbrella : act ≠ .umbrella) (hown : ∀ o, act ≠ .umbrellaSends o) :
    relays (s, act) = [] := by
  cases act with
  | exit a =>
    rw [relays, opOf]
    cases s.apps a with
    | none => rfl
    | some p => by_cases hbound : p.bound <;> simp [PubSub.message?, hbound]
  | init a =>
    rw [relays, opOf]
    cases s.apps a with
    | none => rfl
    | some p => by_cases hbinds : binds p ∧ p.bound = false <;> simp [PubSub.message?, hbinds]
  | take a =>
    rw [relays, opOf]
    cases s.apps a with
    | none => rfl
    | some p => cases hread : p.queue.head?.bind decode <;> simp [PubSub.message?, hread]
  | umbrella => exact absurd rfl humbrella
  | umbrellaSends o => exact absurd rfl (hown o)
  | start _ _ | lookup _ | send _ => rfl

/-- What has no handler is relayed. -/
theorem received_of_noHandler {d : Bytes} {evt msg : CString} (hread : decode d = some (evt, msg))
    (hh : s.umbrella.handlers evt = none) :
    s.received d = .relayEvent evt msg ∨ s.received d = .relayAction evt msg := by
  rw [received, Worker.receive, interfaceUmbrellaReceiverWorker,
    if_neg (Bus.not_length_le_of_readMessage hread)]
  rw [decode] at hread
  simp only [hread, hh]
  split
  · exact Or.inl rfl
  · exact Or.inr rfl

/-- The worker relays the message it has read, or nothing. -/
theorem relays_umbrella {d : Bytes} {inbox : List Bytes} (hinbox : s.inbox = d :: inbox) :
    relays (s, (.umbrella : Action H)) = (decode d).toList ∨
      relays (s, (.umbrella : Action H)) = [] := by
  have hpair : (s.received d).pair = decode d :=
    pair_interfaceUmbrellaReceiverWorker s.umbrella.handlers d
  have hrelays : relays (s, (.umbrella : Action H)) =
      ((opOfReceived (s.received d)).bind PubSub.message?).toList := by
    rw [relays, opOf, hinbox]
    rfl
  rw [hrelays, ← hpair]
  cases s.received d with
  | relayEvent evt msg | relayAction evt msg => exact Or.inl rfl
  | invoke handler evt msg => cases handler <;> exact Or.inr rfl
  | failed | noSpace | noHandler _ _ => exact Or.inr rfl

theorem relays_of_noHandler {d : Bytes} {inbox : List Bytes} {evt msg : CString}
    (hinbox : s.inbox = d :: inbox) (hread : decode d = some (evt, msg))
    (hh : s.umbrella.handlers evt = none) :
    relays (s, (.umbrella : Action H)) = [(evt, msg)] := by
  rw [relays, opOf, hinbox]
  rcases received_of_noHandler hread hh with hr | hr
  · simp [hr, opOfReceived, PubSub.message?]
  · simp [hr, opOfReceived, PubSub.message?]

theorem waiting_umbrella {d : Bytes} {inbox : List Bytes} (hinv : Inv s)
    (hinbox : s.inbox = d :: inbox) :
    (named e (relays (s, (.umbrella : Action H)))).Sublist (named e (decode d).toList) ∧
      (Bus.umbrellaHandlers e = none →
        named e (relays (s, (.umbrella : Action H))) = named e (decode d).toList) := by
  constructor
  · rcases relays_umbrella hinbox with hrelays | hrelays
    · rw [hrelays]
    · rw [hrelays]
      exact List.nil_sublist _
  · intro hroute
    cases hread : decode d with
    | none =>
      rcases relays_umbrella hinbox with hrelays | hrelays
      · rw [hrelays, hread]
      · rw [hrelays]
        rfl
    | some m =>
      obtain ⟨evt, msg⟩ := m
      by_cases hevt : evt = e
      · subst hevt
        rw [relays_of_noHandler hinbox hread (hinv.handlers ▸ hroute)]
        rfl
      · -- a message of another name
        have hnone : named e [(evt, msg)] = [] := by
          simp [named, hevt]
        rcases relays_umbrella hinbox with hrelays | hrelays
        · rw [hrelays, hread]
        · rw [hrelays]
          exact hnone.symm

/-- A step takes at most one message from the umbrella's socket, and what it
relays is that message or one of the umbrella's own. -/
theorem waiting_step (hinv : Inv s) (h : step s act = some u) (hown : ∀ o : OwnSend, o.evt ≠ e) :
    ∃ front, named e (waiting s) ++ named e (posts (s, act)) = front ++ named e (waiting u) ∧
      (named e (relays (s, act))).Sublist front ∧
      (Bus.umbrellaHandlers e = none → named e (relays (s, act)) = front) := by
  -- what does not pass the umbrella
  have hquiet : ∀ {v : Net H} {act : Action H}, act ≠ .umbrella →
      (∀ o, act ≠ .umbrellaSends o) →
      named e (waiting s) ++ named e (posts (s, act)) = named e (waiting v) →
      ∃ front, named e (waiting s) ++ named e (posts (s, act)) = front ++ named e (waiting v) ∧
        (named e (relays (s, act))).Sublist front ∧
        (Bus.umbrellaHandlers e = none → named e (relays (s, act)) = front) := by
    intro v act humbrella hsends hwaiting
    refine ⟨[], hwaiting, ?_, fun _ => ?_⟩
    · rw [relays_eq_nil humbrella hsends]
      exact List.nil_sublist _
    · rw [relays_eq_nil humbrella hsends]
      rfl
  cases step_cases h with
  | start todo hdown | exit hp | take hp hqueue hfree | lookup hp hlookup =>
    exact hquiet (by simp) (by simp) (List.append_nil _)
  | init hp hinit =>
    refine hquiet (by simp) (by simp) ?_
    rw [named, named, ← List.filter_append, posts, hp, waiting, ← List.filterMap_append]
    rfl
  | send d =>
    refine hquiet (by simp) (by simp) ?_
    rw [named, named, ← List.filter_append, posts, waiting, ← List.filterMap_append]
    rfl
  | @umbrella d inbox hinbox =>
    obtain ⟨hsublist, heq⟩ := waiting_umbrella (e := e) hinv hinbox
    refine ⟨named e (decode d).toList, ?_, hsublist, heq⟩
    rw [waiting, hinbox]
    show named e ((d :: inbox).filterMap decode) ++ [] = _ ++ named e (inbox.filterMap decode)
    rw [List.append_nil, named, named, named, ← List.filter_append]
    cases hread : decode d <;> simp [hread]
  | umbrellaSends o =>
    have hnone : named e (relays (s, (.umbrellaSends o : Action H))) = [] := by
      have hevt := hown o
      cases o <;> simpa [relays, opOf, OwnSend.op, PubSub.message?, named] using hevt
    refine ⟨[], List.append_nil _, ?_, fun _ => hnone⟩
    rw [hnone]

theorem named_append (e : CString) (ms ms' : List Message) :
    named e (ms ++ ms') = named e ms ++ named e ms' :=
  List.filter_append ..

/-- What the umbrella has relayed, and what still waits for it, is what has been
posted. -/
theorem relays_run (hs : Inv s) (h : Run step s tr u) (hown : ∀ o : OwnSend, o.evt ≠ e) :
    (named e (tr.flatMap relays) ++ named e (waiting u)).Sublist
        (named e (waiting s) ++ named e (posted tr)) ∧
      (Bus.umbrellaHandlers e = none → named e (tr.flatMap relays) ++ named e (waiting u) =
        named e (waiting s) ++ named e (posted tr)) := by
  have hall : Inv u ∧ (named e (tr.flatMap relays) ++ named e (waiting u)).Sublist
        (named e (waiting s) ++ named e (posted tr)) ∧
      (Bus.umbrellaHandlers e = none → named e (tr.flatMap relays) ++ named e (waiting u) =
        named e (waiting s) ++ named e (posted tr)) := by
    refine h.history (I := fun tr u => Inv u ∧
        (named e (tr.flatMap relays) ++ named e (waiting u)).Sublist
          (named e (waiting s) ++ named e (posted tr)) ∧
        (Bus.umbrellaHandlers e = none → named e (tr.flatMap relays) ++ named e (waiting u) =
          named e (waiting s) ++ named e (posted tr))) ⟨hs, by simp [named, posted],
            fun _ => by simp [named, posted]⟩ ?_
    rintro tr t act u ⟨ht, hsublist, heq⟩ hu
    obtain ⟨front, hfront, hrelays, hroute⟩ := waiting_step ht hu hown
    have hposted : named e (waiting s) ++ named e (posted (tr ++ [(t, act)])) =
        named e (waiting s) ++ named e (posted tr) ++ named e (posts (t, act)) := by
      rw [posted, List.flatMap_append, named_append, List.append_assoc, posted]
      simp
    have hrelayed : named e ((tr ++ [(t, act)]).flatMap relays) =
        named e (tr.flatMap relays) ++ named e (relays (t, act)) := by
      rw [List.flatMap_append, named_append]
      simp
    refine ⟨inv_step ht hu, ?_, fun hno => ?_⟩
    · rw [hposted, hrelayed]
      have hstep : (named e (tr.flatMap relays) ++ named e (relays (t, act)) ++
          named e (waiting u)).Sublist (named e (tr.flatMap relays) ++ named e (waiting t) ++
            named e (posts (t, act))) := by
        rw [List.append_assoc, List.append_assoc, hfront]
        exact List.Sublist.append_left (List.Sublist.append_right hrelays _) _
      exact hstep.trans (List.Sublist.append_right hsublist _)
    · rw [hposted, hrelayed, ← heq hno, hroute hno, List.append_assoc, List.append_assoc, hfront]
  exact hall.2

/-- The name is relayed to the address. -/
def Reaches (s : Net H) (e a : CString) : Prop :=
  if e.bytes[0]? = some 'E'.toUInt8 then a ∈ SetTable.members s.umbrella.receivers e
  else a = osAddr

/-- The name alone decides how a message is relayed. -/
theorem head_of_decode {d : Bytes} {evt msg : CString} (h : decode d = some (evt, msg)) :
    (recvfrom d)[0]? = some 'E'.toUInt8 ↔ evt.bytes[0]? = some 'E'.toUInt8 := by
  rw [decode, readMessage, CString.splitAt_eq_some_iff] at h
  rw [← Bus.head_message evt msg, message, ← h.1]
  show _ ↔ (text (recvfrom d ++ [0]))[0]? = some 'E'.toUInt8
  cases hrd : recvfrom d with
  | nil => decide
  | cons b rd =>
    by_cases hb : b = 0
    · subst hb
      rw [List.cons_append, text_nul]
      show some (0 : UInt8) = some 'E'.toUInt8 ↔ none = some 'E'.toUInt8
      decide
    · rw [List.cons_append, text_cons hb]
      rfl

/-- A message that the worker relays has no handler, and goes the way of its
name. -/
theorem of_received_relay {d : Bytes} {evt msg : CString} :
    (s.received d = .relayEvent evt msg → evt.bytes[0]? = some 'E'.toUInt8) ∧
      (s.received d = .relayAction evt msg → ¬ evt.bytes[0]? = some 'E'.toUInt8) := by
  have hpair : (s.received d).pair = decode d :=
    pair_interfaceUmbrellaReceiverWorker s.umbrella.handlers d
  have hhead : ∀ {evt msg : CString}, decode d = some (evt, msg) →
      s.umbrella.handlers evt = none → s.received d =
        if evt.bytes[0]? = some 'E'.toUInt8 then .relayEvent evt msg else .relayAction evt msg := by
    intro evt msg hread hh
    have hE := head_of_decode hread
    rw [received, Worker.receive, interfaceUmbrellaReceiverWorker,
      if_neg (Bus.not_length_le_of_readMessage hread)]
    rw [decode] at hread
    simp only [hread, hh, hE]
  have hnone : ∀ {r : Received Bus.UmbrellaHandler}, s.received d = r →
      r.pair = some (evt, msg) → (∀ handler, r ≠ .invoke handler evt msg) →
      s.umbrella.handlers evt = none := by
    intro r hr hmsg hinvoke
    rw [hr, hmsg] at hpair
    cases hh : s.umbrella.handlers evt with
    | none => rfl
    | some handler =>
      exact absurd (hr.symm.trans (Bus.receive_eq_invoke hpair.symm hh)) (hinvoke handler)
  constructor
  · intro hr
    rw [hr] at hpair
    rw [hhead hpair.symm (hnone hr rfl (by simp))] at hr
    by_contra hE
    rw [if_neg hE] at hr
    cases hr
  · intro hr hE
    rw [hr] at hpair
    rw [hhead hpair.symm (hnone hr rfl (by simp)), if_pos hE] at hr
    cases hr

/-- What the umbrella says under a name that reaches the address concerns it. -/
theorem concerns_of_reaches {op : PubSub.Op CString CString Message} (hop : opOf (s, act) = some op)
    (hown : ∀ o : OwnSend, o.evt ≠ e) (hreach : Reaches s e a) :
    PubSub.Concerns Prod.fst e a (broker s) op := by
  cases act with
  | umbrella =>
    obtain ⟨d, -, hd⟩ := Option.bind_eq_some_iff.mp hop
    cases hr : s.received d with
    | relayEvent evt msg =>
      rw [hr] at hd
      obtain rfl := Option.some.inj hd
      rintro rfl
      rw [Reaches, if_pos (of_received_relay.1 hr)] at hreach
      exact hreach
    | relayAction evt msg =>
      rw [hr] at hd
      obtain rfl := Option.some.inj hd
      rintro rfl
      rw [Reaches, if_neg (of_received_relay.2 hr)] at hreach
      exact hreach.symm
    | invoke handler evt msg =>
      rw [hr] at hd
      cases handler with
      | interfaceRegisteration =>
        obtain rfl := Option.some.inj hd
        trivial
      | onIflyosDoStart | onIflyosDoStop | onCustomDirective => cases hd
    | failed | noSpace | noHandler evt msg =>
      rw [hr] at hd
      cases hd
  | umbrellaSends o =>
    obtain rfl := Option.some.inj hop
    have hevt := hown o
    cases o <;> exact fun h => absurd h hevt
  | exit b | init b | take b =>
    obtain ⟨p, -, hp⟩ := Option.bind_eq_some_iff.mp hop
    split_ifs at hp
    obtain rfl := Option.some.inj hp
    trivial
  | start _ _ | lookup _ | send _ => cases hop

/-- A name that reaches an address goes on reaching it. -/
theorem reaches_step (hinv : Inv s) (h : step s act = some u) (hreach : Reaches s e a) :
    Reaches u e a := by
  rw [Reaches] at hreach ⊢
  split_ifs at hreach ⊢
  · show a ∈ (broker u).subs e
    rcases simulates.matched s act u hinv h with ⟨-, hsame⟩ | ⟨op, -, hspec⟩
    · rw [hsame]
      exact hreach
    · exact PubSub.subs_step hspec hreach
  · exact hreach

/-- What the worker of an app takes is taken from its mailbox. -/
theorem hears_sublist (hinv : Inv s) : (hears a (s, act)).Sublist (removesOf a (s, act)) := by
  by_cases hexit : act = .exit a
  · subst hexit
    exact List.nil_sublist _
  · rw [removesOf_eq_hears hinv hexit]

theorem heard_sublist (hs : Inv s) (h : Run step s tr u) :
    (heard a tr).Sublist (PubSub.removed a (view broker opOf tr)) := by
  rw [removed_view]
  have hall : ∀ q ∈ tr, Inv q.1 := h.states hs fun _ _ _ ht hu => inv_step ht hu
  clear h
  induction tr with
  | nil => exact List.Sublist.refl _
  | cons q tr ih =>
    rw [heard, List.flatMap_cons, List.flatMap_cons]
    exact (hears_sublist (hall q List.mem_cons_self)).append
      (ih fun q hq => hall q (List.mem_cons_of_mem _ hq))

theorem heard_of_stays (hs : Inv s) (h : Run step s tr u) (hstays : ∀ q ∈ tr, q.2 ≠ .exit a) :
    PubSub.removed a (view broker opOf tr) = heard a tr := by
  rw [removed_view]
  have hall : ∀ q ∈ tr, Inv q.1 := h.states hs fun _ _ _ ht hu => inv_step ht hu
  clear h
  induction tr with
  | nil => rfl
  | cons q tr ih =>
    rw [heard, List.flatMap_cons, List.flatMap_cons,
      removesOf_eq_hears (hall q List.mem_cons_self) (hstays q List.mem_cons_self)]
    exact congrArg _ (ih (fun q hq => hstays q (List.mem_cons_of_mem _ hq))
      fun q hq => hall q (List.mem_cons_of_mem _ hq))

/-- Only an exit leaves. -/
theorem exit_of_leave (hop : opOf (s, act) = some (.leave a)) : act = .exit a := by
  cases act with
  | exit b =>
    obtain ⟨p, -, hp⟩ := Option.bind_eq_some_iff.mp hop
    split_ifs at hp
    cases hp
    rfl
  | init b | take b =>
    obtain ⟨p, -, hp⟩ := Option.bind_eq_some_iff.mp hop
    split_ifs at hp
    cases hp
  | umbrella =>
    obtain ⟨d, -, hd⟩ := Option.bind_eq_some_iff.mp hop
    cases hr : s.received d with
    | invoke handler evt msg =>
      rw [hr] at hd
      cases handler <;> cases hd
    | failed | noSpace | noHandler _ _ | relayEvent _ _ | relayAction _ _ =>
      rw [hr] at hd
      cases hd
  | umbrellaSends o => cases o <;> cases hop
  | start _ _ | lookup _ | send _ => cases hop

theorem mem_view {q : PubSub CString CString Message × PubSub.Op CString CString Message}
    (hq : q ∈ view broker opOf tr) : ∃ p ∈ tr, q.1 = broker p.1 ∧ opOf p = some q.2 := by
  obtain ⟨p, hp, hview⟩ := List.mem_filterMap.mp hq
  obtain ⟨op, hop, rfl⟩ := Option.map_eq_some_iff.mp hview
  exact ⟨p, hp, rfl, hop⟩

end Heard

/-! ### Exactly once -/

section Laws

variable {s u : Net H} {tr₁ tr : List (Net H × Action H)} {a e : CString}

theorem inv_run (h : Run step start tr u) : Inv u :=
  Run.invariant inv_start (fun _ _ _ hs hu => inv_step hs hu) h

/-- An app that stays bound gets everything that the umbrella relays to it. -/
theorem heard_of_relays (hs : Inv s) (h : Run step s tr u)
    (hbound : (mailbox (s.apps a)).isSome) (hstays : ∀ q ∈ tr, q.2 ≠ .exit a)
    (hown : ∀ o : OwnSend, o.evt ≠ e) (hreach : Reaches s e a) :
    named e (heard a tr) ++ named e (queued u a) =
      named e (queued s a) ++ named e (tr.flatMap relays) := by
  have hrun : Run (PubSub.step Prod.fst) (broker s) (view broker opOf tr) (broker u) :=
    simulates.run hs h
  have hreaches : ∀ q ∈ tr, Inv q.1 ∧ Reaches q.1 e a :=
    h.states (I := fun s => Inv s ∧ Reaches s e a) ⟨hs, hreach⟩ fun t _ u ht hu =>
      ⟨inv_step ht.1 hu, reaches_step ht.1 hu ht.2⟩
  have hkeeps := PubSub.removed_append_contents a hrun
  rw [heard_of_stays hs h hstays, contents_broker hs,
    contents_broker (Run.invariant hs (fun _ _ _ ht hu => inv_step ht hu) h)] at hkeeps
  have hall := PubSub.delivered_eq_messages (a := a) (k := e) hrun hbound ?_ ?_
  · rw [messages_view] at hall
    rw [← named_append, hkeeps, named_append]
    exact congrArg _ hall
  · -- nothing leaves
    intro q hq hleave
    obtain ⟨p, hp, -, hop⟩ := mem_view hq
    rw [hleave] at hop
    exact hstays p hp (exit_of_leave hop)
  · intro q hq
    obtain ⟨p, hp, hbroker, hop⟩ := mem_view hq
    rw [hbroker]
    exact concerns_of_reaches hop hown (hreaches p hp).2

/-- What the app hears, what waits at its socket and what waits for the umbrella
is what waited there and what has been posted. -/
theorem heard_of_posted (hreached : Run step start tr₁ s) (h : Run step s tr u)
    (hbound : (mailbox (s.apps a)).isSome) (hstays : ∀ q ∈ tr, q.2 ≠ .exit a)
    (hroute : Bus.umbrellaHandlers e = none) (hown : ∀ o : OwnSend, o.evt ≠ e)
    (hreach : Reaches s e a) :
    named e (heard a tr) ++ named e (queued u a) ++ named e (waiting u) =
      named e (queued s a) ++ named e (waiting s) ++ named e (posted tr) := by
  have hs := inv_run hreached
  rw [heard_of_relays hs h hbound hstays hown hreach, List.append_assoc,
    (relays_run hs h hown).2 hroute, List.append_assoc]

/-! What the worker has taken it hands to a handler. -/

/-- The messages that the app at an address has handled in this life. -/
def handled (s : Net H) (a : CString) : List Message :=
  (((s.apps a).map fun p => p.bus.calls).getD []).map Prod.snd

/-- The message that its worker has taken and not looked up. -/
def taken (s : Net H) (a : CString) : List Message :=
  ((s.apps a).bind Endpoint.pending).toList

/-- The app at an address is bound and has a handler for the name. -/
def Handles (s : Net H) (a e : CString) : Prop :=
  ∃ p, s.apps a = some p ∧ p.bound = true ∧ (p.bus.handlers e).isSome

theorem put_self (s : Net H) (a : CString) (p : Option (Endpoint H)) : (s.put a p).apps a = p := by
  simp [put]

theorem put_of_ne {b : CString} (s : Net H) (p : Option (Endpoint H)) (h : a ≠ b) :
    (s.put b p).apps a = s.apps a := by
  simp [put, h]

/-- What a step of the main thread does to the worker's side. -/
theorem init_frame {p p' : Endpoint H} (h : p.init = some p') (hhandler : (p.bus.handlers e).isSome)
    (hbound : p.bound = true) :
    p'.bus.calls = p.bus.calls ∧ p'.pending = p.pending ∧ p'.bound = true ∧
      (p'.bus.handlers e).isSome := by
  obtain ⟨i, todo, -, rfl⟩ := Endpoint.init_cases h
  cases i with
  | registerHandler evt handler =>
    refine ⟨rfl, rfl, hbound, ?_⟩
    show (Function.update p.bus.handlers evt (some handler) e).isSome
    by_cases he : e = evt
    · subst he
      rw [Function.update_self]
      rfl
    · rw [Function.update_of_ne he]
      exact hhandler
  | bind => exact ⟨rfl, rfl, rfl, hhandler⟩
  | startReceiver | bindEvents => exact ⟨rfl, rfl, hbound, hhandler⟩

/-- The worker hands a message that has a handler to it. -/
theorem lookup_frame {p p' : Endpoint H} (hhandler : (p.bus.handlers e).isSome)
    (h : p.lookup .interface Bus.keep sendAll = some p') :
    named e (p'.bus.calls.map Prod.snd) =
        named e (p.bus.calls.map Prod.snd) ++ named e p.pending.toList ∧
      p'.pending = none ∧ p'.bound = p.bound ∧ (p'.bus.handlers e).isSome := by
  obtain ⟨d, b, htaken, hb, rfl⟩ := Endpoint.lookup_cases h
  have hpending : p.pending = decode d := by
    rw [Endpoint.pending, htaken]
    rfl
  refine ⟨?_, rfl, rfl, by rw [Bus.handlers_step hb]; exact hhandler⟩
  rw [hpending]
  cases hread : decode d with
  | none =>
    -- nothing has been read
    have hcalls : b.calls = p.bus.calls := by
      rw [Bus.receive_of_step hb]
      by_cases hnil : d = []
      · subst hnil
        rw [Bus.receive_nil]
        rfl
      · rw [Bus.receive_of_noSpace hnil hread]
        rfl
    rw [hcalls, Option.toList_none]
    exact (List.append_nil _).symm
  | some m =>
    obtain ⟨evt, msg⟩ := m
    cases hh : p.bus.handlers evt with
    | some handler =>
      obtain ⟨hcalls, -⟩ := Bus.step_of_handler hb hread hh
      rw [hcalls, List.map_append, named_append]
      rfl
    | none =>
      -- the message has another name
      have hevt : evt ≠ e := by
        rintro rfl
        rw [hh] at hhandler
        cases hhandler
      have hnil : named e (some (evt, msg)).toList = [] := by
        simp [named, hevt]
      rw [Bus.calls_of_noHandler hb hread hh, hnil, List.append_nil]

/-- Where the process is as it was, or has only got more to take. -/
theorem handled_frame {p p' : Endpoint H} (hp : s.apps a = some p) (hp' : u.apps a = some p')
    (hbus : p'.bus = p.bus) (htaken : p'.taken = p.taken) (hbound : p'.bound = p.bound)
    (hhandles : Handles s a e) :
    Handles u a e ∧ named e (handled u a) ++ named e (taken u a) =
      named e (handled s a) ++ named e (taken s a) := by
  obtain ⟨q, hq, hqbound, hhandler⟩ := hhandles
  rw [hp] at hq
  obtain rfl := Option.some.inj hq
  refine ⟨⟨p', hp', hbound.trans hqbound, hbus ▸ hhandler⟩, ?_⟩
  simp [handled, taken, hp, hp', Endpoint.pending, hbus, htaken]

/-- What arrives at a socket has not been taken. -/
theorem handled_deliver {inbox : List Bytes} {b : Bus Bus.UmbrellaHandler} {sent : List Sent}
    (hhandles : Handles s a e) :
    Handles ({ s with inbox := inbox, umbrella := b }.deliver sent) a e ∧
      named e (handled ({ s with inbox := inbox, umbrella := b }.deliver sent) a) ++
          named e (taken ({ s with inbox := inbox, umbrella := b }.deliver sent) a) =
        named e (handled s a) ++ named e (taken s a) := by
  obtain ⟨p, hp, hbound, hhandler⟩ := hhandles
  obtain ⟨queue, hqueue, -⟩ := Lives.deliver_cases a sent p
  have hp' : ({ s with inbox := inbox, umbrella := b }.deliver sent).apps a =
      some (Lives.deliver a sent p) := by
    show (s.apps a).map (Lives.deliver a sent) = _
    rw [hp]
    rfl
  refine handled_frame hp hp' ?_ ?_ ?_ ⟨p, hp, hbound, hhandler⟩
  all_goals rw [hqueue]

/-- A step hands on what has been taken, and takes what is heard. -/
theorem handled_step (h : step s act = some u) (hhandles : Handles s a e)
    (hstays : act ≠ .exit a) :
    Handles u a e ∧ named e (handled u a) ++ named e (taken u a) =
      named e (handled s a) ++ named e (taken s a) ++ named e (hears a (s, act)) := by
  obtain ⟨p, hp, hbound, hhandler⟩ := hhandles
  have hhandles : Handles s a e := ⟨p, hp, hbound, hhandler⟩
  have hother : ∀ {b : CString} {q : Option (Endpoint H)}, a ≠ b →
      Handles (s.put b q) a e ∧ named e (handled (s.put b q) a) ++ named e (taken (s.put b q) a) =
        named e (handled s a) ++ named e (taken s a) := fun hb =>
    handled_frame hp ((put_of_ne _ _ hb).trans hp) rfl rfl rfl hhandles
  cases step_cases h with
  | @start b todo hdown =>
    have hb : a ≠ b := by
      rintro rfl
      rw [hp] at hdown
      cases hdown
    exact ⟨(hother hb).1, (hother hb).2.trans (List.append_nil _).symm⟩
  | @exit b q hq =>
    have hb : a ≠ b := fun hb => hstays (hb ▸ rfl)
    exact ⟨(hother hb).1, (hother hb).2.trans (List.append_nil _).symm⟩
  | @init b q q' hq hinit =>
    by_cases hb : a = b
    · subst hb
      rw [hp] at hq
      obtain rfl := Option.some.inj hq
      obtain ⟨hcalls, hpending, hbound', hhandler'⟩ := init_frame hinit hhandler hbound
      refine ⟨⟨q', put_self _ _ _, hbound', hhandler'⟩, ?_⟩
      have hnone : hears a (s, (.init a : Action H)) = [] := rfl
      simp [handled, taken, put_self, hp, hcalls, hpending, hnone, named]
    · exact ⟨(hother hb).1, (hother hb).2.trans (List.append_nil _).symm⟩
  | @take b q d queue hq hqueue hfree =>
    by_cases hb : a = b
    · subst hb
      rw [hp] at hq
      obtain rfl := Option.some.inj hq
      refine ⟨⟨_, put_self _ _ _, hbound, hhandler⟩, ?_⟩
      cases hread : decode d <;>
        simp_all [handled, taken, put_self, Endpoint.pending, hears, named, decode]
    · refine ⟨(hother hb).1, (hother hb).2.trans ?_⟩
      have hnone : hears a (s, (.take b : Action H)) = [] := if_neg (Ne.symm hb)
      rw [hnone]
      exact (List.append_nil _).symm
  | @lookup b q q' hq hlookup =>
    by_cases hb : a = b
    · subst hb
      rw [hp] at hq
      obtain rfl := Option.some.inj hq
      obtain ⟨hcalls, hpending, hbound', hhandler'⟩ := lookup_frame hhandler hlookup
      refine ⟨⟨q', put_self _ _ _, hbound'.trans hbound, hhandler'⟩, ?_⟩
      have hnone : hears a (s, (.lookup a : Action H)) = [] := rfl
      rw [handled, taken, put_self, handled, taken, hp, hnone]
      show named e (q'.bus.calls.map Prod.snd) ++ named e q'.pending.toList =
        named e (p.bus.calls.map Prod.snd) ++ named e p.pending.toList ++ []
      rw [hcalls, hpending]
      rfl
    · exact ⟨(hother hb).1, (hother hb).2.trans (List.append_nil _).symm⟩
  | send d =>
    obtain ⟨hkeep, heq⟩ := handled_frame (u := { s with inbox := s.inbox ++ [d] }) hp hp rfl rfl rfl
      hhandles
    exact ⟨hkeep, heq.trans (List.append_nil _).symm⟩
  | umbrella hinbox =>
    obtain ⟨hkeep, heq⟩ := handled_deliver hhandles
    exact ⟨hkeep, heq.trans (List.append_nil _).symm⟩
  | umbrellaSends o =>
    obtain ⟨hkeep, heq⟩ := handled_deliver hhandles
    exact ⟨hkeep, heq.trans (List.append_nil _).symm⟩

/-- **A message to an app that stays is handled once**, behind those of its name
that were posted before it: what the app has handled, what its worker has taken,
what waits at its socket and what waits for the umbrella is what was there and
what has been posted. -/
theorem handled_once (hreached : Run step start tr₁ s) (h : Run step s tr u)
    (hhandles : Handles s a e) (hstays : ∀ q ∈ tr, q.2 ≠ .exit a)
    (hroute : Bus.umbrellaHandlers e = none) (hown : ∀ o : OwnSend, o.evt ≠ e)
    (hreach : Reaches s e a) :
    named e (handled u a) ++ named e (taken u a) ++ named e (queued u a) ++ named e (waiting u) =
      named e (handled s a) ++ named e (taken s a) ++ named e (queued s a) ++
        named e (waiting s) ++ named e (posted tr) := by
  have hhandled : Handles u a e ∧ named e (handled u a) ++ named e (taken u a) =
      named e (handled s a) ++ named e (taken s a) ++ named e (heard a tr) := by
    refine h.history_of (C := fun _ act => act ≠ .exit a)
      (I := fun tr u => Handles u a e ∧ named e (handled u a) ++ named e (taken u a) =
        named e (handled s a) ++ named e (taken s a) ++ named e (heard a tr))
      ⟨hhandles, (List.append_nil _).symm⟩ ?_ hstays
    rintro tr t act u ⟨ht, hlaw⟩ hstay hu
    obtain ⟨hkeep, hstep⟩ := handled_step hu ht hstay
    refine ⟨hkeep, ?_⟩
    have hheard : heard a (tr ++ [(t, act)]) = heard a tr ++ hears a (t, act) := by
      simp [heard]
    rw [hstep, hlaw, hheard, named_append, List.append_assoc]
  have hbound : (mailbox (s.apps a)).isSome := by
    obtain ⟨p, hp, hbound, -⟩ := hhandles
    simp [mailbox, hp, hbound]
  have hposted := heard_of_posted hreached h hbound hstays hroute hown hreach
  rw [hhandled.2, List.append_assoc, List.append_assoc, ← List.append_assoc (named e (heard a tr)),
    hposted]
  simp [List.append_assoc]

/-- **No app hears what was not posted**, nor hears it twice or out of order,
whoever comes and goes. -/
theorem nothing_invented (h : Run step start tr u) (hown : ∀ o : OwnSend, o.evt ≠ e) (a : CString) :
    (named e (heard a tr)).Sublist (named e (posted tr)) := by
  have hrun : Run (PubSub.step Prod.fst) (broker (start : Net H)) (view broker opOf tr)
      (broker u) := simulates.run inv_start h
  have hkeeps := PubSub.removed_append_contents a hrun
  have hheard : (heard a tr).Sublist (tr.flatMap relays) := by
    refine (heard_sublist inv_start h).trans ?_
    rw [← messages_view]
    refine List.Sublist.trans ?_ (PubSub.delivered_sublist Prod.fst a (view broker opOf tr))
    have hempty : PubSub.contents (broker (start : Net H)) a = [] := rfl
    rw [hempty, List.nil_append] at hkeeps
    rw [← hkeeps]
    exact List.sublist_append_left _ _
  have hposted := (relays_run inv_start h hown).1
  exact (hheard.filter _).trans ((List.sublist_append_left _ _).trans hposted)

/-! ### Two senders -/

/-- The event is sent twice, and the app handles it once. -/
def twice : List (Action Unit) :=
  [.send (message iflyosEvtVolChanged (letters 1)),
    .send (message iflyosEvtVolChanged (letters 2)), .umbrella, .umbrella,
    .take micRegistration.address, .lookup micRegistration.address]

theorem own_ne_volChanged (o : OwnSend) : o.evt ≠ iflyosEvtVolChanged := by
  cases o <;> decide +kernel

theorem handled_once_twice :
    ∃ (tr₁ tr : List (Net Unit × Action Unit)) (s u : Net Unit), Run step start tr₁ s ∧
      Run step s tr u ∧
      handled u micRegistration.address = [(iflyosEvtVolChanged, letters 1)] ∧
      named iflyosEvtVolChanged (handled u micRegistration.address) ++
          named iflyosEvtVolChanged (taken u micRegistration.address) ++
          named iflyosEvtVolChanged (queued u micRegistration.address) ++
          named iflyosEvtVolChanged (waiting u) =
        named iflyosEvtVolChanged (handled s micRegistration.address) ++
          named iflyosEvtVolChanged (taken s micRegistration.address) ++
          named iflyosEvtVolChanged (queued s micRegistration.address) ++
          named iflyosEvtVolChanged (waiting s) ++ named iflyosEvtVolChanged (posted tr) := by
  have hexec : (Run.exec step (start : Net Unit) registering).map (fun r =>
      ((r.2.apps micRegistration.address).map fun p =>
          (p.bound, (p.bus.handlers iflyosEvtVolChanged).isSome),
        decide (micRegistration.address ∈
          SetTable.members r.2.umbrella.receivers iflyosEvtVolChanged),
        (Run.exec step r.2 twice).map fun r' => handled r'.2 micRegistration.address)) =
      some (some (true, true), true, some [(iflyosEvtVolChanged, letters 1)]) := by
    decide +kernel
  obtain ⟨r, hr, hobs⟩ := Option.map_eq_some_iff.mp hexec
  obtain ⟨happ, hobs⟩ := Prod.mk.inj hobs
  obtain ⟨hmem, hobs⟩ := Prod.mk.inj hobs
  obtain ⟨p, hp, happ⟩ := Option.map_eq_some_iff.mp happ
  obtain ⟨hbound, hhandler⟩ := Prod.mk.inj happ
  obtain ⟨r', hr', hhandled⟩ := Option.map_eq_some_iff.mp hobs
  refine ⟨r.1, r'.1, r.2, r'.2, Run.of_exec _ hr, Run.of_exec _ hr', hhandled,
    handled_once (Run.of_exec _ hr) (Run.of_exec _ hr') ⟨p, hp, hbound, hhandler⟩
      (fun q hq hexit => ?_) (by decide +kernel) own_ne_volChanged ?_⟩
  · have hlabel : q.2 ∈ twice := Run.labels_of_exec _ hr' ▸ List.mem_map_of_mem hq
    rw [hexit] at hlabel
    simp [twice] at hlabel
  · rw [Reaches, if_pos (by decide +kernel)]
    exact of_decide_eq_true hmem

theorem nothing_invented_twice :
    ∃ (tr : List (Net Unit × Action Unit)) (u : Net Unit), Run step start tr u ∧
      heard micRegistration.address tr = [(iflyosEvtVolChanged, letters 1)] ∧
      (named iflyosEvtVolChanged (heard micRegistration.address tr)).Sublist
        (named iflyosEvtVolChanged (posted tr)) := by
  have hexec : (Run.exec step (start : Net Unit) (registering ++ twice)).map (fun r =>
      heard micRegistration.address r.1) = some [(iflyosEvtVolChanged, letters 1)] := by
    decide +kernel
  obtain ⟨r, hr, hheard⟩ := Option.map_eq_some_iff.mp hexec
  exact ⟨r.1, r.2, Run.of_exec _ hr, hheard,
    nothing_invented (Run.of_exec _ hr) own_ne_volChanged micRegistration.address⟩

end Laws

end Net
