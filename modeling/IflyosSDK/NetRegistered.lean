/-
What a registration is good for.

`IFLYOS_InterfaceInit` installs an app's handlers and then sends their names.
The datagram waits at the umbrella's socket like any other, and processes of all
kinds send, start and exit meanwhile.  As in `Net` the umbrella stays up: no event
is relayed to an address that does not fit a `sun_path`.

* `Net.Told` — what an app has registered waits at the umbrella or is in its
  table;
* `Net.apps_run` — the invariant of every app in every run;
* `Net.registration_takes_effect` — **an app whose registration does not wait any
  longer is reached by all events of its list**, as long as it stays.
-/
import IflyosSDK.Net

namespace Net

variable {H : Type*}

/-- The umbrella has the registrations of a datagram. -/
def Taken (s : Net H) (d : Bytes) : Prop :=
  ∀ msg, decode d = some (iflyosDoRegisterEvtReceiver, msg) →
    ∀ q ∈ subscriptions msg, q.2 ∈ SetTable.members s.umbrella.receivers q.1

/-- What the app has registered waits at the umbrella, or the umbrella has
it. -/
def Told (s : Net H) (a : CString) (done : List (InitStep H)) : Prop :=
  ∀ pre post, done = pre ++ .bindEvents :: post →
    ∀ d ∈ Lives.registrationDatagrams a (registrations pre), d ∈ s.inbox ∨ s.Taken d

/-- An app has the handlers that its main thread has installed, and is bound
once that thread has come so far. -/
structure AppInv (s : Net H) (a : CString) (p : Endpoint H) : Prop where
  handlers : p.bus.handlers = Bus.handlersOf (registrations p.done)
  bound : .bind ∈ p.done → p.bound = true
  told : s.Told a p.done

section AppInv

variable {s u : Net H} {act : Action H} {tr : List (Net H × Action H)} {a e : CString}
  {d : Bytes}

/-- The table only grows. -/
theorem members_step (hinv : Inv s) (h : step s act = some u)
    (ha : a ∈ SetTable.members s.umbrella.receivers e) :
    a ∈ SetTable.members u.umbrella.receivers e := by
  show a ∈ (broker u).subs e
  rcases simulates.matched s act u hinv h with ⟨-, hsame⟩ | ⟨op, -, hspec⟩
  · rw [hsame]
    exact ha
  · exact PubSub.subs_step hspec ha

theorem taken_step (hinv : Inv s) (h : step s act = some u) (ht : s.Taken d) : u.Taken d :=
  fun msg hmsg q hq => members_step hinv h (ht msg hmsg q hq)

theorem umbrellaHandlers_register :
    Bus.umbrellaHandlers iflyosDoRegisterEvtReceiver = some .interfaceRegisteration :=
  Bus.umbrellaHandlers_of_mem List.mem_cons_self

/-- A datagram that has waited waits on, or the umbrella has taken it. -/
theorem waits_step (hinv : Inv s) (h : step s act = some u) (hd : d ∈ s.inbox) :
    d ∈ u.inbox ∨ u.Taken d := by
  cases step_cases h with
  | start _ _ | exit _ | take _ _ _ | lookup _ _ | umbrellaSends _ => exact Or.inl hd
  | init hp hinit => exact Or.inl (List.mem_append_left _ hd)
  | send d' => exact Or.inl (List.mem_append_left _ hd)
  | @umbrella d' inbox hinbox =>
    rw [hinbox] at hd
    rcases List.mem_cons.mp hd with rfl | hd
    swap
    · exact Or.inl hd
    refine Or.inr fun msg hmsg q hq => ?_
    have hreceived : s.received d =
        .invoke .interfaceRegisteration iflyosDoRegisterEvtReceiver msg := by
      rw [received, hinv.handlers]
      exact Bus.receive_eq_invoke hmsg umbrellaHandlers_register
    show q.2 ∈ SetTable.members
      (s.umbrella.receive Bus.umbrellaOnCall s.sendto (s.received d)).receivers q.1
    rw [hreceived]
    show q.2 ∈ SetTable.members (interfaceRegisteration s.umbrella.receivers msg) q.1
    rw [receivers_interfaceRegisteration]
    exact SetTable.mem_insertAll_iff.mpr (Or.inr hq)

theorem told_step {done : List (InitStep H)} (hinv : Inv s) (h : step s act = some u)
    (ht : s.Told a done) : u.Told a done := by
  intro pre post hdone d hd
  rcases ht pre post hdone d hd with hwaits | htaken
  · exact waits_step hinv h hwaits
  · exact Or.inr (taken_step hinv h htaken)

/-- The main thread of an app takes a step. -/
theorem told_init {p : Endpoint H} {i : InitStep H} {todo : List (InitStep H)} (hinv : Inv s)
    (h : step s act = some u) (htodo : p.todo = i :: todo)
    (hinbox : u.inbox = s.inbox ++ registers a p) (ht : s.Told a p.done) :
    u.Told a (p.done ++ [i]) := by
  intro pre post hdone d hd
  rcases List.eq_nil_or_concat post with rfl | ⟨post, j, rfl⟩
  · -- this step is the registration
    obtain ⟨rfl, hi⟩ := List.append_inj' hdone rfl
    obtain rfl : i = .bindEvents := (List.cons.inj hi).1
    refine Or.inl ?_
    rw [hinbox, registers, htodo]
    exact List.mem_append_right _ hd
  · rw [List.concat_eq_append, ← List.cons_append, ← List.append_assoc] at hdone
    obtain ⟨hbefore, -⟩ := List.append_inj' hdone rfl
    exact told_step hinv h ht pre post hbefore d hd

/-- What happens to an app that is there before and after a step. -/
theorem appInv_step (hinv : Inv s) (hs : ∀ a p, s.apps a = some p → s.AppInv a p)
    (h : step s act = some u) : ∀ a p, u.apps a = some p → u.AppInv a p := by
  intro a p hp
  have hother : ∀ p, s.apps a = some p → u.AppInv a p := fun p hp =>
    ⟨(hs a p hp).handlers, (hs a p hp).bound, told_step hinv h (hs a p hp).told⟩
  have hdeliver : ∀ sent : List Sent, (s.apps a).map (Lives.deliver a sent) = some p →
      u.AppInv a p := by
    intro sent hp
    obtain ⟨q, hq, rfl⟩ := Option.map_eq_some_iff.mp hp
    obtain ⟨queue, hqueue, -⟩ := Lives.deliver_cases a sent q
    have hq' := hother q hq
    rw [hqueue]
    exact ⟨hq'.handlers, hq'.bound, hq'.told⟩
  have hput : ∀ {b : CString} {q : Option (Endpoint H)},
      Function.update s.apps b q a = some p → (a = b → ∀ r, q = some r → u.AppInv a r) →
        u.AppInv a p := by
    intro b q hp hself
    by_cases hb : a = b
    · subst hb
      rw [Function.update_self] at hp
      exact hself rfl p hp
    · rw [Function.update_of_ne hb] at hp
      exact hother p hp
  cases step_cases h with
  | start todo hdown =>
    refine hput hp fun _ r hr => ?_
    obtain rfl := Option.some.inj hr
    refine ⟨rfl, fun hmem => absurd hmem List.not_mem_nil, fun pre post hdone => ?_⟩
    have hlength := congrArg List.length hdone
    simp [Endpoint.start] at hlength
  | exit _ =>
    refine hput hp fun _ r hr => ?_
    cases hr
  | @init b q q' hq hinit =>
    refine hput hp fun hb r hr => ?_
    subst hb
    obtain rfl := Option.some.inj hr
    obtain ⟨i, todo, htodo, hperform⟩ := Endpoint.init_cases hinit
    have hold := hs a q hq
    have hnew : q'.Inv (q'.done ++ q'.todo) := by
      refine ⟨rfl, ?_⟩
      have hinv' : q.Inv (q.done ++ q.todo) := ⟨rfl, hold.handlers⟩
      exact (Endpoint.inv_init hinv' hinit).handlers
    have hdone : q'.done = q.done ++ [i] := by
      rw [hperform]
      cases i <;> rfl
    refine ⟨hnew.handlers, fun hmem => ?_, ?_⟩
    · rw [hdone, List.mem_append, List.mem_singleton] at hmem
      rw [hperform]
      rcases hmem with hmem | rfl
      · have hbound := hold.bound hmem
        cases i with
        | bind => rfl
        | startReceiver | registerHandler _ _ | bindEvents => exact hbound
      · rfl
    · rw [hdone]
      exact told_init hinv h htodo rfl hold.told
  | @take b q d queue hq hqueue hfree =>
    refine hput hp fun hb r hr => ?_
    subst hb
    obtain rfl := Option.some.inj hr
    have hq' := hother q hq
    exact ⟨hq'.handlers, hq'.bound, hq'.told⟩
  | @lookup b q q' hq hlookup =>
    refine hput hp fun hb r hr => ?_
    subst hb
    obtain rfl := Option.some.inj hr
    have hq' := hother q hq
    obtain ⟨d, bus, -, hbus, rfl⟩ := Endpoint.lookup_cases hlookup
    exact ⟨(Bus.handlers_step hbus).trans hq'.handlers, hq'.bound, hq'.told⟩
  | send d => exact hother p hp
  | umbrella hinbox => exact hdeliver _ hp
  | umbrellaSends o => exact hdeliver _ hp

theorem apps_run (h : Run step start tr s) : Inv s ∧ ∀ a p, s.apps a = some p → s.AppInv a p := by
  have hstart : Inv (start : Net H) ∧ ∀ a p, (start : Net H).apps a = some p → start.AppInv a p :=
    ⟨inv_start, fun a p hp => by cases hp⟩
  exact Run.invariant (I := fun s => Inv s ∧ ∀ a p, s.apps a = some p → s.AppInv a p) hstart
    (fun _ _ _ ht hu => ⟨inv_step ht.1 hu, appInv_step ht.1 ht.2 hu⟩) h

end AppInv

section Effect

variable {s u : Net H} {tr₁ tr : List (Net H × Action H)} {r : Registration}
  {regs : List (CString × H)} {p : Endpoint H} {e : CString}

/-- What an app sends at the end of `IFLYOS_InterfaceInit`. -/
def registrationDatagram (r : Registration) : Bytes :=
  message iflyosDoRegisterEvtReceiver r.payload

theorem registrationDatagrams_eq (hregs : regs.map Prod.fst = r.events) :
    Lives.registrationDatagrams r.address regs = [registrationDatagram r] := by
  rw [Lives.registrationDatagrams, hregs, r.datagrams_init]
  rfl

/-- The umbrella reads from it the names of the list, for the address. -/
theorem taken_registration_iff :
    s.Taken (registrationDatagram r) ↔
      ∀ e ∈ r.events, r.address ∈ SetTable.members s.umbrella.receivers e := by
  have hread : decode (registrationDatagram r) = some (iflyosDoRegisterEvtReceiver, r.payload) :=
    decode_message space_not_mem_doRegister r.length_le
  have hsubs : subscriptions r.payload = r.events.map fun e => (e, r.address) := by
    rw [subscriptions, Registration.payload, splitAt_bindMessage]
    simp only [atoi_versionString, splitAt_joined _ r.address_noSpace, ne_eq, not_true_eq_false,
      if_false, eventVector_eventsStr r.event_ne r.event_noSpace]
  constructor
  · intro htaken e he
    exact htaken _ hread (e, r.address) (hsubs ▸ List.mem_map_of_mem he)
  · intro hall msg hmsg q hq
    rw [hread] at hmsg
    obtain rfl := (Prod.mk.inj (Option.some.inj hmsg)).2
    rw [hsubs] at hq
    obtain ⟨e, he, rfl⟩ := List.mem_map.mp hq
    exact hall e he

/-- An app that has come to the end of `IFLYOS_InterfaceInit`. -/
theorem handles_of_done (hp : s.apps r.address = some p) (hinv : s.AppInv r.address p)
    (hdone : p.done = initSteps regs) (he : e ∈ regs.map Prod.fst) : Handles s r.address e := by
  refine ⟨p, hp, hinv.bound (hdone ▸ List.mem_cons_self), ?_⟩
  rw [hinv.handlers, hdone, registrations_initSteps, Option.isSome_iff_ne_none, Ne,
    Bus.handlersOf_eq_none_iff]
  intro hnone
  obtain ⟨⟨evt, handler⟩, hmem, rfl⟩ := List.mem_map.mp he
  exact hnone handler hmem

theorem taken_of_done (hregs : regs.map Prod.fst = r.events) (hinv : s.AppInv r.address p)
    (hdone : p.done = initSteps regs) (hgone : registrationDatagram r ∉ s.inbox) :
    s.Taken (registrationDatagram r) := by
  have hlength : regs.length > 0 := by
    rw [← List.length_map, hregs]
    exact List.length_pos_iff.mpr r.events_ne
  have hregistrations :
      registrations ([.bind, .startReceiver] ++ registerHandlers regs) = regs := by
    rw [registrations_append, registrations_registerHandlers]
    rfl
  have hsplit : p.done = ([.bind, .startReceiver] ++ registerHandlers regs) ++
      .bindEvents :: [] := by
    rw [hdone, initSteps, if_pos hlength]
  have htold := hinv.told _ _ hsplit (registrationDatagram r)
    (by rw [hregistrations, registrationDatagrams_eq hregs]; exact List.mem_singleton_self _)
  exact htold.resolve_left hgone

/-- **A registration takes effect.**  When an app has gone through
`IFLYOS_InterfaceInit` and its registration does not wait at the umbrella any
longer, every event of its list has a handler and is routed to the app, then and
as long as the app stays. -/
theorem registration_takes_effect (hregs : regs.map Prod.fst = r.events)
    (hreached : Run step start tr₁ s) (hp : s.apps r.address = some p)
    (hdone : p.done = initSteps regs) (hgone : registrationDatagram r ∉ s.inbox)
    (h : Run step s tr u) (hstays : ∀ q ∈ tr, q.2 ≠ .exit r.address) :
    ∀ e ∈ r.events, Handles u r.address e ∧
      r.address ∈ SetTable.members u.umbrella.receivers e := by
  intro e he
  obtain ⟨hinv, hall⟩ := apps_run hreached
  have happ := hall r.address p hp
  have hstart : Inv s ∧ Handles s r.address e ∧
      r.address ∈ SetTable.members s.umbrella.receivers e :=
    ⟨hinv, handles_of_done hp happ hdone (hregs ▸ he),
      taken_registration_iff.mp (taken_of_done hregs happ hdone hgone) e he⟩
  have hend := h.invariant_of (I := fun u => Inv u ∧ Handles u r.address e ∧
      r.address ∈ SetTable.members u.umbrella.receivers e)
    (C := fun _ act => act ≠ .exit r.address) hstart
    (fun t act v ht hact hv => ⟨inv_step ht.1 hv, (handled_step hv ht.2.1 hact).1,
      members_step ht.1 hv ht.2.2⟩) hstays
  exact hend.2

deriving instance DecidableEq for InitStep

/-- The registration of one event of MicAgent. -/
def volChangedRegistration : Registration where
  address := micRegistration.address
  events := [iflyosEvtVolChanged]
  address_ne := micRegistration.address_ne
  address_noSpace := micRegistration.address_noSpace
  events_ne := by simp
  event_ne := by decide +kernel
  event_noSpace := noSpace_of_all (by decide +kernel)
  fits := by decide +kernel

theorem registration_takes_effect_twice :
    ∃ (tr₁ tr : List (Net Unit × Action Unit)) (s u : Net Unit), Run step start tr₁ s ∧
      Run step s tr u ∧ tr.length = 6 ∧ ∀ e ∈ volChangedRegistration.events,
        Handles u volChangedRegistration.address e ∧
          volChangedRegistration.address ∈ SetTable.members u.umbrella.receivers e := by
  have hregs : ([(iflyosEvtVolChanged, ())] : List (CString × Unit)).map Prod.fst =
      volChangedRegistration.events := rfl
  have hexec : (Run.exec step (start : Net Unit) registering).map (fun r =>
      ((r.2.apps micRegistration.address).map fun p =>
          decide (p.done = initSteps [(iflyosEvtVolChanged, ())]),
        r.2.inbox, (Run.exec step r.2 twice).map fun r' => r'.1.length)) =
      some (some true, [], some 6) := by
    decide +kernel
  obtain ⟨r, hr, hobs⟩ := Option.map_eq_some_iff.mp hexec
  obtain ⟨happ, hobs⟩ := Prod.mk.inj hobs
  obtain ⟨hinbox, hobs⟩ := Prod.mk.inj hobs
  obtain ⟨p, hp, hdone⟩ := Option.map_eq_some_iff.mp happ
  obtain ⟨r', hr', hlength⟩ := Option.map_eq_some_iff.mp hobs
  refine ⟨r.1, r'.1, r.2, r'.2, Run.of_exec _ hr, Run.of_exec _ hr', hlength,
    registration_takes_effect hregs (Run.of_exec _ hr) hp
      (of_decide_eq_true hdone) (by rw [hinbox]; exact List.not_mem_nil) (Run.of_exec _ hr')
      fun q hq hexit => ?_⟩
  have hlabel : q.2 ∈ twice := Run.labels_of_exec _ hr' ▸ List.mem_map_of_mem hq
  rw [hexit] at hlabel
  simp [twice] at hlabel

end Effect

end Net
