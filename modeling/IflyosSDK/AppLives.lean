/-
The lives of an app: it starts, registers its events, exits and starts again.

The umbrella never forgets an address.  In the first life of an app the order
of `IFLYOS_InterfaceInit`, the handlers before the registration, keeps events
away until all handlers are there; in every later life events arrive as soon as
the socket is bound.

* `Lives.step` — one step of the app, of the umbrella or of another sender;
* `Lives.inv_step` — what protects the first life;
* `Lives.no_event_dropped_iff` — **the runs in which the app drops no event**.
-/
import IflyosSDK.Endpoint

/-- The app, how often it has started, the umbrella's socket and the
umbrella. -/
structure Lives (H : Type*) where
  life : ℕ
  running : Bool
  app : Endpoint H
  inbox : List Bytes
  umbrella : Bus Bus.UmbrellaHandler

namespace Lives

variable {H : Type*}

/-- The umbrella runs, and the app has not been started yet. -/
def start : Lives H := ⟨0, false, .start [], [], .new Bus.umbrellaHandlers⟩

/-- What can happen next.  `send d` is a datagram to the umbrella that is not
the registration of the app; `umbrellaEvent` and `umbrellaAction` are what the
umbrella sends on its own, EVT_STOPPED from its executor and the actions of its
console. -/
inductive Action
  | appStarts
  | appExits
  | appInit
  | appTake
  | appLookup (sendto : Datagram → SendResult)
  | send (d : Bytes)
  | umbrella (sendto : Datagram → SendResult)
  | umbrellaEvent (evt msg : CString) (sendto : Datagram → SendResult)
  | umbrellaAction (evt msg : CString) (sendto : Datagram → SendResult)

section Step

variable (address : CString) (regs : List (CString × H))

/-- The app starts with the same address and list. -/
def appStarts (s : Lives H) : Option (Lives H) :=
  if s.running then none
  else some { s with life := s.life + 1, running := true, app := .start (initSteps regs) }

/-- The app exits; its socket is closed. -/
def appExits (s : Lives H) : Option (Lives H) :=
  if s.running then some { s with running := false, app := .start [] } else none

/-- What the app sends at the end of `IFLYOS_InterfaceInit`. -/
def registrationDatagrams : List Bytes :=
  (interfaceInitRegistration sendAll address (regs.map Prod.fst)).datagrams.map Datagram.payload

/-- The next step of the app's main thread. -/
def appInit (s : Lives H) : Option (Lives H) :=
  match s.app.todo with
  | .bind :: _ =>
    -- the umbrella's address is in use
    if address = umbrellaAddr then none else s.app.init.map fun app => { s with app := app }
  | .bindEvents :: _ =>
    s.app.init.map fun app =>
      { s with app := app, inbox := s.inbox ++ registrationDatagrams address regs }
  | _ => s.app.init.map fun app => { s with app := app }

/-- What the umbrella has sent to the app's address arrives, if it is bound. -/
def deliver (sent : List Sent) (app : Endpoint H) : Endpoint H :=
  if app.bound then
    { app with
      queue := app.queue ++
        ((sent.flatMap Sent.datagrams).filter fun d => d.dest = address).map Datagram.payload }
  else app

/-- The umbrella takes and processes a datagram. -/
def umbrellaStep (sendto : Datagram → SendResult) (s : Lives H) : Option (Lives H) :=
  match s.inbox with
  | [] => none
  | d :: inbox =>
    (s.umbrella.step .umbrella Bus.umbrellaOnCall ⟨d, sendto⟩).map fun b =>
      { s with
        inbox := inbox
        umbrella := b
        app := deliver address (b.sends.drop s.umbrella.sends.length) s.app }

/-- A thread of the umbrella sends something of its own. -/
def umbrellaSends (sent : Sent) (s : Lives H) : Lives H :=
  { s with
    umbrella := s.umbrella.sentEvent sent
    app := deliver address [sent] s.app }

def step (s : Lives H) : Action → Option (Lives H)
  | .appStarts => appStarts regs s
  | .appExits => appExits s
  | .appInit => appInit address regs s
  | .appTake => s.app.take.map fun app => { s with app := app }
  | .appLookup sendto =>
    (s.app.lookup .interface Bus.keep sendto).map fun app => { s with app := app }
  | .send d =>
    if Bus.registeredAddress d = some address then none else some { s with inbox := s.inbox ++ [d] }
  | .umbrella sendto => umbrellaStep address sendto s
  | .umbrellaEvent evt msg sendto =>
    some (umbrellaSends address (interfaceUmbrellaSendEvent s.umbrella.receivers sendto evt msg) s)
  | .umbrellaAction evt msg sendto =>
    some (umbrellaSends address (interfaceUmbrellaSendAction sendto evt msg) s)

end Step

/-! ### The first life -/

section Inv

variable {address : CString} {regs : List (CString × H)} {s u : Lives H} {a : Action}

/-- Nobody has registered the app's address, and nothing has reached it. -/
structure Fresh (address : CString) (s : Lives H) : Prop where
  unregistered : Bus.Unregistered address s.umbrella
  inbox : ∀ d ∈ s.inbox, Bus.registeredAddress d ≠ some address
  queue : s.app.queue = []
  taken : s.app.taken = none

/-- The app runs its `IFLYOS_InterfaceInit`, or is down.  Until the first life
has come to its registration nothing reaches it. -/
structure Inv (address : CString) (regs : List (CString × H)) (s : Lives H) : Prop where
  handlers : s.umbrella.handlers = Bus.umbrellaHandlers
  app : (0 < s.life ∧ s.app.Inv (initSteps regs)) ∨ s.app = .start []
  fresh : address = osAddr ∨ 1 < s.life ∨ (s.life = 1 ∧ s.app.todo = []) ∨ Fresh address s

theorem inv_start : Inv address regs (start : Lives H) := by
  refine ⟨rfl, Or.inr rfl, Or.inr (Or.inr (Or.inr ⟨?_, by simp [start], rfl, rfl⟩))⟩
  intro e h
  rw [start, Bus.new, SetTable.members_empty] at h
  exact Finset.notMem_empty _ h

/-- What protects the app in one state protects it in the next: a life only
grows, and a first life that has come to its registration stays there. -/
theorem Inv.fresh_of (hinv : Inv address regs s) (hlife : s.life ≤ u.life)
    (hdone : s.life = 1 → s.app.todo = [] → 1 < u.life ∨ u.life = 1 ∧ u.app.todo = [])
    (hfresh : address ≠ osAddr → Fresh address s → Fresh address u) :
    address = osAddr ∨ 1 < u.life ∨ (u.life = 1 ∧ u.app.todo = []) ∨ Fresh address u := by
  by_cases hos : address = osAddr
  · exact Or.inl hos
  rcases hinv.fresh with hos' | hlater | ⟨hfirst, htodo⟩ | hs
  · exact absurd hos' hos
  · exact Or.inr (Or.inl (Nat.lt_of_lt_of_le hlater hlife))
  · rcases hdone hfirst htodo with hu | hu
    · exact Or.inr (Or.inl hu)
    · exact Or.inr (Or.inr (Or.inl hu))
  · exact Or.inr (Or.inr (Or.inr (hfresh hos hs)))

/-- Nothing follows the registration. -/
theorem eq_nil_of_bindEvents {done todo : List (InitStep H)}
    (h : done ++ .bindEvents :: todo = initSteps regs) : todo = [] := by
  have hfront : InitStep.bindEvents ∉ [.bind, .startReceiver] ++ registerHandlers regs := by
    simp [registerHandlers]
  rw [initSteps] at h
  split at h
  · rcases List.eq_nil_or_concat todo with rfl | ⟨todo, s, rfl⟩
    · rfl
    · rw [List.concat_eq_append, ← List.cons_append, ← List.append_assoc] at h
      obtain ⟨hinit, -⟩ := List.append_inj' h rfl
      exact absurd (hinit ▸ by simp) hfront
  · rw [List.append_nil] at h
    exact absurd (h ▸ by simp) hfront

theorem appInit_cases (h : appInit address regs s = some u) :
    ∃ app, s.app.init = some app ∧
      (((∀ todo, s.app.todo ≠ .bindEvents :: todo) ∧ u = { s with app := app }) ∨
        (∃ todo, s.app.todo = .bindEvents :: todo) ∧
          u = { s with app := app, inbox := s.inbox ++ registrationDatagrams address regs }) := by
  rw [appInit] at h
  split at h
  · rename_i todo htodo
    split at h
    · cases h
    · obtain ⟨app, happ, rfl⟩ := Option.map_eq_some_iff.mp h
      refine ⟨app, happ, Or.inl ⟨fun todo' h' => ?_, rfl⟩⟩
      rw [htodo] at h'
      cases h'
  · rename_i todo htodo
    obtain ⟨app, happ, rfl⟩ := Option.map_eq_some_iff.mp h
    exact ⟨app, happ, Or.inr ⟨⟨todo, htodo⟩, rfl⟩⟩
  · rename_i hnot
    obtain ⟨app, happ, rfl⟩ := Option.map_eq_some_iff.mp h
    exact ⟨app, happ, Or.inl ⟨fun todo h' => hnot todo h', rfl⟩⟩

theorem inv_appInit (hinv : Inv address regs s) (h : appInit address regs s = some u) :
    Inv address regs u := by
  obtain ⟨app, happ, hcases⟩ := appInit_cases h
  obtain ⟨step, todo, htodo, hperform⟩ := Endpoint.init_cases happ
  rcases hinv.app with ⟨hlife, happinv⟩ | hdown
  swap
  · -- a process that is down has nothing to do
    rw [hdown] at htodo
    cases htodo
  have hframe : app.queue = s.app.queue ∧ app.taken = s.app.taken ∧ app.todo = todo := by
    rw [hperform]
    cases step <;> exact ⟨rfl, rfl, rfl⟩
  obtain ⟨hqueue, htaken, happtodo⟩ := hframe
  rcases hcases with ⟨hnot, rfl⟩ | ⟨⟨todo', htodo'⟩, rfl⟩
  · refine ⟨hinv.handlers, Or.inl ⟨hlife, Endpoint.inv_init happinv happ⟩,
      hinv.fresh_of le_rfl (fun _ hdone => ?_) fun _ hfresh => ?_⟩
    · rw [hdone] at htodo
      cases htodo
    · exact ⟨hfresh.unregistered, hfresh.inbox, hqueue.trans hfresh.queue,
        htaken.trans hfresh.taken⟩
  · -- the registration is sent, and it is the last step
    refine ⟨hinv.handlers, Or.inl ⟨hlife, Endpoint.inv_init happinv happ⟩, Or.inr ?_⟩
    rcases Nat.lt_or_ge 1 s.life with hlater | hfirst
    · exact Or.inl hlater
    · refine Or.inr (Or.inl ⟨Nat.le_antisymm hfirst hlife, ?_⟩)
      have hsplit := happinv.split
      rw [htodo'] at hsplit
      show app.todo = []
      rw [happtodo, ← eq_nil_of_bindEvents hsplit]
      rw [htodo'] at htodo
      exact (List.cons.inj htodo).2.symm

theorem deliver_cases (address : CString) (sent : List Sent) (app : Endpoint H) :
    ∃ queue, deliver address sent app = { app with queue := queue } ∧
      (app.bound = false → queue = app.queue) ∧
      ((∀ s ∈ sent, ∀ d ∈ s.datagrams, d.dest ≠ address) → queue = app.queue) := by
  rw [deliver]
  split
  · rename_i hbound
    refine ⟨_, rfl, fun h => absurd hbound (by simp [h]), fun hnone => ?_⟩
    have hfilter : (sent.flatMap Sent.datagrams).filter (fun d => d.dest = address) = [] := by
      rw [List.filter_eq_nil_iff]
      intro d hd
      obtain ⟨s, hs, hmem⟩ := List.mem_flatMap.mp hd
      simpa using hnone s hs d hmem
    rw [hfilter]
    exact List.append_nil _
  · exact ⟨app.queue, rfl, fun _ => rfl, fun _ => rfl⟩

/-- The umbrella has become `b` and sent `sent` on the way. -/
theorem inv_deliver {b : Bus Bus.UmbrellaHandler} {inbox : List Bytes} {sent : List Sent}
    (hinv : Inv address regs s) (hb : b.handlers = Bus.umbrellaHandlers) (hinbox : inbox ⊆ s.inbox)
    (hsent : address ≠ osAddr → Fresh address s →
      Bus.Unregistered address b ∧ ∀ x ∈ sent, ∀ d ∈ x.datagrams, d.dest ≠ address) :
    Inv address regs
      { s with inbox := inbox, umbrella := b, app := deliver address sent s.app } := by
  obtain ⟨queue, hdeliver, hunbound, hnone⟩ := deliver_cases address sent s.app
  rw [hdeliver]
  refine ⟨hb, ?_, hinv.fresh_of le_rfl (fun hfirst hdone => Or.inr ⟨hfirst, hdone⟩)
    fun hos hfresh => ?_⟩
  · rcases hinv.app with ⟨hlife, happ⟩ | hdown
    · exact Or.inl ⟨hlife, happ.split, happ.handlers⟩
    · refine Or.inr ?_
      show { s.app with queue := queue } = _
      rw [hunbound (by rw [hdown]; rfl), hdown]
  · obtain ⟨hunregistered, hdest⟩ := hsent hos hfresh
    exact ⟨hunregistered, fun d hd => hfresh.inbox d (hinbox hd), (hnone hdest).trans hfresh.queue,
      hfresh.taken⟩

theorem inv_umbrellaStep {sendto : Datagram → SendResult} (hinv : Inv address regs s)
    (h : umbrellaStep address sendto s = some u) : Inv address regs u := by
  rw [umbrellaStep] at h
  split at h
  · cases h
  · rename_i d inbox hinbox
    obtain ⟨b, hb, rfl⟩ := Option.map_eq_some_iff.mp h
    refine inv_deliver hinv ((Bus.handlers_step hb).trans hinv.handlers)
      (hinbox ▸ List.subset_cons_self d inbox) fun hos hfresh => ?_
    obtain ⟨l, hl, hdest⟩ := Bus.sends_of_unregistered hfresh.unregistered hos hb
    rw [hl, List.drop_left]
    have hhead : Bus.registeredAddress d ≠ some address :=
      hfresh.inbox d (hinbox ▸ List.mem_cons_self)
    exact ⟨Bus.unregistered_step hfresh.unregistered hinv.handlers hb hhead, hdest⟩

/-- The umbrella sends something of its own, and not to an address that nobody
has registered. -/
theorem inv_umbrellaSends {sent : Sent} (hinv : Inv address regs s)
    (hsent : address ≠ osAddr → Bus.Unregistered address s.umbrella →
      ∀ d ∈ sent.datagrams, d.dest ≠ address) :
    Inv address regs (umbrellaSends address sent s) := by
  refine inv_deliver hinv hinv.handlers (List.Subset.refl s.inbox) fun hos hfresh =>
    ⟨hfresh.unregistered, fun x hx => ?_⟩
  rw [List.mem_singleton.mp hx]
  exact hsent hos hfresh.unregistered

theorem inv_step (hinv : Inv address regs s) (h : step address regs s a = some u) :
    Inv address regs u := by
  cases a with
  | appStarts =>
    rw [step, appStarts] at h
    split at h
    · cases h
    · rw [← Option.some.inj h]
      refine ⟨hinv.handlers, Or.inl ⟨Nat.succ_pos _, Endpoint.inv_start⟩,
        hinv.fresh_of (Nat.le_succ _) (fun hfirst _ => Or.inl ?_) fun _ hfresh => ?_⟩
      · show 1 < s.life + 1
        rw [hfirst]
        exact Nat.lt_succ_self 1
      · exact ⟨hfresh.unregistered, hfresh.inbox, rfl, rfl⟩
  | appExits =>
    rw [step, appExits] at h
    split at h
    · rw [← Option.some.inj h]
      exact ⟨hinv.handlers, Or.inr rfl, hinv.fresh_of le_rfl (fun hfirst _ => Or.inr ⟨hfirst, rfl⟩)
        fun _ hfresh => ⟨hfresh.unregistered, hfresh.inbox, rfl, rfl⟩⟩
    · cases h
  | appInit => exact inv_appInit hinv h
  | appTake =>
    obtain ⟨app, happ, rfl⟩ := Option.map_eq_some_iff.mp h
    obtain ⟨d, queue, hqueue, rfl⟩ := Endpoint.take_cases happ
    rcases hinv.app with ⟨hlife, happinv⟩ | hdown
    · refine ⟨hinv.handlers, Or.inl ⟨hlife, happinv.split, happinv.handlers⟩,
        hinv.fresh_of le_rfl (fun hfirst hdone => Or.inr ⟨hfirst, hdone⟩) fun _ hfresh => ?_⟩
      rw [hfresh.queue] at hqueue
      cases hqueue
    · rw [hdown] at hqueue
      cases hqueue
  | appLookup sendto =>
    obtain ⟨app, happ, rfl⟩ := Option.map_eq_some_iff.mp h
    obtain ⟨d, b, htaken, hb, rfl⟩ := Endpoint.lookup_cases happ
    rcases hinv.app with ⟨hlife, happinv⟩ | hdown
    · have hhandlers := (Bus.handlers_step hb).trans happinv.handlers
      refine ⟨hinv.handlers, Or.inl ⟨hlife, happinv.split, hhandlers⟩,
        hinv.fresh_of le_rfl (fun hfirst hdone => Or.inr ⟨hfirst, hdone⟩) fun _ hfresh => ?_⟩
      rw [hfresh.taken] at htaken
      cases htaken
    · rw [hdown] at htaken
      cases htaken
  | send d =>
    rw [step] at h
    split at h
    · cases h
    · rename_i hother
      rw [← Option.some.inj h]
      refine ⟨hinv.handlers, hinv.app, hinv.fresh_of le_rfl
        (fun hfirst hdone => Or.inr ⟨hfirst, hdone⟩) fun _ hfresh =>
          ⟨hfresh.unregistered, fun d' hd' => ?_, hfresh.queue, hfresh.taken⟩⟩
      rcases List.mem_append.mp hd' with hd' | hd'
      · exact hfresh.inbox d' hd'
      · rw [List.mem_singleton.mp hd']
        exact hother
  | umbrella sendto => exact inv_umbrellaStep hinv h
  | umbrellaEvent evt msg sendto =>
    rw [← Option.some.inj h]
    refine inv_umbrellaSends hinv fun _ hunregistered d hd hdest => ?_
    exact hunregistered evt (hdest ▸ Bus.dest_mem_members hd)
  | umbrellaAction evt msg sendto =>
    rw [← Option.some.inj h]
    refine inv_umbrellaSends hinv fun hos _ d hd hdest => ?_
    exact hos (hdest ▸ Bus.dest_eq_osAddr hd)

end Inv

/-! ### Whole runs -/

section Run

variable {address : CString} {regs : List (CString × H)} {s u : Lives H}
  {tr : List (Lives H × Action)}

/-- In a life after the first, or at the OS address, the app looks up an event
of its list before it has installed a handler for it. -/
def EarlyInLaterLife (address : CString) (regs : List (CString × H)) (s : Lives H) : Prop :=
  (1 < s.life ∨ address = osAddr) ∧ s.app.Early (regs.map Prod.fst)

theorem dispatches_iff {sendto : Datagram → SendResult} (hinv : Inv address regs s)
    (h : step address regs s (.appLookup sendto) = some u) :
    s.app.Dispatches (regs.map Prod.fst) regs u.app ↔ ¬ EarlyInLaterLife address regs s := by
  obtain ⟨app, happ, rfl⟩ := Option.map_eq_some_iff.mp h
  obtain ⟨d, b, htaken, -, -⟩ := Endpoint.lookup_cases happ
  rcases hinv.app with ⟨-, happinv⟩ | hdown
  swap
  · rw [hdown] at htaken
    cases htaken
  have hiff := Endpoint.dispatches_iff (regs.map Prod.fst) happinv happ
  rw [registrations_initSteps] at hiff
  rw [hiff, EarlyInLaterLife, not_and]
  constructor
  · exact fun hnot _ => hnot
  · intro hlater hearly
    rcases hinv.fresh with hos | hlife | ⟨-, hdone⟩ | hfresh
    · exact hlater (Or.inr hos) hearly
    · exact hlater (Or.inl hlife) hearly
    · -- the first life has installed all its handlers
      obtain ⟨evt, msg, -, hname, hnot⟩ := hearly
      have hsplit := happinv.split
      rw [hdone, List.append_nil] at hsplit
      rw [hsplit, registrations_initSteps] at hnot
      exact hnot hname
    · rw [hfresh.taken] at htaken
      cases htaken

/-- **The runs in which the app drops no event**: those in which, after its
first life, no event of its list is looked up before its handler is there. -/
theorem no_event_dropped_iff (h : Run (step address regs) start tr s) :
    (∀ p ∈ tr, ∀ sendto u, p.2 = .appLookup sendto → step address regs p.1 p.2 = some u →
        p.1.app.Dispatches (regs.map Prod.fst) regs u.app) ↔
      ∀ p ∈ tr, ∀ sendto, p.2 = .appLookup sendto → ¬ EarlyInLaterLife address regs p.1 := by
  have hinv : ∀ p ∈ tr, Inv address regs p.1 :=
    h.states (I := Inv address regs) inv_start fun _ _ _ hs hu => inv_step hs hu
  constructor
  · intro hdisp p hp sendto hlookup
    obtain ⟨v, hv, -⟩ := h.exists_next hp
    have hdisp := hdisp p hp sendto v hlookup hv
    rw [hlookup] at hv
    exact (dispatches_iff (hinv p hp) hv).mp hdisp
  · intro hnot p hp sendto v hlookup hv
    have hnot := hnot p hp sendto hlookup
    rw [hlookup] at hv
    exact (dispatches_iff (hinv p hp) hv).mpr hnot

/-- An app that registers one event. -/
def stoppedRegs : List (CString × Unit) := [(iflyosEvtStopped, ())]

/-- The app starts, registers, and is sent the event. -/
def firstLife : List Action :=
  [.appStarts, .appInit, .appInit, .appInit, .appInit, .umbrella sendAll,
    .send (message iflyosEvtStopped (letters 1)), .umbrella sendAll, .appTake]

/-- The app starts, registers, exits, starts again, and is sent the event before
it has installed its handler. -/
def secondLife : List Action :=
  [.appStarts, .appInit, .appInit, .appInit, .appInit, .umbrella sendAll, .appExits, .appStarts,
    .appInit, .appInit, .send (message iflyosEvtStopped (letters 1)), .umbrella sendAll, .appTake]

/-- In the first life of an app its event is dispatched. -/
theorem no_event_dropped_in_first_life :
    ∃ tr s, Run (step micRegistration.address stoppedRegs) start tr s ∧
      s.app.bus.calls = [((), iflyosEvtStopped, letters 1)] ∧
      ∀ p ∈ tr, ∀ sendto u, p.2 = .appLookup sendto →
        step micRegistration.address stoppedRegs p.1 p.2 = some u →
        p.1.app.Dispatches (stoppedRegs.map Prod.fst) stoppedRegs u.app := by
  have hexec : (Run.exec (step micRegistration.address stoppedRegs) start
      (firstLife ++ [.appLookup sendAll])).map
        (fun r => (r.2.app.bus.calls, r.1.all fun p => decide (p.1.life ≤ 1))) =
      some ([((), iflyosEvtStopped, letters 1)], true) := by
    decide +kernel
  obtain ⟨r, hr, hobs⟩ := Option.map_eq_some_iff.mp hexec
  obtain ⟨hcalls, hlife⟩ := Prod.mk.inj hobs
  have hrun := Run.of_exec _ hr
  refine ⟨r.1, r.2, hrun, hcalls, (no_event_dropped_iff hrun).mpr ?_⟩
  rintro p hp sendto - ⟨hlater | hos, -⟩
  · have hfirst := List.all_eq_true.mp hlife p hp
    rw [decide_eq_true_eq] at hfirst
    omega
  · exact absurd hos (by decide +kernel)

/-- **An event is dropped in the second life**: the umbrella forwards it as
soon as the socket is bound again. -/
theorem event_dropped_in_second_life :
    ∃ tr s u, Run (step micRegistration.address stoppedRegs) start tr s ∧
      s.app.pending = some (iflyosEvtStopped, letters 1) ∧
      iflyosEvtStopped ∈ stoppedRegs.map Prod.fst ∧
      step micRegistration.address stoppedRegs s (.appLookup sendAll) = some u ∧
      u.app.bus.calls = [] := by
  have hexec : (Run.exec (step micRegistration.address stoppedRegs) start secondLife).map
        (fun r => (r.2.app.pending, (step micRegistration.address stoppedRegs r.2
          (.appLookup sendAll)).map fun u => u.app.bus.calls)) =
      some (some (iflyosEvtStopped, letters 1), some []) := by
    decide +kernel
  obtain ⟨r, hr, hobs⟩ := Option.map_eq_some_iff.mp hexec
  obtain ⟨hpending, hlookup⟩ := Prod.mk.inj hobs
  obtain ⟨u, hu, hcalls⟩ := Option.map_eq_some_iff.mp hlookup
  exact ⟨r.1, r.2, u, Run.of_exec _ hr, hpending, List.mem_cons_self, hu, hcalls⟩

end Run

end Lives
