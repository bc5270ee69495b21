/-
What MicAgent's handlers send, and the bus that stops because of it.

Five of the registered handlers call `IFLYOS_InterfaceSendEvent` on the receiver
thread.  Three of them report alternately a success and a failure, from a flag
that each keeps between its calls.

* `MicAgent.calls` — what each handler sends;
* `MicAgent.quiet_iff` — which of them send nothing;
* `Congestion.queueLimit` — a kernel that counts the datagrams of a socket;
* `Congestion.deadlock_for_every_limit` — **the bus stops whatever the limit
  is**, when the app asks for one report after the other.
-/
import IflyosSDK.Congestion
import IflyosSDK.NetRegistered

namespace MicAgent

/-- `trueFalse` of the three lambdas. -/
structure Reports where
  swUpdate : Bool
  swUpdateCheck : Bool
  setWakeword : Bool
  deriving DecidableEq, Repr

def Reports.init : Reports := ⟨false, false, false⟩

/-- The event and the payload of a message. -/
def Message.text : Message → CString × CString
  | .doStart => (Bus.iflyosDoStart, .ofString "")
  | .doStop => (Bus.iflyosDoStop, .ofString "")
  | .doClearDataThenQuit => (.ofString "DO_CLEAR_DATA_THEN_QUIT", .ofString "")
  | .doDialogStart path => (.ofString "DO_DIALOG_START", .ofString path)
  | .doSetDnd on => (.ofString "DO_SET_DND", .ofString (if on then "true" else "false"))
  | .doKeypressVolDown => (.ofString "DO_KEYPRESS_VOL_DOWN", .ofString "")
  | .doKeypressVolUp => (.ofString "DO_KEYPRESS_VOL_UP", .ofString "")
  | .doKeypressPlayPause => (.ofString "DO_KEYPRESS_PLAY_PAUSE", .ofString "")

/-- What a handler sends when it is called.  SET_WAKEWORD reads the second line
of its payload; a payload without one has no defined behaviour, and sends
nothing here. -/
def calls (e : Registered) (r : Reports) (_evt msg : CString) :
    Reports × List (CString × CString) :=
  match e with
  | .event e => (r, (sends e).map Message.text)
  | .swUpdate =>
    let version := CString.ofString "测试版本号\n测试版本描述内容"
    let failure := CString.ofString "测试错误\n测试错误描述"
    ({ r with swUpdate := !r.swUpdate },
      [(.ofString "DO_REPORT_SW_UPDATE_START", version),
        if r.swUpdate then (.ofString "DO_REPORT_SW_UPDATE_SUCCESS", version)
        else (.ofString "DO_REPORT_SW_UPDATE_FAIL", failure)])
  | .swUpdateCheck =>
    ({ r with swUpdateCheck := !r.swUpdateCheck },
      [if r.swUpdateCheck then
        (.ofString "DO_REPORT_SW_UPDATE_CHECK_SUCCESS",
          .ofString "true\n测试版本号\n测试版本描述内容")
      else (.ofString "DO_REPORT_SW_UPDATE_CHECK_FAIL", .ofString "")])
  | .setWakeword =>
    match (linesOf msg)[1]? with
    | none => (r, [])
    | some line =>
      ({ r with setWakeword := !r.setWakeword },
        [if r.setWakeword then (.ofString "DO_REPORT_SET_WW_SUCCESS", .ofMemory line)
        else (.ofString "DO_REPORT_SET_WW_FAIL",
          .ofMemory (line ++ "测试错误描述".toUTF8.toList))])
  | .volChanged | .reboot => (r, [])

/-- The handlers that send on the receiver thread. -/
def reporting : List Registered :=
  [.event .authServerError, .event .factoryReset, .swUpdate, .swUpdateCheck, .setWakeword]

theorem quiet_iff (e : Registered) : Congestion.Quiet calls e ↔ e ∉ reporting := by
  constructor
  · intro hquiet hmem
    -- a payload of two lines, for the wake word
    have hnone := hquiet .init (.ofString "") (.ofString "a\nb")
    simp only [reporting, List.mem_cons, List.not_mem_nil, or_false] at hmem
    rcases hmem with rfl | rfl | rfl | rfl | rfl
    · cases hnone
    · cases hnone
    · cases hnone
    · cases hnone
    · have hline : (linesOf (.ofString "a\nb"))[1]?.isSome = true := by decide +kernel
      obtain ⟨line, hline⟩ := Option.isSome_iff_exists.mp hline
      simp [calls, hline] at hnone
  · intro hmem r evt msg
    cases e with
    | event e =>
      cases e with
      | authServerError | factoryReset => exact absurd (by decide) hmem
      | _ => rfl
    | swUpdate | swUpdateCheck | setWakeword => exact absurd (by decide) hmem
    | volChanged | reboot => rfl

end MicAgent

namespace Congestion

open MicAgent

/-- A kernel that lets `n` datagrams wait at a socket. -/
def queueLimit (n : ℕ) (mail : List (Letter CString Bytes)) (l : Letter CString Bytes) : Bool :=
  decide (mail.countP (Exchange.addressed l.receiver) < n)

theorem roomy_queueLimit {H F : Type*} {n : ℕ}
    {calls : H → F → CString → CString → F × List (CString × CString)} {blank : F}
    (hn : 0 < n) : (bus (queueLimit n) calls blank).Roomy where
  clear mail l h := by
    have hnone : mail.countP (Exchange.addressed l.receiver) = 0 := by
      rw [List.countP_eq_zero]
      exact fun l' hl' hto => (h l' hl').2 (Exchange.addressed_iff.mp hto)
    refine decide_eq_true ?_
    rw [hnone]
    exact hn
  sublist mail mail' l h hroom :=
    decide_eq_true (Nat.lt_of_le_of_lt h.countP_le (of_decide_eq_true hroom))

/-! ### Reports without end -/

/-- `IFLYOS_EVT_SW_UPDATE_CHECK`. -/
def iflyosEvtSwUpdateCheck : CString := CString.ofString "EVT_SW_UPDATE_CHECK"

def micAddr : CString := micRegistration.address

/-- The app asks for a report. -/
def request : Bytes := message iflyosEvtSwUpdateCheck (CString.ofString "")

/-- It waits at the umbrella's socket, or at MicAgent's. -/
def asked : Letter CString Bytes := ⟨osAddr, umbrellaAddr, request⟩

def relayed : Letter CString Bytes := ⟨umbrellaAddr, micAddr, request⟩

/-- MicAgent's registration of the one event. -/
def updateCheckRegistration : Registration where
  address := micAddr
  events := [iflyosEvtSwUpdateCheck]
  address_ne := micRegistration.address_ne
  address_noSpace := micRegistration.address_noSpace
  events_ne := by simp
  event_ne := by decide +kernel
  event_noSpace := noSpace_of_all (by decide +kernel)
  fits := by decide +kernel

/-- MicAgent and the app are there, and the umbrella knows of MicAgent. -/
def settingUp : List (Action Registered) :=
  [.start micAddr, .change (micAddr, some .swUpdateCheck, iflyosEvtSwUpdateCheck), .start osAddr,
    .post ⟨micAddr, umbrellaAddr, Net.registrationDatagram updateCheckRegistration⟩,
    .take umbrellaAddr]

section Reports

variable {n : ℕ} {s : State Registered Reports} {mail : List (Letter CString Bytes)}
  {relays reports : List (CString × Bytes)}

/-- The three processes, what is in flight, and what the umbrella's worker and
MicAgent's have still to send. -/
structure Asking (s : State Registered Reports) (mail : List (Letter CString Bytes))
    (relays reports : List (CString × Bytes)) : Prop where
  umbrella : s.live umbrellaAddr = true
  mic : s.live micAddr = true
  os : s.live osAddr = true
  mail : s.mail = mail
  relays : s.todo umbrellaAddr = relays
  reports : s.todo micAddr = reports
  free : ∀ a, a ≠ umbrellaAddr → a ≠ micAddr → s.todo a = []
  receivers : outgoing (interfaceUmbrellaSendEvent s.world.receivers sendAll
    iflyosEvtSwUpdateCheck (CString.ofString "")) = [(micAddr, request)]
  handlers : s.world.handlers micAddr iflyosEvtSwUpdateCheck = some .swUpdateCheck

theorem decode_request :
    Net.decode request = some (iflyosEvtSwUpdateCheck, CString.ofString "") :=
  Net.decode_message (by decide +kernel) (by decide +kernel)

theorem micAddr_ne : micAddr ≠ umbrellaAddr := by
  decide +kernel

/-- The only handler that a step installs is that of SW_UPDATE_CHECK. -/
def OnlyUpdateCheck (act : Action Registered) : Prop :=
  ∀ c, act = .change c → c = (micAddr, some .swUpdateCheck, iflyosEvtSwUpdateCheck)

/-- The bus comes to such a state. -/
def Reached (n : ℕ) (mail : List (Letter CString Bytes)) (relays reports : List (CString × Bytes)) :
    Prop :=
  ∃ tr s, Run (bus (queueLimit n) calls .init).step (start .init) tr s ∧
    (∀ c ∈ tr, OnlyUpdateCheck c.2) ∧ Asking s mail relays reports

theorem set_up (hn : 0 < n) : Reached n [] [] [] := by
  have hexec : (Run.exec (bus (queueLimit 1) calls .init).step (start .init) settingUp).map
      (fun r => ([r.2.live umbrellaAddr, r.2.live micAddr, r.2.live osAddr, r.2.mail.isEmpty,
          (r.2.todo umbrellaAddr).isEmpty],
        outgoing (interfaceUmbrellaSendEvent r.2.world.receivers sendAll
          iflyosEvtSwUpdateCheck (CString.ofString "")),
        r.2.world.handlers micAddr iflyosEvtSwUpdateCheck)) =
      some ([true, true, true, true, true], [(micAddr, request)], some .swUpdateCheck) := by
    decide +kernel
  obtain ⟨r, hr, hobs⟩ := Option.map_eq_some_iff.mp hexec
  obtain ⟨hflags, hworld⟩ := Prod.mk.inj hobs
  obtain ⟨hreceivers, hhandlers⟩ := Prod.mk.inj hworld
  simp only [List.cons.injEq, and_true] at hflags
  obtain ⟨humbrella, hmic, hos, hmail, htodo⟩ := hflags
  have hrun := Run.of_exec _ hr
  -- only the umbrella's worker has taken anything
  have hfree : ∀ a, a ≠ umbrellaAddr → r.2.todo a = [] := by
    intro a ha
    refine Exchange.todo_of_no_take rfl hrun fun c hc htake => ?_
    have hlabel : c.2 ∈ settingUp := Run.labels_of_exec _ hr ▸ List.mem_map_of_mem hc
    rw [htake] at hlabel
    simp [settingUp, ha] at hlabel
  have hmono : ∀ mail l, queueLimit 1 mail l = true → queueLimit n mail l = true :=
    fun mail l h => decide_eq_true (Nat.lt_of_lt_of_le (of_decide_eq_true h) hn)
  refine ⟨r.1, r.2, Exchange.run_mono hmono hrun, fun c hc x hx => ?_, ?_⟩
  · have hlabel : c.2 ∈ settingUp := Run.labels_of_exec _ hr ▸ List.mem_map_of_mem hc
    rw [hx] at hlabel
    simpa [settingUp] using hlabel
  exact {
    umbrella := humbrella
    mic := hmic
    os := hos
    mail := List.isEmpty_iff.mp hmail
    relays := List.isEmpty_iff.mp htodo
    reports := hfree micAddr micAddr_ne
    free := fun a ha _ => hfree a ha
    receivers := hreceivers
    handlers := hhandlers }

/-- There is room at a socket. -/
theorem not_blocks {t : State Registered Reports} {l : Letter CString Bytes}
    (hlt : t.mail.countP (Exchange.addressed l.receiver) < n) :
    ¬ (bus (queueLimit n) calls .init).Blocks t l := by
  rintro ⟨-, hfull⟩
  exact Bool.eq_false_iff.mp hfull (decide_eq_true hlt)

/-- The app asks. -/
theorem ask (hs : Asking s mail relays reports)
    (hlt : mail.countP (Exchange.addressed umbrellaAddr) < n) :
    ∃ u, (bus (queueLimit n) calls .init).step s (.post asked) = some u ∧
      Asking u (mail ++ [asked]) relays reports := by
  have hsends : sends asked = true := by decide +kernel
  refine ⟨_, if_pos ⟨hs.os, hsends, not_blocks (by rw [hs.mail]; exact hlt)⟩, ?_⟩
  refine { hs with mail := ?_ }
  show Exchange.deliver s asked = _
  rw [Exchange.deliver, if_pos (by exact hs.umbrella), hs.mail]

/-- The umbrella's worker takes what the app has asked. -/
theorem take_asked (hs : Asking s mail [] reports)
    (hl : mail.find? (Exchange.addressed umbrellaAddr) = some asked) :
    ∃ u, (bus (queueLimit n) calls .init).step s (.take umbrellaAddr) = some u ∧
      Asking u (mail.eraseP (Exchange.addressed umbrellaAddr)) [(micAddr, request)] reports := by
  have hreceive : Worker.umbrella.receive Bus.umbrellaHandlers (some request) =
      .relayEvent iflyosEvtSwUpdateCheck (CString.ofString "") := by
    have hnone : Bus.umbrellaHandlers iflyosEvtSwUpdateCheck = none := by decide +kernel
    have hE : (recvfrom request)[0]? = some 'E'.toUInt8 := by decide +kernel
    have hread := decode_request
    rw [Net.decode] at hread
    rw [Worker.receive, interfaceUmbrellaReceiverWorker,
      if_neg (Bus.not_length_le_of_readMessage hread)]
    simp only [hread, hnone, hE, if_true]
  have hreact : (bus (queueLimit n) calls .init).react s.world umbrellaAddr asked.body =
      (s.world, [(micAddr, request)]) := by
    show (if umbrellaAddr = umbrellaAddr then umbrellaReact s.world request else _) = _
    rw [if_pos rfl, umbrellaReact]
    simp only [hreceive, hs.receivers]
  have hstep : (bus (queueLimit n) calls .init).step s (.take umbrellaAddr) = some { s with
      mail := s.mail.eraseP (Exchange.addressed umbrellaAddr)
      todo := Function.update s.todo umbrellaAddr [(micAddr, request)] } := by
    rw [Exchange.step, if_pos ⟨hs.umbrella, List.isEmpty_iff.mpr hs.relays⟩, hs.mail, hl,
      Option.map_some, hreact]
  refine ⟨_, hstep, ?_⟩
  exact { hs with
    mail := by rw [hs.mail]
    relays := Function.update_self _ _ _
    reports := (Function.update_of_ne micAddr_ne _ _).trans hs.reports
    free := fun a ha hmic => (Function.update_of_ne ha _ _).trans (hs.free a ha hmic) }

/-- It relays it to MicAgent. -/
theorem pass_on (hs : Asking s mail [(micAddr, request)] reports)
    (hlt : mail.countP (Exchange.addressed micAddr) < n) :
    ∃ u, (bus (queueLimit n) calls .init).step s (.send umbrellaAddr) = some u ∧
      Asking u (mail ++ [relayed]) [] reports := by
  have hroom : ¬ (bus (queueLimit n) calls .init).Blocks s relayed :=
    not_blocks (by rw [hs.mail]; exact hlt)
  have hstep : (bus (queueLimit n) calls .init).step s (.send umbrellaAddr) = some { s with
      mail := Exchange.deliver s relayed
      todo := Function.update s.todo umbrellaAddr [] } := by
    rw [Exchange.step, hs.relays]
    exact if_neg hroom
  refine ⟨_, hstep, ?_⟩
  exact { hs with
    mail := by
      show Exchange.deliver s relayed = _
      rw [Exchange.deliver, if_pos (by exact hs.mic), hs.mail]
    relays := Function.update_self _ _ _
    reports := (Function.update_of_ne micAddr_ne _ _).trans hs.reports
    free := fun a ha hmic => (Function.update_of_ne ha _ _).trans (hs.free a ha hmic) }

/-- MicAgent's handler has something to report. -/
theorem take_relayed (hs : Asking s mail relays [])
    (hl : mail.find? (Exchange.addressed micAddr) = some relayed) :
    ∃ u report, (bus (queueLimit n) calls .init).step s (.take micAddr) = some u ∧
      Asking u (mail.eraseP (Exchange.addressed micAddr)) relays [(umbrellaAddr, report)] := by
  have hreceive : Worker.interface.receive (s.world.handlers micAddr) (some request) =
      .invoke .swUpdateCheck iflyosEvtSwUpdateCheck (CString.ofString "") :=
    Bus.receive_eq_invoke decode_request hs.handlers
  obtain ⟨w, report, hreact, hreceivers, hhandlers⟩ : ∃ w report,
      (bus (queueLimit n) calls .init).react s.world micAddr relayed.body =
        (w, [(umbrellaAddr, report)]) ∧ w.receivers = s.world.receivers ∧
          w.handlers = s.world.handlers := by
    show ∃ w report, (if micAddr = umbrellaAddr then _
      else appReact calls s.world micAddr request) = (w, [(umbrellaAddr, report)]) ∧ _
    rw [if_neg micAddr_ne, appReact]
    simp only [hreceive, calls, List.flatMap_singleton]
    -- whichever report it is, it is short enough
    split
    · have hfits : ¬ tooLong (CString.ofString "DO_REPORT_SW_UPDATE_CHECK_SUCCESS")
          (CString.ofString "true\n测试版本号\n测试版本描述内容") := by decide +kernel
      rw [interfaceSendEvent_sendAll hfits]
      exact ⟨_, _, rfl, rfl, rfl⟩
    · have hfits : ¬ tooLong (CString.ofString "DO_REPORT_SW_UPDATE_CHECK_FAIL")
          (CString.ofString "") := by decide +kernel
      rw [interfaceSendEvent_sendAll hfits]
      exact ⟨_, _, rfl, rfl, rfl⟩
  have hstep : (bus (queueLimit n) calls .init).step s (.take micAddr) = some { s with
      mail := s.mail.eraseP (Exchange.addressed micAddr)
      todo := Function.update s.todo micAddr [(umbrellaAddr, report)]
      world := w } := by
    rw [Exchange.step, if_pos ⟨hs.mic, List.isEmpty_iff.mpr hs.reports⟩, hs.mail, hl,
      Option.map_some, hreact]
  refine ⟨_, report, hstep, ?_⟩
  exact { hs with
    mail := by rw [hs.mail]
    relays := (Function.update_of_ne micAddr_ne.symm _ _).trans hs.relays
    reports := Function.update_self _ _ _
    free := fun a ha hmic => (Function.update_of_ne hmic _ _).trans (hs.free a ha hmic)
    receivers := by rw [hreceivers]; exact hs.receivers
    handlers := by rw [hhandlers]; exact hs.handlers }

/-- A step that installs nothing. -/
theorem Reached.snoc {tr : List (State Registered Reports × Action Registered)}
    {u : State Registered Reports} {act : Action Registered}
    (hrun : Run (bus (queueLimit n) calls .init).step (start .init) tr s)
    (honly : ∀ c ∈ tr, OnlyUpdateCheck c.2) (hact : ∀ c, act ≠ .change c)
    (hstep : (bus (queueLimit n) calls .init).step s act = some u)
    (hu : Asking u mail relays reports) : Reached n mail relays reports := by
  refine ⟨_, u, hrun.snoc hstep, fun c hc x hx => ?_, hu⟩
  rcases List.mem_append.mp hc with hc | hc
  · exact honly c hc x hx
  · obtain rfl := List.mem_singleton.mp hc
    exact absurd hx (hact x)

theorem Reached.ask (h : Reached n mail relays reports)
    (hlt : mail.countP (Exchange.addressed umbrellaAddr) < n) :
    Reached n (mail ++ [asked]) relays reports := by
  obtain ⟨tr, s, hrun, honly, hs⟩ := h
  obtain ⟨u, hstep, hu⟩ := Congestion.ask hs hlt
  exact .snoc hrun honly (by simp) hstep hu

theorem Reached.take_asked (h : Reached n mail [] reports)
    (hl : mail.find? (Exchange.addressed umbrellaAddr) = some asked) :
    Reached n (mail.eraseP (Exchange.addressed umbrellaAddr)) [(micAddr, request)] reports := by
  obtain ⟨tr, s, hrun, honly, hs⟩ := h
  obtain ⟨u, hstep, hu⟩ := Congestion.take_asked hs hl
  exact .snoc hrun honly (by simp) hstep hu

theorem Reached.pass_on (h : Reached n mail [(micAddr, request)] reports)
    (hlt : mail.countP (Exchange.addressed micAddr) < n) :
    Reached n (mail ++ [relayed]) [] reports := by
  obtain ⟨tr, s, hrun, honly, hs⟩ := h
  obtain ⟨u, hstep, hu⟩ := Congestion.pass_on hs hlt
  exact .snoc hrun honly (by simp) hstep hu

theorem Reached.take_relayed (h : Reached n mail relays [])
    (hl : mail.find? (Exchange.addressed micAddr) = some relayed) :
    ∃ report, Reached n (mail.eraseP (Exchange.addressed micAddr)) relays
      [(umbrellaAddr, report)] := by
  obtain ⟨tr, s, hrun, honly, hs⟩ := h
  obtain ⟨u, report, hstep, hu⟩ := Congestion.take_relayed hs hl
  exact ⟨report, .snoc hrun honly (by simp) hstep hu⟩

@[simp] theorem addressed_umbrella_asked : Exchange.addressed umbrellaAddr asked = true := by
  decide +kernel

@[simp] theorem addressed_umbrella_relayed : Exchange.addressed umbrellaAddr relayed = false := by
  decide +kernel

@[simp] theorem addressed_mic_asked : Exchange.addressed micAddr asked = false := by
  decide +kernel

@[simp] theorem addressed_mic_relayed : Exchange.addressed micAddr relayed = true := by
  decide +kernel

/-- Behind what is on its way to MicAgent the umbrella finds what the app has
asked. -/
theorem find_asked (k : ℕ) (rest : List (Letter CString Bytes)) :
    (List.replicate k relayed ++ asked :: rest).find? (Exchange.addressed umbrellaAddr) =
      some asked := by
  simp [List.find?_append]

theorem erase_asked (k : ℕ) (rest : List (Letter CString Bytes)) :
    (List.replicate k relayed ++ asked :: rest).eraseP (Exchange.addressed umbrellaAddr) =
      List.replicate k relayed ++ rest := by
  have hnot : ∀ l ∈ List.replicate k relayed, ¬ Exchange.addressed umbrellaAddr l = true := by
    intro l hl
    rw [List.eq_of_mem_replicate hl]
    simp
  rw [List.eraseP_append_right _ hnot, List.eraseP_cons_of_pos addressed_umbrella_asked]

/-- MicAgent does not take anything, and its socket fills. -/
theorem fill_mic (hn : 0 < n) {k : ℕ} (hk : k ≤ n) :
    Reached n (List.replicate k relayed) [] [] := by
  induction k with
  | zero => exact set_up hn
  | succ k ih =>
    have hasked := (ih (Nat.le_of_succ_le hk)).ask (by simpa [List.countP_replicate] using hn)
    have htaken := hasked.take_asked (find_asked k [])
    rw [erase_asked, List.append_nil] at htaken
    have hrelayed := htaken.pass_on (by simpa [List.countP_replicate] using Nat.lt_of_succ_le hk)
    rwa [← List.replicate_succ'] at hrelayed

/-- The umbrella's worker waits for room there, and the umbrella's socket
fills. -/
theorem fill_umbrella (hn : 0 < n) {k : ℕ} (hk : k ≤ n) :
    Reached n (List.replicate n relayed ++ List.replicate k asked) [(micAddr, request)] [] := by
  induction k with
  | zero =>
    have hasked := (fill_mic hn (Nat.le_refl n)).ask (by simpa [List.countP_replicate] using hn)
    have htaken := hasked.take_asked (find_asked n [])
    rwa [erase_asked] at htaken
  | succ k ih =>
    have hasked := (ih (Nat.le_of_succ_le hk)).ask
      (by simpa [List.countP_replicate] using Nat.lt_of_succ_le hk)
    rwa [List.append_assoc, ← List.replicate_succ'] at hasked

/-- Both sockets are full, and both workers have to send to the other one. -/
theorem stuck_of_full {report : Bytes}
    (hs : Asking s mail [(micAddr, request)] [(umbrellaAddr, report)])
    (hmic : n ≤ mail.countP (Exchange.addressed micAddr))
    (humbrella : n ≤ mail.countP (Exchange.addressed umbrellaAddr))
    (hall : ∀ l ∈ mail, l.receiver = umbrellaAddr ∨ l.receiver = micAddr) :
    (bus (queueLimit n) calls .init).Stuck s := by
  have hfull : ∀ {l : Letter CString Bytes}, s.live l.receiver = true →
      n ≤ mail.countP (Exchange.addressed l.receiver) →
        (bus (queueLimit n) calls .init).Blocks s l := by
    intro l hlive hle
    refine ⟨hlive, decide_eq_false ?_⟩
    rw [hs.mail]
    exact Nat.not_lt.mpr hle
  rintro act hown
  cases act with
  | take p =>
    by_cases hp : p = umbrellaAddr ∨ p = micAddr
    · refine if_neg fun hfree => ?_
      have hempty := List.isEmpty_iff.mp hfree.2
      rcases hp with rfl | rfl
      · rw [hs.relays] at hempty
        cases hempty
      · rw [hs.reports] at hempty
        cases hempty
    · -- nothing waits there
      have hnone : s.mail.find? (Exchange.addressed p) = none := by
        rw [List.find?_eq_none, hs.mail]
        intro l hl hto
        obtain rfl := Exchange.addressed_iff.mp hto
        exact hp (hall l hl)
      rw [Exchange.step, hnone]
      exact ite_self none
  | send p =>
    rw [Exchange.step]
    by_cases hpu : p = umbrellaAddr
    · subst hpu
      rw [hs.relays]
      exact if_pos (hfull hs.mic hmic)
    by_cases hpm : p = micAddr
    · subst hpm
      rw [hs.reports]
      exact if_pos (hfull hs.umbrella humbrella)
    · rw [hs.free p hpu hpm]
  | post _ | start _ | exit _ | change _ => exact hown.elim

/-- The state that the requests lead to. -/
theorem exists_full (hn : 0 < n) :
    ∃ tr s mail report, Run (bus (queueLimit n) calls .init).step (start .init) tr s ∧
      (∀ c ∈ tr, OnlyUpdateCheck c.2) ∧ (bus (queueLimit n) calls .init).Stuck s ∧
        Asking s mail [(micAddr, request)] [(umbrellaAddr, report)] := by
  obtain ⟨m, rfl⟩ : ∃ m, n = m + 1 := ⟨n - 1, by omega⟩
  have hfull := fill_umbrella hn (Nat.le_refl (m + 1))
  rw [List.replicate_succ, List.cons_append] at hfull
  -- MicAgent takes one and has a report to send, and the umbrella relays the next
  obtain ⟨report, htaken⟩ := hfull.take_relayed (List.find?_cons_of_pos addressed_mic_relayed)
  rw [List.eraseP_cons_of_pos addressed_mic_relayed] at htaken
  have hrelayed := htaken.pass_on (by simp [List.countP_replicate])
  rw [List.replicate_succ (a := asked), List.append_assoc, List.cons_append] at hrelayed
  -- it takes one more, for which there is no room behind it
  have hagain := hrelayed.take_asked (find_asked m _)
  rw [erase_asked] at hagain
  obtain ⟨tr, s, hrun, honly, hs⟩ := hagain.ask (by simp [List.countP_replicate])
  refine ⟨tr, s, _, report, hrun, honly, stuck_of_full hs ?_ ?_ fun l hl => ?_, hs⟩
  · simp [List.countP_replicate]
  · simp [List.countP_replicate]
  · simp only [List.mem_append, List.mem_replicate, List.mem_singleton] at hl
    rcases hl with (⟨-, rfl⟩ | ⟨-, rfl⟩ | rfl) | rfl
    · exact Or.inr rfl
    · exact Or.inl rfl
    · exact Or.inr rfl
    · exact Or.inl rfl

theorem Asking.busy {report : Bytes}
    (hs : Asking s mail [(micAddr, request)] [(umbrellaAddr, report)]) :
    Exchange.Busy s umbrellaAddr ∧ Exchange.Busy s micAddr := by
  constructor
  · rw [Exchange.Busy, hs.relays]
    exact List.cons_ne_nil _ _
  · rw [Exchange.Busy, hs.reports]
    exact List.cons_ne_nil _ _

/-- Nobody else takes part. -/
theorem Asking.involved {report : Bytes} {a : CString}
    (hs : Asking s mail [(micAddr, request)] [(umbrellaAddr, report)])
    (ha : Exchange.Involved s a) : a = umbrellaAddr ∨ a = micAddr := by
  have hfirst : ∀ {q b m todo}, s.todo q = (b, m) :: todo → q = umbrellaAddr ∧ b = micAddr ∨
      q = micAddr ∧ b = umbrellaAddr := by
    intro q b m todo hq
    by_cases hqu : q = umbrellaAddr
    · subst hqu
      rw [hs.relays] at hq
      exact Or.inl ⟨rfl, (Prod.mk.inj (List.cons.inj hq).1).1.symm⟩
    by_cases hqm : q = micAddr
    · subst hqm
      rw [hs.reports] at hq
      exact Or.inr ⟨rfl, (Prod.mk.inj (List.cons.inj hq).1).1.symm⟩
    · rw [hs.free q hqu hqm] at hq
      cases hq
  rcases ha with ha | ⟨q, m, todo, hq⟩
  · obtain ⟨⟨b, m⟩, todo, htodo⟩ := List.exists_cons_of_ne_nil ha
    rcases hfirst htodo with ⟨rfl, -⟩ | ⟨rfl, -⟩
    · exact Or.inl rfl
    · exact Or.inr rfl
  · rcases hfirst hq with ⟨-, rfl⟩ | ⟨-, rfl⟩
    · exact Or.inr rfl
    · exact Or.inl rfl

end Reports

/-- **MicAgent can stop the bus, whatever the limit is**, with the handler of
SW_UPDATE_CHECK alone: from some state on its receiver thread and the umbrella's
never take or send anything again, as long as both processes stay and whatever
the others do. -/
theorem deadlock_for_every_limit (n : ℕ) (hn : 0 < n) :
    ∃ tr s, Run (bus (queueLimit n) MicAgent.calls .init).step (start .init) tr s ∧
      (∀ c ∈ tr, OnlyUpdateCheck c.2) ∧
      s.world.handlers micAddr iflyosEvtSwUpdateCheck = some .swUpdateCheck ∧
      ∀ tr' u, Run (bus (queueLimit n) MicAgent.calls .init).step s tr' u →
        (∀ c ∈ tr', c.2 ≠ .exit umbrellaAddr ∧ c.2 ≠ .exit micAddr) →
          ∀ a ∈ [umbrellaAddr, micAddr], u.todo a ≠ [] ∧
            (bus (queueLimit n) MicAgent.calls .init).step u (.take a) = none ∧
              (bus (queueLimit n) MicAgent.calls .init).step u (.send a) = none := by
  obtain ⟨tr, s, mail, report, hrun, honly, hstuck, hs⟩ := exists_full hn
  refine ⟨tr, s, hrun, honly, hs.handlers, fun tr' u hrun' hstays a ha => ?_⟩
  have hbusy : Exchange.Busy s a := by
    simp only [List.mem_cons, List.not_mem_nil, or_false] at ha
    rcases ha with rfl | rfl
    · exact hs.busy.1
    · exact hs.busy.2
  have hinvolved : ∀ c ∈ tr', ∀ p, Exchange.Involved s p → c.2 ≠ .exit p := by
    intro c hc p hp
    rcases hs.involved hp with rfl | rfl
    · exact (hstays c hc).1
    · exact (hstays c hc).2
  obtain ⟨hholds, hnone⟩ :=
    Exchange.stuck_run (roomy_queueLimit hn) (inv_run hrun) hstuck hrun' hinvolved
  refine ⟨?_, hnone a hbusy⟩
  rw [hholds.todo a hbusy]
  exact hbusy

theorem deadlock_for_every_limit_ten :
    ∃ tr s, Run (bus (queueLimit 10) MicAgent.calls .init).step (start .init) tr s ∧
      (∀ c ∈ tr, OnlyUpdateCheck c.2) ∧
      s.world.handlers micAddr iflyosEvtSwUpdateCheck = some .swUpdateCheck ∧
      ∀ tr' u, Run (bus (queueLimit 10) MicAgent.calls .init).step s tr' u →
        (∀ c ∈ tr', c.2 ≠ .exit umbrellaAddr ∧ c.2 ≠ .exit micAddr) →
          ∀ a ∈ [umbrellaAddr, micAddr], u.todo a ≠ [] ∧
            (bus (queueLimit 10) MicAgent.calls .init).step u (.take a) = none ∧
              (bus (queueLimit 10) MicAgent.calls .init).step u (.send a) = none :=
  deadlock_for_every_limit 10 (by decide)

/-- What `deadlock_for_good` says there. -/
theorem deadlock_for_good_one :
    ∃ tr s, Run (bus (queueLimit 1) MicAgent.calls .init).step (start .init) tr s ∧
      (Exchange.Busy s umbrellaAddr ∧ ∃ a, Exchange.Busy s a ∧
        Exchange.Waits s umbrellaAddr a ∧ Exchange.Waits s a umbrellaAddr) := by
  obtain ⟨tr, s, mail, report, hrun, -, hstuck, hs⟩ := exists_full (n := 1) (by decide)
  exact ⟨tr, s, hrun, (deadlock_for_good (roomy_queueLimit (by decide)) hrun hstuck
    fun hidle => hs.busy.1 (hidle.2 umbrellaAddr)).1⟩

/-! ### A handler that is quiet -/

/-- MicAgent with VOL_CHANGED only, and one event on its way. -/
def volChanging : List (Action Registered) :=
  [.start micAddr, .change (micAddr, some .volChanged, Net.iflyosEvtVolChanged), .start osAddr,
    .post ⟨micAddr, umbrellaAddr, Net.registrationDatagram Net.volChangedRegistration⟩,
    .take umbrellaAddr,
    .post ⟨osAddr, umbrellaAddr, message Net.iflyosEvtVolChanged (CString.ofString "50\n40\n")⟩]

theorem empties_volChanging :
    ∃ tr s, Run (bus (queueLimit 1) MicAgent.calls .init).step (start .init) tr s ∧
      tr.length = 6 ∧ ∃ tr' u, Run (bus (queueLimit 1) MicAgent.calls .init).step s tr' u ∧
        (∀ c ∈ tr', Exchange.Own c.2) ∧ Exchange.Idle u := by
  have hexec : (Run.exec (bus (queueLimit 1) MicAgent.calls .init).step (start .init)
      volChanging).map (fun r => r.1.length) = some 6 := by
    decide +kernel
  obtain ⟨r, hr, hlength⟩ := Option.map_eq_some_iff.mp hexec
  refine ⟨r.1, r.2, Run.of_exec _ hr, hlength,
    (empties (roomy_queueLimit (by decide)) (Run.of_exec _ hr) fun c hc => ?_).2⟩
  have hlabel : c.2 ∈ volChanging := Run.labels_of_exec _ hr ▸ List.mem_map_of_mem hc
  simp only [volChanging, List.mem_cons, List.not_mem_nil, or_false] at hlabel
  rcases hlabel with h | h | h | h | h | h
  · rw [h]
    trivial
  · rw [h]
    intro handler hhandler
    obtain rfl := Option.some.inj hhandler
    exact (quiet_iff _).mpr (by decide)
  · rw [h]
    trivial
  · rw [h]
    exact fun _ => ⟨by decide +kernel, by decide +kernel⟩
  · rw [h]
    trivial
  · rw [h]
    exact fun _ => ⟨by decide +kernel, by decide +kernel⟩

end Congestion
