/-
The static variables of the IPC module over its Init, RegisterHandler and Deinit
calls.

`IFLYOS_InterfaceInit` has three failure exits: in front of the mutex, behind it
but in front of the thread, and behind both.  `IFLYOS_InterfaceDeinit` tests
`sock` alone.  It deletes the mutex, joins the thread and clears the handlers,
but it neither closes the socket nor resets `sock`.

* `IpcModule.interfaceInit`, `IpcModule.interfaceDeinit`,
  `IpcModule.interfaceRegisterHandler` — the three calls;
* `IpcModule.Sound` — what `sock >= 0` is taken to mean;
* `IpcModule.lifecycle_iff` — **the runs over which it means that**.
-/
import IflyosSDK.Bus

/-- `handlerTableMutex`. -/
inductive TableMutex
  | null
  | live
  | deleted
  deriving DecidableEq, Repr

/-- `receiver`; a started thread waits in `recvfrom` on the socket it was
started with. -/
inductive ReceiverThread
  | null
  | started (fd : Int)
  | joined
  deriving DecidableEq, Repr

/-- The static variables of IFLYOSInterface.cpp, and the open sockets of the
process with the addresses bound to them. -/
structure IpcModule (H : Type*) where
  sock : Int
  handlers : Handlers H
  receiver : ReceiverThread
  quit : Bool
  handlerTableMutex : TableMutex
  localAddr : CString
  sockets : List (Int × Option CString)

/-- A call of `IFLYOS_InterfaceInit`, what `socket` and `sendto` return in it,
and whether `bind` succeeds at an address that no socket of the process
holds. -/
structure InitCall (H : Type*) where
  address : CString
  eventsRegistration : List (CString × Option H)
  socket : Int
  bindOk : Bool
  sendto : Datagram → SendResult

namespace IpcModule

variable {H : Type*}

/-- The initial values. -/
def new : IpcModule H := ⟨-1, fun _ => none, .null, false, .null, CString.ofMemory [], []⟩

/-- An open socket of the process is bound to the address. -/
def Holds (s : IpcModule H) (address : CString) : Prop := ∃ p ∈ s.sockets, p.2 = some address

instance (s : IpcModule H) (address : CString) : Decidable (s.Holds address) :=
  inferInstanceAs (Decidable (∃ p ∈ s.sockets, p.2 = some address))

/-- `bind` returns 0. -/
def Binds (s : IpcModule H) (c : InitCall H) : Prop := c.bindOk = true ∧ ¬ s.Holds c.address

instance (s : IpcModule H) (c : InitCall H) : Decidable (s.Binds c) :=
  inferInstanceAs (Decidable (_ ∧ ¬ s.Holds c.address))

/-- The registration of the events at the end of `IFLYOS_InterfaceInit`. -/
def registration (c : InitCall H) : Sent :=
  interfaceInitRegistration c.sendto c.address (c.eventsRegistration.map Prod.fst)

/-- `IFLYOS_InterfaceInit`: its result and the state it leaves. -/
def interfaceInit (s : IpcModule H) (c : InitCall H) : Int × IpcModule H :=
  if c.socket < 0 then (-1, { s with sock := c.socket })
  else if s.Binds c then
    ((registration c).code,
      { sock := c.socket
        handlers := c.eventsRegistration.foldl
          (fun handlers reg => Bus.interfaceRegisterHandler handlers reg.2 reg.1) s.handlers
        receiver := .started c.socket
        quit := false
        handlerTableMutex := .live
        localAddr := c.address
        sockets := s.sockets ++ [(c.socket, some c.address)] })
  else
    (-2,
      { s with
        sock := c.socket
        handlerTableMutex := .live
        localAddr := c.address
        sockets := s.sockets ++ [(c.socket, none)] })

/-- `IFLYOS_InterfaceRegisterHandler`; no result when there is no mutex to
lock. -/
def interfaceRegisterHandler (s : IpcModule H) (handler : Option H) (evt : CString) :
    Option (IpcModule H) :=
  if s.handlerTableMutex = .live then
    some { s with handlers := Bus.interfaceRegisterHandler s.handlers handler evt }
  else none

/-- `IFLYOS_InterfaceDeinit`; no result when the mutex has been deleted, and when
there is no thread to join or none that the shutdown of `sock` ends. -/
def interfaceDeinit (s : IpcModule H) : Option (IpcModule H) :=
  if s.sock < 0 then some s
  else if s.handlerTableMutex ≠ .deleted ∧ s.receiver = .started s.sock then
    some { s with
      handlerTableMutex := .deleted
      quit := true
      receiver := .joined
      handlers := fun _ => none }
  else none

inductive Call (H : Type*)
  | init (c : InitCall H)
  | registerHandler (handler : Option H) (evt : CString)
  | deinit

/-- A call that returns.  `socket` returns no descriptor that is open. -/
def step (s : IpcModule H) : Call H → Option (IpcModule H)
  | .init c => if c.socket ∈ s.sockets.map Prod.fst then none else some (s.interfaceInit c).2
  | .registerHandler handler evt => s.interfaceRegisterHandler handler evt
  | .deinit => s.interfaceDeinit

/-- What `sock >= 0` is taken to mean. -/
def Sound (s : IpcModule H) : Prop :=
  0 ≤ s.sock → s.handlerTableMutex = .live ∧ ∃ fd, s.receiver = .started fd

/-- A call behind which `IFLYOS_InterfaceDeinit` has to do no harm: an Init that
failed, or a Deinit. -/
def Undone (s : IpcModule H) : Call H → Prop
  | .init c => (s.interfaceInit c).1 ≠ 0
  | .registerHandler _ _ => False
  | .deinit => True

/-- Init succeeds at the address of the last one. -/
def Reopens (s : IpcModule H) : Prop :=
  ∀ c : InitCall H, c.address = s.localAddr → 0 ≤ c.socket → c.bindOk = true →
    (registration c).code = 0 → (s.interfaceInit c).1 = 0

/-- What the call `a`, made in `s`, leaves: a Deinit that returns, and behind a
Deinit the address free again. -/
def Clean (s : IpcModule H) (a : Call H) (u : IpcModule H) : Prop :=
  (s.Undone a → (u.step .deinit).isSome) ∧ (a = .deinit → u.Reopens)

/-- The lifecycle of the module over a run of calls. -/
def Lifecycle (tr : List (IpcModule H × Call H)) (t : IpcModule H) : Prop :=
  ((∀ p ∈ tr, p.1.Sound) ∧ t.Sound) ∧ ∀ p ∈ tr, ∀ u, step p.1 p.2 = some u → Clean p.1 p.2 u

/-- The calls that keep it: an Init that gets a socket binds it, and a Deinit
finds no socket in `sock`, and none left open at the address of the last
Init. -/
def Allowed (s : IpcModule H) : Call H → Prop
  | .init c => 0 ≤ c.socket → s.Binds c
  | .registerHandler _ _ => True
  | .deinit => s.sock < 0 ∧ ¬ s.Holds s.localAddr

/-! ### The calls -/

section Calls

variable {s u : IpcModule H} {c : InitCall H} {a : Call H}

theorem interfaceInit_of_neg (hc : c.socket < 0) :
    s.interfaceInit c = (-1, { s with sock := c.socket }) := by
  rw [interfaceInit, if_pos hc]

theorem interfaceInit_of_binds (hc : 0 ≤ c.socket) (hb : s.Binds c) :
    s.interfaceInit c =
      ((registration c).code,
        { sock := c.socket
          handlers := c.eventsRegistration.foldl
            (fun handlers reg => Bus.interfaceRegisterHandler handlers reg.2 reg.1) s.handlers
          receiver := .started c.socket
          quit := false
          handlerTableMutex := .live
          localAddr := c.address
          sockets := s.sockets ++ [(c.socket, some c.address)] }) := by
  rw [interfaceInit, if_neg (not_lt.mpr hc), if_pos hb]

theorem interfaceInit_of_not_binds (hc : 0 ≤ c.socket) (hb : ¬ s.Binds c) :
    s.interfaceInit c =
      (-2,
        { s with
          sock := c.socket
          handlerTableMutex := .live
          localAddr := c.address
          sockets := s.sockets ++ [(c.socket, none)] }) := by
  rw [interfaceInit, if_neg (not_lt.mpr hc), if_neg hb]

theorem interfaceInit_of_step (h : step s (.init c) = some u) :
    c.socket ∉ s.sockets.map Prod.fst ∧ u = (s.interfaceInit c).2 := by
  rw [step] at h
  split at h
  · cases h
  · rename_i hfresh
    exact ⟨hfresh, (Option.some.inj h).symm⟩

theorem deinit_of_neg (hs : s.sock < 0) : step s .deinit = some s := by
  rw [step, interfaceDeinit, if_pos hs]

/-- A Deinit that finds a socket leaves the mutex deleted behind it. -/
theorem mutex_of_deinit (hs : 0 ≤ s.sock) (h : step s .deinit = some u) :
    s.receiver = .started s.sock ∧ u.sock = s.sock ∧ u.handlerTableMutex = .deleted := by
  rw [step, interfaceDeinit, if_neg (not_lt.mpr hs)] at h
  split at h
  · rename_i hlive
    cases h
    exact ⟨hlive.2, rfl, rfl⟩
  · cases h

end Calls

/-! ### Runs of calls -/

section Runs

variable {s t u : IpcModule H} {a : Call H} {tr : List (IpcModule H × Call H)}

/-- The thread that `receiver` stands for waits on an open socket. -/
def Waits (s : IpcModule H) : Prop :=
  ∀ fd, s.receiver = .started fd → fd ∈ s.sockets.map Prod.fst

theorem waits_step (hs : s.Waits) (h : step s a = some u) : u.Waits := by
  intro fd hfd
  cases a with
  | init c =>
    obtain ⟨-, rfl⟩ := interfaceInit_of_step h
    rcases lt_or_ge c.socket 0 with hc | hc
    · rw [interfaceInit_of_neg hc] at hfd ⊢
      exact hs fd hfd
    · by_cases hb : s.Binds c
      · rw [interfaceInit_of_binds hc hb] at hfd ⊢
        obtain rfl : c.socket = fd := ReceiverThread.started.inj hfd
        simp
      · rw [interfaceInit_of_not_binds hc hb] at hfd ⊢
        rw [List.map_append, List.mem_append]
        exact Or.inl (hs fd hfd)
  | registerHandler handler evt =>
    rw [step, interfaceRegisterHandler] at h
    split at h
    · cases h
      exact hs fd hfd
    · cases h
  | deinit =>
    rw [step, interfaceDeinit] at h
    split at h
    · cases h
      exact hs fd hfd
    · split at h
      · cases h
        cases hfd
      · cases h

/-- Deinit finds what it needs. -/
def Ready (s : IpcModule H) : Prop :=
  0 ≤ s.sock → s.handlerTableMutex = .live ∧ s.receiver = .started s.sock

theorem Ready.sound (hs : s.Ready) : s.Sound := by
  intro hsock
  have hready := hs hsock
  exact ⟨hready.1, s.sock, hready.2⟩

theorem Ready.deinit (hs : s.Ready) : (step s .deinit).isSome := by
  rw [step, interfaceDeinit]
  split
  · rfl
  · rename_i hsock
    have hready := hs (not_lt.mp hsock)
    rw [if_pos ⟨by rw [hready.1]; decide, hready.2⟩]
    rfl

theorem ready_step (hs : s.Ready) (ha : s.Allowed a) (h : step s a = some u) : u.Ready := by
  intro hsock
  cases a with
  | init c =>
    obtain ⟨-, rfl⟩ := interfaceInit_of_step h
    rcases lt_or_ge c.socket 0 with hc | hc
    · rw [interfaceInit_of_neg hc] at hsock
      exact absurd hc (not_lt.mpr hsock)
    · rw [interfaceInit_of_binds hc (ha hc)]
      exact ⟨rfl, rfl⟩
  | registerHandler handler evt =>
    rw [step, interfaceRegisterHandler] at h
    split at h
    · cases h
      exact hs hsock
    · cases h
  | deinit =>
    rw [deinit_of_neg ha.1] at h
    cases h
    exact hs hsock

theorem allowed_init {c : InitCall H} (hs : s.Waits) (h : step s (.init c) = some u)
    (hclean : Clean s (.init c) u) : s.Allowed (.init c) := by
  intro hc
  by_contra hb
  obtain ⟨hfresh, hu⟩ := interfaceInit_of_step h
  rw [interfaceInit_of_not_binds hc hb] at hu
  have hundone : s.Undone (.init c) := by
    rw [Undone, interfaceInit_of_not_binds hc hb]
    exact fun hcode => by cases hcode
  -- no thread waits on the socket that could not be bound
  obtain ⟨v, hv⟩ := Option.isSome_iff_exists.mp (hclean.1 hundone)
  have hsock : 0 ≤ u.sock := by rw [hu]; exact hc
  have hwaits := (mutex_of_deinit hsock hv).1
  rw [hu] at hwaits
  exact hfresh (hs _ hwaits)

theorem allowed_deinit (hu : u.Sound) (h : step s .deinit = some u)
    (hclean : Clean s .deinit u) : s.Allowed .deinit := by
  have hsock : s.sock < 0 := by
    by_contra hsock
    obtain ⟨-, heq, hdel⟩ := mutex_of_deinit (not_lt.mp hsock) h
    have hlive := (hu (by rw [heq]; exact not_lt.mp hsock)).1
    rw [hdel] at hlive
    cases hlive
  refine ⟨hsock, fun hholds => ?_⟩
  rw [deinit_of_neg hsock] at h
  cases h
  -- the Init that asks for nothing but the address
  have hcode := hclean.2 rfl ⟨s.localAddr, [], 0, true, fun _ => ⟨0, 0⟩⟩ rfl (Int.le_refl 0) rfl rfl
  rw [interfaceInit_of_not_binds (Int.le_refl 0) fun hb => hb.2 hholds] at hcode
  cases hcode

theorem clean_of_ready (hu : u.Ready) (ha : s.Allowed a) (h : step s a = some u) :
    Clean s a u := by
  refine ⟨fun _ => hu.deinit, ?_⟩
  rintro rfl c hc hsock hok hcode
  rw [deinit_of_neg ha.1] at h
  cases h
  have hb : s.Binds c := ⟨hok, by rw [hc]; exact ha.2⟩
  rw [interfaceInit_of_binds hsock hb]
  exact hcode

/-- **`sock >= 0` means a live mutex and a running receiver, Deinit does no harm
behind a failed Init or another Deinit, and the address is free behind it,
exactly when every Init that gets a socket binds it, and Deinit is called only
while `sock < 0` with no socket left open at the last address.** -/
theorem lifecycle_iff (h : Run step (new : IpcModule H) tr t) :
    Lifecycle tr t ↔ ∀ p ∈ tr, p.1.Allowed p.2 := by
  constructor
  · rintro ⟨⟨htr, ht⟩, hclean⟩ ⟨s, a⟩ hp
    obtain ⟨u, hu, hnext⟩ := h.exists_next hp
    have hsound : u.Sound := by
      rcases hnext with rfl | ⟨q, hq, rfl⟩
      · exact ht
      · exact htr q hq
    have hwaits : s.Waits :=
      h.states (fun _ hfd => by cases hfd) (fun _ _ _ hw hstep => waits_step hw hstep) _ hp
    cases a with
    | init c => exact allowed_init hwaits hu (hclean _ hp u hu)
    | registerHandler handler evt => trivial
    | deinit => exact allowed_deinit hsound hu (hclean _ hp u hu)
  · intro hall
    have hnew : (new : IpcModule H).Ready := by
      intro hsock
      exact absurd hsock (show ¬ (0 : Int) ≤ -1 by omega)
    have hkeep : ∀ (s : IpcModule H) a u, s.Ready → s.Allowed a → step s a = some u → u.Ready :=
      fun _ _ _ hs ha hu => ready_step hs ha hu
    have hready := h.states_of hnew hkeep hall
    refine ⟨⟨fun p hp => (hready p hp).sound, (h.invariant_of hnew hkeep hall).sound⟩, ?_⟩
    intro p hp u hu
    exact clean_of_ready (ready_step (hready p hp) (hall p hp) hu) (hall p hp) hu

end Runs

/-! ### The micAgent process -/

/-- MicAgent's Init with one of its events: the socket is 3, or the call of
`socket` fails. -/
def micInit (socket : Int) (bindOk : Bool) : InitCall Unit :=
  ⟨CString.ofString "IFLYOS_INTERFACE_MIC", [(iflyosEvtStopped, some ())], socket, bindOk,
    fun d => ⟨d.payload.length, 0⟩⟩

/-- Deinit in front of the first socket, an Init without a socket, one that
succeeds, and a handler removed. -/
theorem lifecycle_of_one_socket :
    ∃ tr t, Run step (new : IpcModule Unit) tr t ∧ t.sock = 3 ∧ Lifecycle tr t := by
  have h : Run step (new : IpcModule Unit) _ _ :=
    Run.of_exec [.deinit, .init (micInit (-1) true), .deinit, .init (micInit 3 true),
      .registerHandler none iflyosEvtStopped] rfl
  refine ⟨_, _, h, rfl, (lifecycle_iff h).mpr ?_⟩
  rw [List.forall_mem_cons, List.forall_mem_cons, List.forall_mem_cons, List.forall_mem_cons,
    List.forall_mem_singleton]
  refine ⟨⟨by decide, by decide⟩, fun hc => absurd hc (by decide), ⟨by decide, by decide⟩,
    fun _ => by decide, trivial⟩

/-- **An Init that succeeded is not undone**: behind its Deinit the socket is
still there, but not the mutex and the thread, a second Deinit does not return,
and Init fails at the same address.  Deinit does not return behind a failed bind
either. -/
theorem not_lifecycle_behind_deinit :
    (∃ tr t, Run step (new : IpcModule Unit) tr t ∧
        tr.map Prod.snd = [.init (micInit 3 true), .deinit] ∧ ¬ Lifecycle tr t ∧ ¬ t.Sound ∧
        step t .deinit = none ∧ (t.interfaceInit (micInit 5 true)).1 = -2) ∧
      ∃ tr t, Run step (new : IpcModule Unit) tr t ∧
        tr.map Prod.snd = [.init (micInit 3 false)] ∧ ¬ Lifecycle tr t ∧ ¬ t.Sound ∧
        step t .deinit = none := by
  have h₁ : Run step (new : IpcModule Unit) _ _ :=
    Run.of_exec [.init (micInit 3 true), .deinit] rfl
  have h₂ : Run step (new : IpcModule Unit) _ _ := Run.of_exec [.init (micInit 3 false)] rfl
  have hsound₁ : ∀ t : IpcModule Unit, t.sock = 3 → t.handlerTableMutex = .deleted → ¬ t.Sound := by
    intro t hsock hdel hsound
    have hlive := (hsound (by rw [hsock]; decide)).1
    rw [hdel] at hlive
    cases hlive
  have hsound₂ : ∀ t : IpcModule Unit, t.sock = 3 → t.receiver = .null → ¬ t.Sound := by
    intro t hsock hnull hsound
    obtain ⟨fd, hfd⟩ := (hsound (by rw [hsock]; decide)).2
    rw [hnull] at hfd
    cases hfd
  have hheld : ∀ t : IpcModule Unit, (3, some (micInit 3 true).address) ∈ t.sockets →
      (t.interfaceInit (micInit 5 true)).1 = -2 := by
    intro t hmem
    have hnot : ¬ t.Binds (micInit 5 true) := fun hb => hb.2 ⟨_, hmem, rfl⟩
    rw [interfaceInit_of_not_binds (show (0 : Int) ≤ 5 by decide) hnot]
  exact ⟨⟨_, _, h₁, rfl, fun hl => hsound₁ _ rfl rfl hl.1.2, hsound₁ _ rfl rfl, rfl,
      hheld _ List.mem_cons_self⟩,
    _, _, h₂, rfl, fun hl => hsound₂ _ rfl rfl hl.1.2, hsound₂ _ rfl rfl, rfl⟩

end IpcModule
