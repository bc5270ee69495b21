/-
A dispatch while another thread changes the handlers or ends the module.

The receiver worker takes a datagram, locks the handler table, looks the event
up, unlocks it and calls the handler through the iterator it has found.  The
other thread removes a handler in one locked step; `IFLYOS_InterfaceDeinit`
deletes the mutex first and joins the worker last.  Two uses of what is gone are
looked for, a lock of the deleted mutex and a call through an erased entry; the
unlock of a mutex that is deleted while the worker holds it is a third, which is
left out.

* `Dispatch.step` — one step of either thread, or a datagram that arrives;
* `Dispatch.dispatch_alone` — undisturbed, the steps of a dispatch are one
  iteration of `interfaceReceiverWorker`;
* `Dispatch.Safe` — the worker's next step is neither of the two;
* `Dispatch.safe_iff` — **the interleavings in which it always is**.
-/
import IflyosSDK.Bus

/-- A node of the map `handlers` and the function in it. -/
structure Entry (H : Type*) where
  node : ℕ
  handler : H

/-- Where `IFLYOS_InterfaceReceiverWorker` stands.  It holds the lock at
`lookUp` and at `unlock`, which carries the node found, if any. -/
inductive WorkerAt
  | test
  | receive
  | lock (evt msg : CString)
  | lookUp (evt msg : CString)
  | unlock (found : Option ℕ) (evt msg : CString)
  | invoke (node : ℕ) (evt msg : CString)
  | ended

/-- The step of `IFLYOS_InterfaceDeinit` that comes next. -/
inductive DeinitAt
  | deleteMutex
  | shutdown
  | setQuit
  | join
  | clear
  | returned
  deriving DecidableEq, Repr

/-- The module after Init: the table, with the number of the next node, and the
two threads.  `queue` holds the datagrams that have arrived. -/
structure Dispatch (H : Type*) where
  handlers : CString → Option (Entry H)
  nextNode : ℕ
  mutexLive : Bool
  shut : Bool
  quit : Bool
  queue : List Bytes
  worker : WorkerAt
  deinit : DeinitAt
  calls : List (H × CString × CString)

namespace Dispatch

variable {H : Type*}

/-- Init has started the worker. -/
def start : Dispatch H := ⟨fun _ => none, 0, true, false, false, [], .test, .deleteMutex, []⟩

variable (s : Dispatch H)

/-- The iterator still refers to the entry of the event. -/
def Refers (node : ℕ) (evt : CString) : Prop := (s.handlers evt).map Entry.node = some node

instance (node : ℕ) (evt : CString) : Decidable (s.Refers node evt) :=
  inferInstanceAs (Decidable (_ = _))

/-- A datagram arrives at the socket. -/
def arrive (datagram : Bytes) : Option (Dispatch H) :=
  if s.shut then none else some { s with queue := s.queue ++ [datagram] }

/-- Where the worker goes with the datagram that `recvfrom` returns. -/
def received (datagram : Bytes) : WorkerAt :=
  if (recvfrom datagram).length ≤ 0 then .ended
  else
    match readMessage (recvfrom datagram) with
    | none => .test
    | some (evt, msg) => .lock evt msg

/-- `recvfrom` waits for a datagram; it returns 0 when there is none and the
socket has been shut down. -/
def receive : Option (Dispatch H) :=
  match s.worker, s.queue with
  | .receive, datagram :: queue => some { s with queue := queue, worker := received datagram }
  | .receive, [] => if s.shut then some { s with worker := .ended } else none
  | _, _ => none

/-- `recvfrom` fails. -/
def receiveFails : Option (Dispatch H) :=
  match s.worker with
  | .receive => some { s with worker := .ended }
  | _ => none

/-- Any other step of the worker; there is none that locks a deleted mutex, and
none that calls through the iterator of an entry that has been erased. -/
def work : Option (Dispatch H) :=
  match s.worker with
  | .test => some { s with worker := if s.quit then .ended else .receive }
  | .lock evt msg => if s.mutexLive then some { s with worker := .lookUp evt msg } else none
  | .lookUp evt msg =>
    some { s with worker := .unlock ((s.handlers evt).map Entry.node) evt msg }
  | .unlock none _ _ => some { s with worker := .test }
  | .unlock (some node) evt msg => some { s with worker := .invoke node evt msg }
  | .invoke node evt msg =>
    match s.handlers evt with
    | some entry =>
      if entry.node = node then
        some { s with worker := .test, calls := s.calls ++ [(entry.handler, evt, msg)] }
      else none
    | none => none
  | .receive => none
  | .ended => none

/-- The worker is inside the scope of its `lock_guard`. -/
def locked : Bool :=
  match s.worker with
  | .lookUp _ _ => true
  | .unlock _ _ _ => true
  | _ => false

/-- `IFLYOS_InterfaceRegisterHandler` of the other thread.  A handler that is
there already is assigned to, a null handler is erased. -/
def registerHandler (handler : Option H) (evt : CString) : Option (Dispatch H) :=
  if s.deinit = .deleteMutex ∧ s.locked = false then
    match handler, s.handlers evt with
    | none, _ => some { s with handlers := Function.update s.handlers evt none }
    | some handler, some entry =>
      some { s with handlers := Function.update s.handlers evt (some ⟨entry.node, handler⟩) }
    | some handler, none =>
      some { s with
        handlers := Function.update s.handlers evt (some ⟨s.nextNode, handler⟩)
        nextNode := s.nextNode + 1 }
  else none

/-- The next step of `IFLYOS_InterfaceDeinit`. -/
def deinitStep : Option (Dispatch H) :=
  match s.deinit with
  | .deleteMutex => some { s with mutexLive := false, deinit := .shutdown }
  | .shutdown => some { s with shut := true, deinit := .setQuit }
  | .setQuit => some { s with quit := true, deinit := .join }
  | .join =>
    match s.worker with
    | .ended => some { s with deinit := .clear }
    | _ => none
  | .clear => some { s with handlers := fun _ => none, deinit := .returned }
  | .returned => none

inductive Action (H : Type*)
  | arrive (datagram : Bytes)
  | receive
  | receiveFails
  | work
  | registerHandler (handler : Option H) (evt : CString)
  | deinit

def step (s : Dispatch H) : Action H → Option (Dispatch H)
  | .arrive datagram => s.arrive datagram
  | .receive => s.receive
  | .receiveFails => s.receiveFails
  | .work => s.work
  | .registerHandler handler evt => s.registerHandler handler evt
  | .deinit => s.deinitStep

/-- A worker that is about to lock finds a mutex, and one that is about to call
a handler finds the entry of its iterator. -/
def Safe : Prop :=
  (∀ evt msg, s.worker = .lock evt msg → s.mutexLive = true) ∧
    ∀ node evt msg, s.worker = .invoke node evt msg → s.Refers node evt

/-- The worker is about to lock. -/
def locking : Bool :=
  match s.worker with
  | .lock _ _ => true
  | _ => false

/-- The event whose handler the worker is about to call. -/
def calling : Option CString :=
  match s.worker with
  | .invoke _ evt _ => some evt
  | _ => none

/-- The steps that keep it: no message is received behind the deletion of the
mutex, the mutex is not deleted while the worker is about to lock it, and no
entry is erased while the worker is about to call its handler. -/
def Allowed (s : Dispatch H) : Action H → Prop
  | .receive => ∀ datagram ∈ s.queue.head?, (readMessage (recvfrom datagram)).isSome →
      s.mutexLive = true
  | .registerHandler none evt => s.calling ≠ some evt
  | .deinit => s.deinit = .deleteMutex → s.locking = false
  | .arrive _ | .receiveFails | .work | .registerHandler (some _) _ => True

instance (a : Action H) : Decidable (s.Allowed a) :=
  match a with
  | .receive => inferInstanceAs (Decidable (∀ datagram ∈ s.queue.head?, _ → _))
  | .registerHandler none _ => inferInstanceAs (Decidable (_ ≠ _))
  | .deinit => inferInstanceAs (Decidable (_ → _))
  | .arrive _ | .receiveFails | .work | .registerHandler (some _) _ =>
    inferInstanceAs (Decidable True)

/-- A node that has been found is not erased while the table is locked, and the
table is cleared when the worker has ended. -/
def Inv : Prop :=
  (∀ node evt msg, s.worker = .unlock (some node) evt msg → s.Refers node evt) ∧
    (s.deinit = .clear → s.worker = .ended)

/-! ### One step -/

section Step

variable {s} {u : Dispatch H} {a : Action H} {datagram : Bytes}

theorem registerHandler_cases {handler : Option H} {evt : CString}
    (h : s.registerHandler handler evt = some u) :
    s.deinit = .deleteMutex ∧ s.locked = false ∧ u.worker = s.worker ∧ u.deinit = s.deinit ∧
      u.mutexLive = s.mutexLive ∧ (∀ e, e ≠ evt → u.handlers e = s.handlers e) ∧
      (handler = none → u.handlers evt = none) ∧
      ∀ node, handler ≠ none → s.Refers node evt → u.Refers node evt := by
  rw [registerHandler.eq_def] at h
  split at h
  · rename_i hfree
    refine ⟨hfree.1, hfree.2, ?_⟩
    split at h
    · cases h
      refine ⟨rfl, rfl, rfl, fun e he => Function.update_of_ne he _ _,
        fun _ => Function.update_self _ _ _, fun node hne => absurd rfl hne⟩
    · rename_i handler entry hentry
      cases h
      refine ⟨rfl, rfl, rfl, fun e he => Function.update_of_ne he _ _, fun hnone => ?_,
        fun node _ hnode => ?_⟩
      · cases hnone
      · rw [Refers, hentry] at hnode
        have hself : Function.update s.handlers evt (some ⟨entry.node, handler⟩) evt =
            some ⟨entry.node, handler⟩ := Function.update_self _ _ _
        exact (congrArg (Option.map Entry.node) hself).trans hnode
    · rename_i handler hentry
      cases h
      refine ⟨rfl, rfl, rfl, fun e he => Function.update_of_ne he _ _, fun hnone => ?_,
        fun node _ hnode => ?_⟩
      · cases hnone
      · rw [Refers, hentry] at hnode
        cases hnode
  · cases h

theorem received_cases :
    (received datagram = .ended ∨ received datagram = .test) ∧
        (readMessage (recvfrom datagram)).isSome = false ∨
      ∃ evt msg, readMessage (recvfrom datagram) = some (evt, msg) ∧
        received datagram = .lock evt msg := by
  rw [received]
  cases hread : readMessage (recvfrom datagram) with
  | none =>
    left
    split
    · exact ⟨Or.inl rfl, rfl⟩
    · exact ⟨Or.inr rfl, rfl⟩
  | some m =>
    right
    rw [if_neg (Bus.not_length_le_of_readMessage hread)]
    exact ⟨m.1, m.2, rfl, rfl⟩

theorem locking_iff : s.locking = true ↔ ∃ evt msg, s.worker = .lock evt msg := by
  rw [locking]
  split
  · rename_i evt msg hworker
    exact iff_of_true rfl ⟨evt, msg, hworker⟩
  · rename_i hne
    exact iff_of_false Bool.false_ne_true fun ⟨evt, msg, h⟩ => hne evt msg h

theorem calling_iff {evt : CString} :
    s.calling = some evt ↔ ∃ node msg, s.worker = .invoke node evt msg := by
  rw [calling]
  split
  · rename_i node evt' msg hworker
    rw [Option.some.injEq, hworker]
    constructor
    · rintro rfl
      exact ⟨node, msg, rfl⟩
    · rintro ⟨_, _, h⟩
      cases h
      rfl
  · rename_i hne
    exact iff_of_false (Option.some_ne_none _).symm fun ⟨node, msg, h⟩ => hne node evt msg h

/-- The worker neither locks nor calls a handler next. -/
theorem safe_of_ne (hlock : ∀ evt msg, s.worker ≠ .lock evt msg)
    (hinvoke : ∀ node evt msg, s.worker ≠ .invoke node evt msg) : s.Safe :=
  ⟨fun evt msg h => absurd h (hlock evt msg), fun node evt msg h => absurd h (hinvoke node evt msg)⟩

theorem safe_receive_iff (h : s.receive = some u) : u.Safe ↔ s.Allowed (.receive) := by
  rw [receive] at h
  split at h
  · rename_i datagram queue hworker hqueue
    cases h
    rw [Allowed, hqueue, List.head?_cons]
    rcases received_cases with ⟨hend, hread⟩ | ⟨evt, msg, hread, hlock⟩
    · refine iff_of_true (safe_of_ne (fun evt msg => ?_) fun node evt msg => ?_) ?_
      · rcases hend with hend | hend <;> rw [hend] <;> exact WorkerAt.noConfusion
      · rcases hend with hend | hend <;> rw [hend] <;> exact WorkerAt.noConfusion
      · rintro d ⟨⟩ hsome
        rw [hread] at hsome
        cases hsome
    · constructor
      · rintro ⟨hlive, -⟩ d ⟨⟩ -
        exact hlive evt msg hlock
      · intro hlive
        refine ⟨fun _ _ _ => hlive datagram rfl (by rw [hread]; rfl), fun node evt' msg' h => ?_⟩
        rw [hlock] at h
        cases h
  · rename_i hworker hqueue
    split at h
    · cases h
      refine iff_of_true (safe_of_ne (fun _ _ => WorkerAt.noConfusion)
        fun _ _ _ => WorkerAt.noConfusion) ?_
      rw [Allowed, hqueue]
      exact fun d hd => by cases hd
    · cases h
  · cases h

/-- The steps of the worker behind `recvfrom`. -/
theorem work_cases (h : s.work = some u) :
    (s.worker = .test ∧ u = { s with worker := if s.quit then .ended else .receive }) ∨
      (∃ evt msg, s.worker = .lock evt msg ∧ s.mutexLive = true ∧
        u = { s with worker := .lookUp evt msg }) ∨
      (∃ evt msg, s.worker = .lookUp evt msg ∧
        u = { s with worker := .unlock ((s.handlers evt).map Entry.node) evt msg }) ∨
      (∃ evt msg, s.worker = .unlock none evt msg ∧ u = { s with worker := .test }) ∨
      (∃ node evt msg, s.worker = .unlock (some node) evt msg ∧
        u = { s with worker := .invoke node evt msg }) ∨
      ∃ entry evt msg, s.worker = .invoke entry.node evt msg ∧ s.handlers evt = some entry ∧
        u = { s with worker := .test, calls := s.calls ++ [(entry.handler, evt, msg)] } := by
  rw [work] at h
  split at h
  · rename_i hworker
    exact Or.inl ⟨hworker, (Option.some.inj h).symm⟩
  · rename_i evt msg hworker
    split at h
    · rename_i hlive
      exact Or.inr (Or.inl ⟨evt, msg, hworker, hlive, (Option.some.inj h).symm⟩)
    · cases h
  · rename_i evt msg hworker
    exact Or.inr (Or.inr (Or.inl ⟨evt, msg, hworker, (Option.some.inj h).symm⟩))
  · rename_i evt msg hworker
    exact Or.inr (Or.inr (Or.inr (Or.inl ⟨evt, msg, hworker, (Option.some.inj h).symm⟩)))
  · rename_i node evt msg hworker
    exact Or.inr (Or.inr (Or.inr (Or.inr (Or.inl
      ⟨node, evt, msg, hworker, (Option.some.inj h).symm⟩))))
  · rename_i node evt msg hworker
    split at h
    · rename_i entry hentry
      split at h
      · rename_i hnode
        subst hnode
        exact Or.inr (Or.inr (Or.inr (Or.inr (Or.inr
          ⟨entry, evt, msg, hworker, hentry, (Option.some.inj h).symm⟩))))
      · cases h
    · cases h
  · cases h
  · cases h

theorem safe_work (hs : s.Inv) (h : s.work = some u) : u.Safe := by
  rcases work_cases h with ⟨-, rfl⟩ | ⟨evt, msg, -, -, rfl⟩ | ⟨evt, msg, -, rfl⟩ |
    ⟨evt, msg, -, rfl⟩ | ⟨node, evt, msg, hworker, rfl⟩ | ⟨entry, evt, msg, -, -, rfl⟩
  · refine safe_of_ne (fun _ _ => ?_) fun _ _ _ => ?_
    · show (if s.quit then WorkerAt.ended else .receive) ≠ _
      split <;> exact WorkerAt.noConfusion
    · show (if s.quit then WorkerAt.ended else .receive) ≠ _
      split <;> exact WorkerAt.noConfusion
  · exact safe_of_ne (fun _ _ => WorkerAt.noConfusion) fun _ _ _ => WorkerAt.noConfusion
  · exact safe_of_ne (fun _ _ => WorkerAt.noConfusion) fun _ _ _ => WorkerAt.noConfusion
  · exact safe_of_ne (fun _ _ => WorkerAt.noConfusion) fun _ _ _ => WorkerAt.noConfusion
  · -- the node that was found has not been erased under the lock
    refine ⟨fun _ _ h => (WorkerAt.noConfusion h), ?_⟩
    rintro node' evt' msg' ⟨⟩
    exact hs.1 node evt msg hworker
  · exact safe_of_ne (fun _ _ => WorkerAt.noConfusion) fun _ _ _ => WorkerAt.noConfusion

theorem safe_registerHandler_iff {handler : Option H} {evt : CString} (hs : s.Safe)
    (h : s.registerHandler handler evt = some u) :
    u.Safe ↔ s.Allowed (.registerHandler handler evt) := by
  obtain ⟨-, -, hworker, -, hlive, hother, herased, hkept⟩ := registerHandler_cases h
  have hlock : ∀ e m, u.worker = .lock e m → u.mutexLive = true := by
    intro e m hu
    rw [hworker] at hu
    rw [hlive]
    exact hs.1 e m hu
  cases handler with
  | none =>
    constructor
    · intro hu hcalling
      obtain ⟨node, msg, hinvoke⟩ := calling_iff.mp hcalling
      have hrefers := hu.2 node evt msg (hworker.trans hinvoke)
      rw [Refers, herased rfl] at hrefers
      cases hrefers
    · intro hne
      refine ⟨hlock, fun node e m hu => ?_⟩
      rw [hworker] at hu
      have hevt : e ≠ evt := by
        rintro rfl
        exact hne (calling_iff.mpr ⟨node, m, hu⟩)
      rw [Refers, hother e hevt]
      exact hs.2 node e m hu
  | some handler =>
    refine iff_of_true ⟨hlock, fun node e m hu => ?_⟩ trivial
    rw [hworker] at hu
    have hrefers := hs.2 node e m hu
    by_cases hevt : e = evt
    · subst hevt
      exact hkept node (Option.some_ne_none _) hrefers
    · rw [Refers, hother e hevt]
      exact hrefers

/-- What the steps of Deinit change besides the flags of the socket and the
loop; the worker has ended when the table is cleared. -/
theorem deinitStep_cases (h : s.deinitStep = some u) :
    u.worker = s.worker ∧
      ((s.deinit = .deleteMutex ∧ u.handlers = s.handlers ∧ u.mutexLive = false ∧
          u.deinit = .shutdown) ∨
        (s.deinit ≠ .deleteMutex ∧ u.handlers = s.handlers ∧ u.mutexLive = s.mutexLive ∧
          (u.deinit = .clear → s.worker = .ended)) ∨
        s.deinit = .clear ∧ u.deinit = .returned) := by
  rw [deinitStep] at h
  split at h
  · rename_i hdeinit
    cases h
    exact ⟨rfl, Or.inl ⟨hdeinit, rfl, rfl, rfl⟩⟩
  · rename_i hdeinit
    cases h
    rw [hdeinit]
    exact ⟨rfl, Or.inr (Or.inl ⟨DeinitAt.noConfusion, rfl, rfl, DeinitAt.noConfusion⟩)⟩
  · rename_i hdeinit
    cases h
    rw [hdeinit]
    exact ⟨rfl, Or.inr (Or.inl ⟨DeinitAt.noConfusion, rfl, rfl, DeinitAt.noConfusion⟩)⟩
  · rename_i hdeinit
    split at h
    · rename_i hended
      cases h
      rw [hdeinit]
      exact ⟨rfl, Or.inr (Or.inl ⟨DeinitAt.noConfusion, rfl, rfl, fun _ => hended⟩)⟩
    · cases h
  · rename_i hdeinit
    cases h
    exact ⟨rfl, Or.inr (Or.inr ⟨hdeinit, rfl⟩)⟩
  · cases h

theorem safe_deinit_iff (hs : s.Safe) (hinv : s.Inv) (h : s.deinitStep = some u) :
    u.Safe ↔ s.Allowed .deinit := by
  rw [Allowed]
  obtain ⟨hworker, ⟨hdeinit, hhandlers, hdeleted, -⟩ | ⟨hdeinit, hhandlers, hlive, -⟩ |
    ⟨hdeinit, -⟩⟩ := deinitStep_cases h
  · constructor
    · intro hu _
      rw [← Bool.not_eq_true, locking_iff]
      rintro ⟨evt, msg, hlock⟩
      have hlive := hu.1 evt msg (hworker.trans hlock)
      rw [hdeleted] at hlive
      cases hlive
    · intro hne
      refine ⟨fun evt msg hlock => ?_, fun node evt msg hinvoke => ?_⟩
      · have hlocking := hne hdeinit
        rw [locking_iff.mpr ⟨evt, msg, hworker.symm.trans hlock⟩] at hlocking
        cases hlocking
      · rw [Refers, hhandlers]
        exact hs.2 node evt msg (hworker.symm.trans hinvoke)
  · refine iff_of_true ⟨fun evt msg hlock => ?_, fun node evt msg hinvoke => ?_⟩
      fun heq => absurd heq hdeinit
    · rw [hlive]
      exact hs.1 evt msg (hworker.symm.trans hlock)
    · rw [Refers, hhandlers]
      exact hs.2 node evt msg (hworker.symm.trans hinvoke)
  · -- the worker has ended when the table is cleared
    have hended := hworker.trans (hinv.2 hdeinit)
    refine iff_of_true (safe_of_ne (fun evt msg => ?_) fun node evt msg => ?_)
      fun heq => absurd (hdeinit.symm.trans heq) DeinitAt.noConfusion
    · rw [hended]
      exact WorkerAt.noConfusion
    · rw [hended]
      exact WorkerAt.noConfusion

theorem safe_step_iff (hs : s.Safe) (hinv : s.Inv) (h : step s a = some u) :
    u.Safe ↔ s.Allowed a := by
  cases a with
  | arrive datagram =>
    rw [step, arrive] at h
    split at h
    · cases h
    · cases h
      exact iff_of_true hs trivial
  | receive => exact safe_receive_iff h
  | receiveFails =>
    rw [step, receiveFails] at h
    split at h
    · cases h
      exact iff_of_true (safe_of_ne (fun _ _ => WorkerAt.noConfusion)
        fun _ _ _ => WorkerAt.noConfusion) trivial
    · cases h
  | work => exact iff_of_true (safe_work hinv h) trivial
  | registerHandler handler evt => exact safe_registerHandler_iff hs h
  | deinit => exact safe_deinit_iff hs hinv h

theorem inv_start : (start : Dispatch H).Inv :=
  ⟨fun _ _ _ h => (WorkerAt.noConfusion h), fun h => by cases h⟩

theorem inv_receive (hs : s.Inv) (h : s.receive = some u) : u.Inv := by
  rw [receive] at h
  split at h
  · rename_i datagram queue hworker hqueue
    cases h
    refine ⟨fun node evt msg hunlock => ?_, fun hclear => ?_⟩
    · rcases received_cases with ⟨hend | hend, -⟩ | ⟨evt, msg, -, hend⟩
      all_goals
        rw [hend] at hunlock
        cases hunlock
    · exact absurd (hworker.symm.trans (hs.2 hclear)) WorkerAt.noConfusion
  · split at h
    · cases h
      exact ⟨fun _ _ _ hunlock => (WorkerAt.noConfusion hunlock), fun _ => rfl⟩
    · cases h
  · cases h

theorem inv_work (hs : s.Inv) (h : s.work = some u) : u.Inv := by
  have hne : s.worker ≠ .ended := by
    intro hended
    rw [work, hended] at h
    cases h
  have hdeinit : u.deinit = s.deinit := by
    rcases work_cases h with ⟨-, rfl⟩ | ⟨_, _, -, -, rfl⟩ | ⟨_, _, -, rfl⟩ | ⟨_, _, -, rfl⟩ |
      ⟨_, _, _, -, rfl⟩ | ⟨_, _, _, -, -, rfl⟩ <;> rfl
  refine ⟨fun node e m hunlock => ?_, fun hclear => absurd (hs.2 (hdeinit.symm.trans hclear)) hne⟩
  rcases work_cases h with ⟨-, rfl⟩ | ⟨evt, msg, -, -, rfl⟩ | ⟨evt, msg, -, rfl⟩ |
    ⟨evt, msg, -, rfl⟩ | ⟨node, evt, msg, -, rfl⟩ | ⟨entry, evt, msg, -, -, rfl⟩
  · have htest : (if s.quit then WorkerAt.ended else .receive) = .unlock (some node) e m :=
      hunlock
    split at htest <;> cases htest
  · cases hunlock
  · -- the node that has just been found
    injection hunlock with hfound hevt hmsg
    subst hevt
    exact hfound
  · cases hunlock
  · cases hunlock
  · cases hunlock

theorem inv_deinit (hs : s.Inv) (h : s.deinitStep = some u) : u.Inv := by
  obtain ⟨hworker, ⟨-, hhandlers, -, hnext⟩ | ⟨-, hhandlers, -, hjoined⟩ | ⟨hdeinit, hnext⟩⟩ :=
    deinitStep_cases h
  · refine ⟨fun node evt msg hunlock => ?_, fun hclear => ?_⟩
    · rw [Refers, hhandlers]
      exact hs.1 node evt msg (hworker.symm.trans hunlock)
    · exact absurd (hnext.symm.trans hclear) DeinitAt.noConfusion
  · refine ⟨fun node evt msg hunlock => ?_, fun hclear => hworker.trans (hjoined hclear)⟩
    rw [Refers, hhandlers]
    exact hs.1 node evt msg (hworker.symm.trans hunlock)
  · refine ⟨fun node evt msg hunlock => ?_, fun hclear => ?_⟩
    · have hended := hworker.trans (hs.2 hdeinit)
      exact absurd (hended.symm.trans hunlock) WorkerAt.noConfusion
    · exact absurd (hnext.symm.trans hclear) DeinitAt.noConfusion

theorem inv_step (hs : s.Inv) (h : step s a = some u) : u.Inv := by
  cases a with
  | arrive datagram =>
    rw [step, arrive] at h
    split at h
    · cases h
    · cases h
      exact hs
  | receive => exact inv_receive hs h
  | receiveFails =>
    rw [step, receiveFails] at h
    split at h
    · cases h
      exact ⟨fun _ _ _ hunlock => (WorkerAt.noConfusion hunlock), fun _ => rfl⟩
    · cases h
  | work => exact inv_work hs h
  | registerHandler handler evt =>
    obtain ⟨hdeinit, hfree, hworker, hsame, -⟩ := registerHandler_cases h
    refine ⟨fun node e m hunlock => ?_, fun hclear => ?_⟩
    · rw [locked, ← hworker, hunlock] at hfree
      cases hfree
    · rw [hsame, hdeinit] at hclear
      cases hclear
  | deinit => exact inv_deinit hs h

/-- Outside `recvfrom` the worker is safe when it can go on. -/
theorem safe_iff_isSome_work (hreceive : s.worker ≠ .receive) (hended : s.worker ≠ .ended) :
    s.Safe ↔ s.work.isSome := by
  cases hworker : s.worker with
  | receive => exact absurd hworker hreceive
  | ended => exact absurd hworker hended
  | test | lookUp evt msg =>
    refine iff_of_true (safe_of_ne (fun _ _ => ?_) fun _ _ _ => ?_) (by rw [work, hworker]; rfl)
    · rw [hworker]
      exact WorkerAt.noConfusion
    · rw [hworker]
      exact WorkerAt.noConfusion
  | unlock found evt msg =>
    refine iff_of_true (safe_of_ne (fun _ _ => ?_) fun _ _ _ => ?_) ?_
    · rw [hworker]
      exact WorkerAt.noConfusion
    · rw [hworker]
      exact WorkerAt.noConfusion
    · rw [work, hworker]
      cases found <;> rfl
  | lock evt msg =>
    rw [work, hworker]
    constructor
    · rintro ⟨hlive, -⟩
      simp only [hlive evt msg hworker, if_true, Option.isSome_some]
    · intro hsome
      refine ⟨fun _ _ _ => ?_, fun node e m hinvoke => ?_⟩
      · by_contra hlive
        simp [hlive] at hsome
      · rw [hworker] at hinvoke
        cases hinvoke
  | invoke node evt msg =>
    have hwork : s.work.isSome ↔ s.Refers node evt := by
      rw [work, hworker, Refers]
      cases hentry : s.handlers evt with
      | none => simp [hentry]
      | some entry => by_cases hnode : entry.node = node <;> simp [hentry, hnode]
    rw [hwork]
    constructor
    · rintro ⟨-, hrefers⟩
      exact hrefers node evt msg hworker
    · intro hrefers
      refine ⟨fun e m hlock => ?_, fun node' e m hinvoke => ?_⟩
      · rw [hworker] at hlock
        cases hlock
      · rw [hworker] at hinvoke
        cases hinvoke
        exact hrefers

end Step

/-! ### A dispatch alone -/

section Alone

variable {s} {datagram : Bytes} {queue : List Bytes}

/-- The state that one iteration of the loop reads and changes. -/
def bus (s : Dispatch H) : Bus H where
  handlers := fun evt => (s.handlers evt).map Entry.handler
  receivers := SetTable.empty
  inLoop := match s.worker with
    | .ended => false
    | _ => true
  calls := s.calls
  sends := []

/-- What the worker does, undisturbed, from the lock on. -/
theorem run_of_lock {evt msg : CString} (hworker : s.worker = .lock evt msg)
    (hlive : s.mutexLive = true) :
    ∃ tr, (∀ p ∈ tr, p.2 = .work) ∧
      Run step s tr { s with
        worker := .test
        calls := s.calls ++ ((s.handlers evt).map fun e => (e.handler, evt, msg)).toList } := by
  have hlock : step s .work = some { s with worker := .lookUp evt msg } := by
    rw [step, work, hworker]
    exact if_pos hlive
  have hlookUp : step { s with worker := .lookUp evt msg } .work =
      some { s with worker := .unlock ((s.handlers evt).map Entry.node) evt msg } := rfl
  have hfound := (Run.nil.snoc hlock).snoc hlookUp
  cases hentry : s.handlers evt with
  | none =>
    rw [hentry] at hfound
    have hunlock : step { s with worker := .unlock none evt msg } .work =
        some { s with worker := .test, calls := s.calls ++ [] } := by
      rw [List.append_nil]
      rfl
    exact ⟨_, by simp, hfound.snoc hunlock⟩
  | some entry =>
    rw [hentry] at hfound
    have hunlock : step { s with worker := .unlock (some entry.node) evt msg } .work =
        some { s with worker := .invoke entry.node evt msg } := rfl
    have hinvoke : step { s with worker := .invoke entry.node evt msg } .work =
        some { s with worker := .test, calls := s.calls ++ [(entry.handler, evt, msg)] } := by
      rw [step, work]
      simp only [hentry, if_true]
    exact ⟨_, by simp, (hfound.snoc hunlock).snoc hinvoke⟩

/-- The steps of a dispatch that nothing disturbs are one iteration. -/
theorem dispatch_alone (hworker : s.worker = .receive) (hqueue : s.queue = datagram :: queue)
    (hlive : s.mutexLive = true) (sendto : Datagram → SendResult) :
    ∃ tr u, Run step s ((s, .receive) :: tr) u ∧ (∀ p ∈ tr, p.2 = .work) ∧
      (u.worker = .test ∨ u.worker = .ended) ∧
      s.bus.step .interface (fun _ _ _ receivers => receivers) ⟨datagram, sendto⟩ =
        some u.bus := by
  have hbus : s.bus.inLoop = true := by rw [bus, hworker]
  have hreceive : step s .receive =
      some { s with queue := queue, worker := received datagram } := by
    rw [step, receive, hworker, hqueue]
  rw [Bus.step, if_pos hbus]
  cases hread : readMessage (recvfrom datagram) with
  | none =>
    refine ⟨[], _, Run.cons_iff.mpr ⟨rfl, _, hreceive, Run.nil⟩, by simp, ?_, ?_⟩
    · show received datagram = .test ∨ received datagram = .ended
      rw [received, hread]
      split
      · exact Or.inr rfl
      · exact Or.inl rfl
    · by_cases hnil : datagram = []
      · subst hnil
        rw [Bus.receive_nil]
        rfl
      · have htest : received datagram = .test := by
          rw [received, hread, if_neg fun hlen => hnil (Bus.recvfrom_length_le_iff.mp hlen)]
        rw [Bus.receive_of_noSpace hnil hread, htest, bus, hworker]
        rfl
  | some m =>
    obtain ⟨evt, msg⟩ := m
    have hlock : received datagram = .lock evt msg := by
      rw [received, if_neg (Bus.not_length_le_of_readMessage hread), hread]
    rw [hlock] at hreceive
    have hlen := Bus.not_length_le_of_readMessage hread
    obtain ⟨tr, hwork, hrun⟩ :=
      run_of_lock (s := { s with queue := queue, worker := .lock evt msg }) rfl hlive
    refine ⟨tr, _, Run.cons_iff.mpr ⟨rfl, _, hreceive, hrun⟩, hwork, Or.inl rfl, ?_⟩
    have hsame : s.bus.handlers evt = (s.handlers evt).map Entry.handler := rfl
    rw [Worker.receive, interfaceReceiverWorker, if_neg hlen, hread]
    simp only [hsame]
    cases hentry : s.handlers evt with
    | none =>
      rw [Option.map_none, bus, bus, hworker]
      simp only [Bus.receive, Option.map_none, Option.toList_none, List.append_nil]
    | some entry =>
      rw [Option.map_some, bus, bus, hworker]
      rfl

end Alone

/-! ### Runs of both threads -/

section Runs

variable {t : Dispatch H} {tr : List (Dispatch H × Action H)}

theorem safe_start : (start : Dispatch H).Safe :=
  safe_of_ne (fun _ _ => WorkerAt.noConfusion) fun _ _ _ => WorkerAt.noConfusion

/-- **The worker never locks the mutex that has been deleted, and never calls
through an entry that has been erased, in the runs whose steps are all
allowed**, and in no other.  The unlock of a mutex that is deleted while the
worker holds it is not covered. -/
theorem safe_iff (h : Run step start tr t) :
    ((∀ p ∈ tr, p.1.Safe) ∧ t.Safe) ↔ ∀ p ∈ tr, p.1.Allowed p.2 := by
  have hinv : ∀ p ∈ tr, p.1.Inv := h.states inv_start fun _ _ _ hs hu => inv_step hs hu
  have hlast : t.Inv := h.invariant inv_start fun _ _ _ hs hu => inv_step hs hu
  have hboth := h.states_iff (I := fun s => s.Safe ∧ s.Inv) ⟨safe_start, inv_start⟩
    fun s a u hs hu => (and_iff_left (inv_step hs.2 hu)).trans (safe_step_iff hs.1 hs.2 hu)
  rw [← hboth]
  constructor
  · rintro ⟨htr, ht⟩
    exact ⟨fun p hp => ⟨htr p hp, hinv p hp⟩, ht, hlast⟩
  · rintro ⟨htr, ht⟩
    exact ⟨fun p hp => (htr p hp).1, ht.1⟩

end Runs

/-! ### An event with one letter -/

/-- The name of the event. -/
def letter : CString := ⟨[69], by decide⟩

/-- A datagram with the event and no payload. -/
def letterDatagram : Bytes := [69, space]

/-- The handler is called, removed, and the module is ended while the worker
waits in `recvfrom`. -/
theorem safe_of_turns :
    ∃ tr t, Run step (start : Dispatch Unit) tr t ∧ t.deinit = .returned ∧
      t.calls = [((), letter, CString.ofMemory [])] ∧ (∀ p ∈ tr, p.1.Safe) ∧ t.Safe := by
  have h : Run step (start : Dispatch Unit) _ _ :=
    Run.of_exec [.registerHandler (some ()) letter, .work, .arrive letterDatagram, .receive, .work,
      .work, .work, .work, .registerHandler none letter, .work, .deinit, .deinit, .deinit,
      .receive, .deinit, .deinit] rfl
  have hsafe := (safe_iff h).mpr (by decide +kernel)
  exact ⟨_, _, h, rfl, rfl, hsafe.1, hsafe.2⟩

/-- **A handler is called through an entry that has been erased** between the
unlock and the call; **a deleted mutex is locked** when Deinit begins between
`recvfrom` and the lock, and when a message is still queued. -/
theorem unsafe_between_steps :
    (∃ tr t, Run step (start : Dispatch Unit) tr t ∧ ¬ t.Safe ∧ t.handlers letter = none ∧
        ∃ node msg, t.worker = .invoke node letter msg) ∧
      (∃ tr t, Run step (start : Dispatch Unit) tr t ∧ ¬ t.Safe ∧ t.mutexLive = false ∧
        t.locking = true ∧ t.deinit = .shutdown) ∧
      ∃ tr t, Run step (start : Dispatch Unit) tr t ∧ ¬ t.Safe ∧ t.mutexLive = false ∧
        t.locking = true ∧ t.deinit = .join := by
  have h₁ : Run step (start : Dispatch Unit) _ _ :=
    Run.of_exec [.registerHandler (some ()) letter, .work, .arrive letterDatagram, .receive, .work,
      .work, .work, .registerHandler none letter] rfl
  have h₂ : Run step (start : Dispatch Unit) _ _ :=
    Run.of_exec [.registerHandler (some ()) letter, .work, .arrive letterDatagram, .receive,
      .deinit] rfl
  have h₃ : Run step (start : Dispatch Unit) _ _ :=
    Run.of_exec [.registerHandler (some ()) letter, .work, .arrive letterDatagram, .deinit,
      .deinit, .deinit, .receive] rfl
  refine ⟨⟨_, _, h₁, fun hs => ?_, rfl, _, _, rfl⟩, ⟨_, _, h₂, fun hs => ?_, rfl, rfl, rfl⟩,
    _, _, h₃, fun hs => ?_, rfl, rfl, rfl⟩
  · cases hs.2 _ _ _ rfl
  · cases hs.1 _ _ rfl
  · cases hs.1 _ _ rfl

end Dispatch
