/-
The keys and the restart requests that `main` reads.

`SYSKey_getKeyVaule` polls the restart pipe first and the key pipe behind it.
It reads one byte of the restart pipe, but up to 128 of the key pipe, of which
it uses the first.  `SysKey_Init` makes a new key pipe, and leaves the old one
as it is.

* `Syskey.sysKeyGetKeyEvent`, `Syskey.sysKeyGetKeyVaule` — the reader;
* `Syskey.step` — a byte is written, a key is read, or the keys are initialised
  again;
* `Syskey.Inv` — what was written to a pipe is what was read of it and what is
  still there;
* `Syskey.acts_once_iff` — **when every byte of a pipe has its value**.
-/
import IflyosSDK.MicAgentMain
import Mathlib.Logic.Function.Basic

namespace MicAgent

/-- `USER_DEFINED_KEY_NETCONFIG`. -/
def userDefinedKeyNetconfig : ℕ := 10001

/-- `USER_DEFINED_KEY_RESTART_IFLYOS`. -/
def userDefinedKeyRestartIflyos : ℕ := 10011

/-- The restart pipe, and the pipe of each call of `SysKey_Init`. -/
inductive Pipe
  | restart
  | key (k : ℕ)
  deriving DecidableEq, Repr

/-- The pipes: what is unread in each, and how often `SysKey_Init` has been
called. -/
structure Syskey where
  unread : Pipe → List UInt8
  inits : ℕ

namespace Syskey

inductive Action
  | write (p : Pipe) (b : UInt8)
  | init
  | getKey
  deriving DecidableEq, Repr

/-- `main` has made the restart pipe. -/
def new : Syskey := ⟨fun _ => [], 0⟩

variable (s : Syskey)

/-- The descriptor that `SYSKey_getKeyEvent` reads behind its `poll`, and how
many bytes it asks for.  Without `SysKey_Init` both descriptors are `-1`. -/
def ready : Option (Pipe × ℕ) :=
  if s.inits = 0 then none
  else if s.unread .restart ≠ [] then some (.restart, 1)
  else if s.unread (.key (s.inits - 1)) ≠ [] then some (.key (s.inits - 1), 128)
  else none

/-- `read`. -/
def read (p : Pipe) (n : ℕ) : List UInt8 × Syskey :=
  ((s.unread p).take n, { s with unread := Function.update s.unread p ((s.unread p).drop n) })

/-- The code of the first byte of a read. -/
def codeOf : Pipe → UInt8 → ℕ
  | .restart, b => if b ≠ 0 then userDefinedKeyNetconfig else userDefinedKeyRestartIflyos
  | .key _, b => b.toNat

/-- `SYSKey_getKeyEvent`: the code it leaves in `key_event`, which is `0`
before. -/
def sysKeyGetKeyEvent : ℕ × Syskey :=
  match s.ready with
  | none => (0, s)
  | some (p, n) => (codeOf p ((s.read p n).1.headD 0), (s.read p n).2)

/-- The value of a code. -/
def valueOfCode (code : ℕ) : SysKey :=
  if code = userDefinedKeyNetconfig then .netConfig
  else if code = userDefinedKeyRestartIflyos then .restartIflyos
  else keyOfChar (Char.ofNat code)

/-- `SYSKey_getKeyVaule`. -/
def sysKeyGetKeyVaule : SysKey × Syskey :=
  (valueOfCode s.sysKeyGetKeyEvent.1, s.sysKeyGetKeyEvent.2)

/-- `SysKey_Init`. -/
def sysKeyInit : Syskey := { s with inits := s.inits + 1 }

/-- The pipe has been made. -/
def Made : Pipe → Prop
  | .restart => True
  | .key k => k < s.inits

instance : (p : Pipe) → Decidable (s.Made p)
  | .restart => isTrue trivial
  | .key k => inferInstanceAs (Decidable (k < s.inits))

/-- `write` of one byte. -/
def write (p : Pipe) (b : UInt8) : Option Syskey :=
  if s.Made p then some { s with unread := Function.update s.unread p (s.unread p ++ [b]) }
  else none

def step (s : Syskey) : Action → Option Syskey
  | .write p b => s.write p b
  | .init => some s.sysKeyInit
  | .getKey => some s.sysKeyGetKeyVaule.2

/-! ### The bytes and the values of a run -/

/-- The value that a byte stands for. -/
def valueOf : Pipe → UInt8 → SysKey
  | .restart, b => keyOfRestart b
  | .key _, b => keyOfChar (Char.ofNat b.toNat)

/-- What a step writes to a pipe. -/
def writes (p : Pipe) : Action → List UInt8
  | .write p' b => if p' = p then [b] else []
  | _ => []

/-- The bytes written to a pipe. -/
def written (p : Pipe) (tr : List (Syskey × Action)) : List UInt8 :=
  tr.flatMap fun q => writes p q.2

/-- The step reads from the pipe. -/
def ReadsFrom (p : Pipe) (q : Syskey × Action) : Prop :=
  q.2 = .getKey ∧ (q.1.ready).map Prod.fst = some p

instance (p : Pipe) (q : Syskey × Action) : Decidable (ReadsFrom p q) :=
  inferInstanceAs (Decidable (_ ∧ _))

/-- The value that a step returns for a pipe. -/
def returned (p : Pipe) (q : Syskey × Action) : List SysKey :=
  if ReadsFrom p q then [q.1.sysKeyGetKeyVaule.1] else []

/-- The values returned for a pipe. -/
def values (p : Pipe) (tr : List (Syskey × Action)) : List SysKey := tr.flatMap (returned p)

/-- What a step takes from a pipe. -/
def taken (p : Pipe) (q : Syskey × Action) : List (List UInt8) :=
  if ReadsFrom p q then (q.1.ready.map fun r => (q.1.unread p).take r.2).toList else []

/-- What the reads of a pipe have taken from it. -/
def chunks (p : Pipe) (tr : List (Syskey × Action)) : List (List UInt8) := tr.flatMap (taken p)

/-- A read of a key pipe finds one byte. -/
def FindsOne (p : Pipe) (q : Syskey × Action) : Prop :=
  ReadsFrom p q → p ≠ .restart → (q.1.unread p).length = 1

instance (p : Pipe) (q : Syskey × Action) : Decidable (FindsOne p q) :=
  inferInstanceAs (Decidable (_ → _ → _))

variable {s} {u : Syskey} {a : Action} {p : Pipe} {n : ℕ} {q : Syskey × Action}
  {tr : List (Syskey × Action)}

/-! ### One read -/

theorem ready_cases (h : s.ready = some (p, n)) :
    s.unread p ≠ [] ∧ (p = .restart ∧ n = 1 ∨ p ≠ .restart ∧ n = 128) := by
  rw [ready] at h
  split at h
  · cases h
  split at h
  · rename_i hrestart
    obtain ⟨rfl, rfl⟩ := Prod.mk.inj (Option.some.inj h)
    exact ⟨hrestart, Or.inl ⟨rfl, rfl⟩⟩
  split at h
  · rename_i hkey
    obtain ⟨rfl, rfl⟩ := Prod.mk.inj (Option.some.inj h)
    exact ⟨hkey, Or.inr ⟨Pipe.noConfusion, rfl⟩⟩
  · cases h

theorem valueOfCode_codeOf (p : Pipe) (b : UInt8) : valueOfCode (codeOf p b) = valueOf p b := by
  cases p with
  | restart =>
    rw [codeOf, valueOf, keyOfRestart]
    split
    · rfl
    · rfl
  | key k =>
    have hlt := b.toNat_lt
    have hnet : b.toNat ≠ userDefinedKeyNetconfig := by
      rw [userDefinedKeyNetconfig]
      omega
    have hrestart : b.toNat ≠ userDefinedKeyRestartIflyos := by
      rw [userDefinedKeyRestartIflyos]
      omega
    rw [codeOf, valueOf, valueOfCode, if_neg hnet, if_neg hrestart]

/-- The value is that of the first byte read. -/
theorem sysKeyGetKeyVaule_of_ready (h : s.ready = some (p, n)) :
    s.sysKeyGetKeyVaule = (valueOf p (((s.unread p).take n).headD 0), (s.read p n).2) := by
  rw [sysKeyGetKeyVaule, sysKeyGetKeyEvent, h]
  exact congrArg (·, _) (valueOfCode_codeOf p _)

/-- Without a byte to read, nothing is read. -/
theorem sysKeyGetKeyVaule_of_not_ready (h : s.ready = none) :
    s.sysKeyGetKeyVaule = (.none, s) := by
  rw [sysKeyGetKeyVaule, sysKeyGetKeyEvent, h]
  rfl

/-! ### A pipe over a run -/

/-- What was written to the pipe was read or is still there, and each read has
returned the value of the first byte it took. -/
structure Inv (p : Pipe) (tr : List (Syskey × Action)) (s : Syskey) : Prop where
  written : written p tr = (chunks p tr).flatten ++ s.unread p
  values : values p tr = (chunks p tr).map fun c => valueOf p (c.headD 0)
  nonempty : ∀ c ∈ chunks p tr, c ≠ []
  one : (∀ c ∈ chunks p tr, c.length = 1) ↔ ∀ q ∈ tr, FindsOne p q

theorem inv_new (p : Pipe) : Inv p [] new where
  written := rfl
  values := rfl
  nonempty := fun c hc => by cases hc
  one := iff_of_true (fun c hc => by cases hc) fun q hq => by cases hq

theorem written_snoc : written p (tr ++ [q]) = written p tr ++ writes p q.2 := by
  rw [written, List.flatMap_append, List.flatMap_singleton]
  rfl

theorem chunks_snoc : chunks p (tr ++ [q]) = chunks p tr ++ taken p q := by
  rw [chunks, List.flatMap_append, List.flatMap_singleton]
  rfl

theorem values_snoc : values p (tr ++ [q]) = values p tr ++ returned p q := by
  rw [values, List.flatMap_append, List.flatMap_singleton]
  rfl

/-- A read takes the front of its pipe. -/
theorem step_of_readsFrom (h : step s a = some u) (hq : ReadsFrom p (s, a)) :
    ∃ n, a = .getKey ∧ s.ready = some (p, n) ∧ u.unread p = (s.unread p).drop n := by
  obtain ⟨ha, hready⟩ := hq
  obtain rfl : a = .getKey := ha
  obtain ⟨⟨p', n⟩, hn, hp⟩ := Option.map_eq_some_iff.mp hready
  obtain rfl : p' = p := hp
  refine ⟨n, rfl, hn, ?_⟩
  rw [step, sysKeyGetKeyVaule_of_ready hn] at h
  rw [← Option.some.inj h]
  exact Function.update_self _ _ _

/-- Any other step leaves the pipe alone or writes to it. -/
theorem step_of_not_readsFrom (h : step s a = some u) (hq : ¬ ReadsFrom p (s, a)) :
    u.unread p = s.unread p ++ writes p a := by
  cases a with
  | write p' b =>
    rw [step, write] at h
    split at h
    · rw [← Option.some.inj h, writes]
      dsimp only
      by_cases hp : p' = p
      · subst hp
        rw [if_pos rfl, Function.update_self]
      · rw [if_neg hp, List.append_nil, Function.update_of_ne (Ne.symm hp)]
    · cases h
  | init =>
    rw [← Option.some.inj h]
    exact (List.append_nil _).symm
  | getKey =>
    show u.unread p = s.unread p ++ []
    rw [List.append_nil]
    rw [step] at h
    cases hready : s.ready with
    | none =>
      rw [sysKeyGetKeyVaule_of_not_ready hready] at h
      rw [← Option.some.inj h]
    | some r =>
      have hne : p ≠ r.1 := by
        rintro rfl
        exact hq ⟨rfl, congrArg (Option.map Prod.fst) hready⟩
      rw [sysKeyGetKeyVaule_of_ready (p := r.1) (n := r.2) hready] at h
      rw [← Option.some.inj h]
      exact Function.update_of_ne hne _ _

/-- A read takes one byte of the restart pipe, and one byte of a key pipe in
which it finds one. -/
theorem length_take_iff (hready : s.ready = some (p, n)) :
    ((s.unread p).take n).length = 1 ↔ FindsOne p (s, .getKey) := by
  obtain ⟨hne, hcase⟩ := ready_cases hready
  have hpos := List.length_pos_iff.mpr hne
  have hreads : ReadsFrom p (s, .getKey) := ⟨rfl, congrArg (Option.map Prod.fst) hready⟩
  rw [List.length_take]
  rcases hcase with ⟨hp, rfl⟩ | ⟨hp, rfl⟩
  · refine iff_of_true (by omega) fun _ hp' => absurd hp hp'
  · constructor
    · intro hlen _ _
      show (s.unread p).length = 1
      omega
    · intro hone
      have hlen : (s.unread p).length = 1 := hone hreads hp
      omega

theorem inv_step (hinv : Inv p tr s) (h : step s a = some u) : Inv p (tr ++ [(s, a)]) u := by
  by_cases hq : ReadsFrom p (s, a)
  · obtain ⟨n, rfl, hready, hunread⟩ := step_of_readsFrom h hq
    have hchunks : chunks p (tr ++ [(s, .getKey)]) = chunks p tr ++ [(s.unread p).take n] := by
      rw [chunks_snoc, taken, if_pos hq, hready]
      rfl
    refine ⟨?_, ?_, ?_, ?_⟩
    · rw [hchunks, hunread, written_snoc, hinv.written, List.flatten_append, List.flatten_singleton,
        List.append_assoc, List.append_assoc, List.take_append_drop]
      exact congrArg _ (List.append_nil _)
    · rw [hchunks, values_snoc, returned, if_pos hq, hinv.values, List.map_append,
        sysKeyGetKeyVaule_of_ready hready]
      rfl
    · rw [hchunks, List.forall_mem_append, List.forall_mem_singleton]
      refine ⟨hinv.nonempty, ?_⟩
      obtain ⟨hne, hcase⟩ := ready_cases hready
      have hpos := List.length_pos_iff.mpr hne
      rw [← List.length_pos_iff, List.length_take]
      omega
    · rw [hchunks, List.forall_mem_append, List.forall_mem_singleton, List.forall_mem_append,
        List.forall_mem_singleton, hinv.one, length_take_iff hready]
  · have hchunks : chunks p (tr ++ [(s, a)]) = chunks p tr := by
      rw [chunks_snoc, taken, if_neg hq, List.append_nil]
    refine ⟨?_, ?_, ?_, ?_⟩
    · rw [hchunks, written_snoc, hinv.written, step_of_not_readsFrom h hq, List.append_assoc]
    · rw [hchunks, values_snoc, returned, if_neg hq, hinv.values, List.append_nil]
    · rw [hchunks]
      exact hinv.nonempty
    · rw [hchunks, List.forall_mem_append, List.forall_mem_singleton, hinv.one]
      exact (and_iff_left fun hreads => absurd hreads hq).symm

/-! ### Drained pipes -/

/-- Chunks that are not empty are single bytes when there are as many as there
are bytes. -/
theorem length_le_length_flatten {cs : List (List UInt8)} (hne : ∀ c ∈ cs, c ≠ []) :
    cs.length ≤ cs.flatten.length ∧
      (cs.flatten.length = cs.length → ∀ c ∈ cs, c.length = 1) := by
  induction cs with
  | nil => simp
  | cons c cs ih =>
    obtain ⟨hc, hcs⟩ := List.forall_mem_cons.mp hne
    obtain ⟨hle, hone⟩ := ih hcs
    have hpos := List.length_pos_iff.mpr hc
    rw [List.flatten_cons, List.length_append, List.length_cons, List.forall_mem_cons]
    refine ⟨by omega, fun hlen => ⟨by omega, hone (by omega)⟩⟩

theorem map_flatten_of_one {cs : List (List UInt8)} (hone : ∀ c ∈ cs, c.length = 1)
    (f : UInt8 → SysKey) : cs.flatten.map f = cs.map fun c => f (c.headD 0) := by
  induction cs with
  | nil => rfl
  | cons c cs ih =>
    obtain ⟨hc, hcs⟩ := List.forall_mem_cons.mp hone
    obtain ⟨b, rfl⟩ := List.length_eq_one_iff.mp hc
    rw [List.flatten_cons, List.map_append, ih hcs]
    rfl

/-- **When every byte of a pipe has its value.**  Once a pipe is drained, the
values returned for it are those of its bytes in their order, exactly when each
read of a key pipe has found one byte. -/
theorem acts_once_iff (h : Run step new tr s) (hdrained : s.unread p = []) :
    values p tr = (written p tr).map (valueOf p) ↔ ∀ q ∈ tr, FindsOne p q := by
  have hinv : Inv p tr s := h.history (inv_new p) fun _ _ _ _ ht hu => inv_step ht hu
  have hwritten := hinv.written
  rw [hdrained, List.append_nil] at hwritten
  rw [hwritten, hinv.values, ← hinv.one]
  constructor
  · intro heq
    have hlen := congrArg List.length heq
    rw [List.length_map, List.length_map] at hlen
    exact (length_le_length_flatten hinv.nonempty).2 hlen.symm
  · intro hone
    exact (map_flatten_of_one hone _).symm

/-- A restart request waits for the keys, and the keys are initialised again
between two of them. -/
theorem acts_once_over_restart :
    ∃ tr s, Run step new tr s ∧ values .restart tr = [.restartIflyos] ∧
      values (.key 0) tr = [.volUp] ∧ values (.key 1) tr = [.micMute] := by
  have h : Run step new _ _ :=
    Run.of_exec [.write .restart 0, .init, .write (.key 0) 117, .getKey, .getKey, .init,
      .write (.key 1) 109, .getKey] rfl
  refine ⟨_, _, h, ?_, ?_, ?_⟩
  · exact (acts_once_iff h rfl).mpr (by decide)
  · exact (acts_once_iff h rfl).mpr (by decide)
  · exact (acts_once_iff h rfl).mpr (by decide)

/-- **A key is lost**: two keys are pressed before `main` reads. -/
theorem key_lost :
    ∃ tr s, Run step new tr s ∧ s.unread (.key 0) = [] ∧ written (.key 0) tr = [117, 110] ∧
      values (.key 0) tr = [.volUp] ∧
      values (.key 0) tr ≠ (written (.key 0) tr).map (valueOf (.key 0)) := by
  have h : Run step new _ _ :=
    Run.of_exec [.init, .write (.key 0) 117, .write (.key 0) 110, .getKey] rfl
  exact ⟨_, _, h, rfl, rfl, rfl, by decide⟩

end Syskey

end MicAgent
