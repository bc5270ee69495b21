/-
The threads that announce the authorisation code.

AUTH_REQUIRED clears `stopAuthCodePlayer` and starts a detached thread that
plays the code, sleeps ten seconds and tests the flag, over and over.  AUTH_OK
and AUTH_SERVER_ERROR set the flag.  A thread that is told to stop and has not
tested the flag yet goes on when the next AUTH_REQUIRED clears it.

* `AuthCode.step` — a step of MicAgent's other threads, or of one player;
* `AuthCode.inv_step` — the invariant of the runs in which AUTH_REQUIRED finds
  no player;
* `AuthCode.players_stop` — **players stop when told to** in those runs;
* `AuthCode.auth_required_iff` — and no other AUTH_REQUIRED is safe.
-/
import IflyosSDK.MicAgent

namespace MicAgent

/-- Where a player stands in its loop. -/
inductive PlayerPhase
  | play
  | sleep
  | test
  | ended
  deriving DecidableEq, Repr

/-- A player thread.  `told` says that AUTH_OK or AUTH_SERVER_ERROR has come
since it was started, and `tested` that it has gone on behind a test after
that. -/
structure Player where
  phase : PlayerPhase
  told : Bool
  tested : Bool
  deriving DecidableEq, Repr

/-- MicAgent with the players, in the order of their start. -/
structure AuthCode where
  agent : State
  players : List Player
  deriving DecidableEq, Repr

namespace AuthCode

inductive Action
  | agent (a : MicAgent.Action)
  | player (i : ℕ)
  deriving DecidableEq, Repr

def start : AuthCode := ⟨init, []⟩

/-- What an event does to the players. -/
def onEvent (players : List Player) : MicAgent.Action → List Player
  | .event .authRequired => players ++ [⟨.play, false, false⟩]
  | .event .authOk | .event .authServerError => players.map fun p => { p with told := true }
  | _ => players

/-- The loop of a player: play, sleep, test. -/
def playerStep (stop : Bool) (p : Player) : Option Player :=
  match p.phase with
  | .play => some { p with phase := .sleep }
  | .sleep => some { p with phase := .test }
  | .test =>
    some (if stop then { p with phase := .ended } else { p with phase := .play, tested := p.told })
  | .ended => none

def step (s : AuthCode) : Action → Option AuthCode
  | .agent a => (MicAgent.step s.agent a).map fun u => ⟨u, onEvent s.players a⟩
  | .player i =>
    s.players[i]?.bind fun p =>
      (playerStep s.agent.stopAuthCodePlayer p).map fun q =>
        { s with players := s.players.set i q }

/-- The thread exists and has not been told to stop. -/
def Untold (p : Player) : Prop := p.phase ≠ .ended ∧ p.told = false

/-- No player that has been told to stop has gone on behind its next test, and
there is at most one that has not been told to. -/
structure Obeys (s : AuthCode) : Prop where
  tested : ∀ p ∈ s.players, p.tested = false
  single : ∀ (i j : ℕ) (p q : Player), s.players[i]? = some p → s.players[j]? = some q →
    Untold p → Untold q → i = j

/-- AUTH_REQUIRED comes when every player has ended. -/
def FindsNone (s : AuthCode) (a : Action) : Prop :=
  a = .agent (.event .authRequired) → ∀ p ∈ s.players, p.phase = .ended

instance (s : AuthCode) (a : Action) : Decidable (FindsNone s a) :=
  inferInstanceAs (Decidable (_ → _))

/-- The flag is set as long as a player that has been told to stop is there. -/
structure Inv (s : AuthCode) : Prop where
  obeys : Obeys s
  stop : ∀ p ∈ s.players, p.phase ≠ .ended → p.told = true → s.agent.stopAuthCodePlayer = true

variable {s u : AuthCode} {a : Action} {tr : List (AuthCode × Action)}

theorem inv_start : Inv start := by
  refine ⟨⟨?_, ?_⟩, ?_⟩
  · intro p hp
    cases hp
  · intro i j p q hp
    cases hp
  · intro p hp
    cases hp

/-! ### One step -/

/-- The events of the authorisation, and the steps that touch neither the
players nor the flag. -/
theorem event_cases (players : List Player) (b : MicAgent.Action) :
    b = .event .authRequired ∨ b = .event .authOk ∨ b = .event .authServerError ∨
      onEvent players b = players ∧ ∀ stop, stopAuthCode stop b = stop := by
  cases b with
  | event e => cases e <;> simp [onEvent, stopAuthCode]
  | _ => simp [onEvent, stopAuthCode]

/-- A list in which every thread that has not been told to stop stands where
such a thread stood before. -/
theorem single_of_untold {ps qs : List Player}
    (hsingle : ∀ (i j : ℕ) (p q : Player), ps[i]? = some p → ps[j]? = some q →
      Untold p → Untold q → i = j)
    (huntold : ∀ (i : ℕ) (q : Player), qs[i]? = some q → Untold q →
      ∃ p, ps[i]? = some p ∧ Untold p) :
    ∀ (i j : ℕ) (p q : Player), qs[i]? = some p → qs[j]? = some q →
      Untold p → Untold q → i = j := by
  intro i j p q hp hq hup huq
  obtain ⟨p', hp', hup'⟩ := huntold i p hp hup
  obtain ⟨q', hq', huq'⟩ := huntold j q hq huq
  exact hsingle i j p' q' hp' hq' hup' huq'

theorem inv_authRequired (hinv : Inv s) (hnone : ∀ p ∈ s.players, p.phase = .ended)
    (hu : u.players = s.players ++ [⟨.play, false, false⟩]) : Inv u := by
  have hended : ∀ i p, u.players[i]? = some p → Untold p → i = s.players.length := by
    intro i p hp huntold
    rw [hu] at hp
    rcases Nat.lt_or_ge i s.players.length with hi | hi
    · rw [List.getElem?_append_left hi] at hp
      exact absurd (hnone p (List.mem_of_getElem? hp)) huntold.1
    · obtain ⟨hi', -⟩ := List.getElem?_eq_some_iff.mp hp
      rw [List.length_append, List.length_singleton] at hi'
      omega
  refine ⟨⟨?_, ?_⟩, ?_⟩
  · intro p hp
    rw [hu] at hp
    rcases List.mem_append.mp hp with hp | hp
    · exact hinv.obeys.tested p hp
    · rw [List.mem_singleton.mp hp]
  · intro i j p q hp hq hup huq
    rw [hended i p hp hup, hended j q hq huq]
  · intro p hp hphase htold
    rw [hu] at hp
    rcases List.mem_append.mp hp with hp | hp
    · exact absurd (hnone p hp) hphase
    · rw [List.mem_singleton.mp hp] at htold
      cases htold

/-- AUTH_OK or AUTH_SERVER_ERROR: all players are told, and the flag is set. -/
theorem inv_told (hinv : Inv s) (hstop : u.agent.stopAuthCodePlayer = true)
    (hu : u.players = s.players.map fun p => { p with told := true }) : Inv u := by
  have hmem : ∀ q ∈ u.players, ∃ p ∈ s.players, q = { p with told := true } := by
    intro q hq
    rw [hu] at hq
    obtain ⟨p, hp, rfl⟩ := List.mem_map.mp hq
    exact ⟨p, hp, rfl⟩
  refine ⟨⟨?_, ?_⟩, fun _ _ _ _ => hstop⟩
  · intro q hq
    obtain ⟨p, hp, rfl⟩ := hmem q hq
    exact hinv.obeys.tested p hp
  · intro i j q q' hq _ huntold
    obtain ⟨p, -, rfl⟩ := hmem q (List.mem_of_getElem? hq)
    exact absurd huntold.2 Bool.noConfusion

/-- A player that has been told to stop finds the flag set. -/
theorem inv_player {i : ℕ} {p q : Player} (hinv : Inv s) (hp : s.players[i]? = some p)
    (hq : playerStep s.agent.stopAuthCodePlayer p = some q) :
    Inv { s with players := s.players.set i q } := by
  have hmem := List.mem_of_getElem? hp
  obtain ⟨htold, htested, hphase⟩ : q.told = p.told ∧ q.tested = false ∧ p.phase ≠ .ended := by
    rw [playerStep] at hq
    split at hq
    · rename_i hplay
      rw [← Option.some.inj hq, hplay]
      exact ⟨rfl, hinv.obeys.tested p hmem, PlayerPhase.noConfusion⟩
    · rename_i hsleep
      rw [← Option.some.inj hq, hsleep]
      exact ⟨rfl, hinv.obeys.tested p hmem, PlayerPhase.noConfusion⟩
    · rename_i htest
      rw [← Option.some.inj hq, htest]
      have hphase : p.phase ≠ .ended := by
        rw [htest]
        exact PlayerPhase.noConfusion
      split
      · exact ⟨rfl, hinv.obeys.tested p hmem, PlayerPhase.noConfusion⟩
      · rename_i hstop
        refine ⟨rfl, ?_, PlayerPhase.noConfusion⟩
        by_contra htold
        exact hstop (hinv.stop p hmem hphase (Bool.not_eq_false _ ▸ htold))
    · cases hq
  refine ⟨⟨?_, single_of_untold hinv.obeys.single ?_⟩, ?_⟩
  · intro r hr
    rcases List.mem_or_eq_of_mem_set hr with hr | rfl
    · exact hinv.obeys.tested r hr
    · exact htested
  · intro j r hr huntold
    by_cases hij : i = j
    · subst hij
      rw [List.getElem?_set_self (List.getElem?_eq_some_iff.mp hp).1, Option.some.injEq] at hr
      subst hr
      exact ⟨p, hp, hphase, htold ▸ huntold.2⟩
    · rw [List.getElem?_set_ne hij] at hr
      exact ⟨r, hr, huntold⟩
  · intro r hr hrphase hrtold
    rcases List.mem_or_eq_of_mem_set hr with hr | rfl
    · exact hinv.stop r hr hrphase hrtold
    · exact hinv.stop p hmem hphase (htold ▸ hrtold)

/-- **A step that does not let AUTH_REQUIRED find a player keeps the
invariant.** -/
theorem inv_step (hinv : Inv s) (hnone : FindsNone s a) (h : step s a = some u) : Inv u := by
  cases a with
  | agent b =>
    obtain ⟨v, hv, rfl⟩ := Option.map_eq_some_iff.mp h
    have hstop := (step_frame hv).stopAuthCodePlayer
    rcases event_cases s.players b with rfl | rfl | rfl | ⟨hplayers, hsame⟩
    · exact inv_authRequired hinv (hnone rfl) rfl
    · exact inv_told hinv hstop rfl
    · exact inv_told hinv hstop rfl
    · rw [hplayers]
      rw [hsame] at hstop
      exact ⟨⟨hinv.obeys.tested, hinv.obeys.single⟩, fun p hp hphase htold =>
        hstop.trans (hinv.stop p hp hphase htold)⟩
  | player i =>
    obtain ⟨p, hp, h⟩ := Option.bind_eq_some_iff.mp h
    obtain ⟨q, hq, rfl⟩ := Option.map_eq_some_iff.mp h
    exact inv_player hinv hp hq

/-! ### Whole runs -/

/-- **Players stop when told to** in the runs in which AUTH_REQUIRED comes when
every earlier player has ended. -/
theorem players_stop (h : Run step start tr s) (hnone : ∀ p ∈ tr, FindsNone p.1 p.2) :
    (∀ p ∈ tr, Obeys p.1) ∧ Obeys s := by
  have hstep : ∀ t a u, Inv t → FindsNone t a → step t a = some u → Inv u :=
    fun _ _ _ hinv ha hu => inv_step hinv ha hu
  exact ⟨fun p hp => (h.states_of inv_start hstep hnone p hp).obeys,
    (h.invariant_of inv_start hstep hnone).obeys⟩

/-! ### The other AUTH_REQUIREDs -/

/-- A run in which only players take steps. -/
def OnlyPlayers (tr : List (AuthCode × Action)) : Prop := ∀ p ∈ tr, ∃ i, p.2 = .player i

theorem onlyPlayers_snoc {i : ℕ} (h : OnlyPlayers tr) : OnlyPlayers (tr ++ [(s, .player i)]) := by
  intro p hp
  rcases List.mem_append.mp hp with hp | hp
  · exact h p hp
  · exact ⟨i, by rw [List.mem_singleton.mp hp]⟩

theorem step_player {i : ℕ} {p q : Player} (hp : s.players[i]? = some p)
    (hq : playerStep s.agent.stopAuthCodePlayer p = some q) :
    step s (.player i) = some { s with players := s.players.set i q } := by
  rw [step, hp, Option.bind_some, hq, Option.map_some]

/-- A player comes to its next test without the other threads. -/
theorem comes_to_test {i : ℕ} {p : Player} (hp : s.players[i]? = some p)
    (hphase : p.phase ≠ .ended) :
    ∃ tr t, Run step s tr t ∧ OnlyPlayers tr ∧ t.agent = s.agent ∧
      t.players[i]? = some { p with phase := .test } := by
  have hget : ∀ q : Player, (s.players.set i q)[i]? = some q := fun q =>
    List.getElem?_set_self (List.getElem?_eq_some_iff.mp hp).1
  have hnone : OnlyPlayers [] := by
    intro p hp
    cases hp
  cases hcase : p.phase with
  | ended => exact absurd hcase hphase
  | test =>
    refine ⟨[], s, Run.nil, hnone, rfl, ?_⟩
    rw [hp, ← hcase]
  | sleep =>
    have hq : playerStep s.agent.stopAuthCodePlayer p = some { p with phase := .test } := by
      rw [playerStep, hcase]
    exact ⟨_, _, Run.nil.snoc (step_player hp hq), onlyPlayers_snoc hnone, rfl, hget _⟩
  | play =>
    have hq : playerStep s.agent.stopAuthCodePlayer p = some { p with phase := .sleep } := by
      rw [playerStep, hcase]
    have hrun := Run.nil.snoc (step_player hp hq)
    have hnext := step_player
      (s := { s with players := s.players.set i { p with phase := .sleep } }) (hget _)
      (q := { p with phase := .test }) rfl
    refine ⟨_, _, hrun.snoc hnext, onlyPlayers_snoc (onlyPlayers_snoc hnone), rfl, ?_⟩
    rw [List.set_set]
    exact hget _

/-- **An AUTH_REQUIRED is safe exactly when it finds every player ended**: a
player that has been told to stop is un-stopped by it, and any other is then one
of two. -/
theorem auth_required_iff (hinv : Inv s)
    (h : step s (.agent (.event .authRequired)) = some u) :
    (∀ tr t, Run step u tr t → OnlyPlayers tr → Obeys t) ↔
      ∀ p ∈ s.players, p.phase = .ended := by
  constructor
  · intro hobeys p hp
    rw [step, Option.map_eq_some_iff] at h
    obtain ⟨v, hv, rfl⟩ := h
    by_contra hphase
    obtain ⟨i, hi⟩ := List.mem_iff_getElem?.mp hp
    obtain ⟨hlt, -⟩ := List.getElem?_eq_some_iff.mp hi
    have hi' : (s.players ++ [⟨.play, false, false⟩])[i]? = some p := by
      rw [List.getElem?_append_left hlt, hi]
    cases htold : p.told with
    | false =>
      -- two threads that nobody has told to stop
      have hnew : (s.players ++ [⟨.play, false, false⟩])[s.players.length]? =
          some (⟨.play, false, false⟩ : Player) := by
        simp
      have hsame := (hobeys [] _ Run.nil (by simp [OnlyPlayers])).single i s.players.length p _
        hi' hnew ⟨hphase, htold⟩ ⟨PlayerPhase.noConfusion, rfl⟩
      omega
    | true =>
      -- it comes to its test and finds the flag cleared
      obtain ⟨tr, t, hrun, honly, hagent, ht⟩ := comes_to_test
        (s := ⟨v, onEvent s.players (.event .authRequired)⟩) hi' hphase
      have hstop : t.agent.stopAuthCodePlayer = false := by
        rw [hagent]
        exact (step_frame hv).stopAuthCodePlayer
      have hq : playerStep t.agent.stopAuthCodePlayer { p with phase := .test } =
          some { p with phase := .play, tested := true } := by
        rw [hstop, playerStep, htold]
        rfl
      have hlast := hobeys _ _ (hrun.snoc (step_player ht hq)) (onlyPlayers_snoc honly)
      have hset := List.mem_set (List.getElem?_eq_some_iff.mp ht).1
        ({ p with phase := .play, tested := true } : Player)
      exact Bool.noConfusion (hlast.tested _ hset)
  · intro hnone tr t hrun honly
    have hu : Inv u := inv_step hinv (fun _ => hnone) h
    have hstep : ∀ t a u, Inv t → (∃ i, a = .player i) → step t a = some u → Inv u := by
      rintro t _ u ht ⟨i, rfl⟩ hstep
      exact inv_step ht (fun heq => Action.noConfusion heq) hstep
    exact (hrun.invariant_of hu hstep honly).obeys

/-! ### Two runs -/

/-- The player of one authorisation has ended when the next one begins. -/
theorem players_stop_between :
    ∃ tr s, Run step start tr s ∧ (∀ p ∈ tr, Obeys p.1) ∧
      s.players = [⟨.ended, true, false⟩, ⟨.play, false, false⟩] := by
  have h : Run step start _ _ :=
    Run.of_exec [.agent (.event .authRequired), .agent (.event .authOk), .player 0, .player 0,
      .player 0, .agent (.event .authRequired)] rfl
  exact ⟨_, _, h, (players_stop h (by decide)).1, rfl⟩

/-- **A player goes on after it was told to stop**: the next AUTH_REQUIRED comes
before its test.  The second run holds two players that nobody has told to
stop. -/
theorem player_goes_on :
    (∃ tr s, Run step start tr s ∧ ¬ Obeys s ∧
        s.players = [⟨.play, true, true⟩, ⟨.play, false, false⟩]) ∧
      ∃ tr s, Run step start tr s ∧ ¬ Obeys s ∧
        s.players = [⟨.play, false, false⟩, ⟨.play, false, false⟩] := by
  have h : Run step start _ _ :=
    Run.of_exec [.agent (.event .authRequired), .agent (.event .authOk),
      .agent (.event .authRequired), .player 0, .player 0, .player 0] rfl
  have h' : Run step start _ _ :=
    Run.of_exec [.agent (.event .authRequired), .agent (.event .authRequired)] rfl
  refine ⟨⟨_, _, h, fun hobeys => ?_, rfl⟩, _, _, h', fun hobeys => ?_, rfl⟩
  · exact Bool.noConfusion (hobeys.tested ⟨.play, true, true⟩ List.mem_cons_self)
  have huntold : Untold ⟨.play, false, false⟩ := ⟨PlayerPhase.noConfusion, rfl⟩
  exact absurd (hobeys.single 0 1 _ _ rfl rfl huntold huntold) Nat.zero_ne_one

end AuthCode

end MicAgent
