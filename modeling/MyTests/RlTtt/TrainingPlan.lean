/-
MyTests/RlTtt/TrainingPlan.lean

Training runs that return, with what is known at each episode.

`LoopRules` carries one property of the world through a run.  Here the property
may depend on the number of episodes done and on the history so far
(`TrainingPlan`), and the run is shown to return.

What such a property may rest on: from one call to the next, the agent loses no
row, keeps its epsilon, and does not touch the state of the caller's callables
(`Grows`).  Episodes and evaluations are made of such calls.
-/
import MyTests.RlTtt.EvaluateIntact
import MyTests.RlTtt.Schedule
import MyTests.RlTtt.Minimax

namespace MyTests.RlTtt

open Lib

variable {ρ ξ : Type} {G : Generator ρ} {I : World ρ ξ → Prop} {opponent : Player ρ ξ}
  {rng evalRng : GenId} {b : Board} {h k : Host ρ ξ}

/-! ### Hosts that grow -/

/-- From `h` to `k` no row is lost, epsilon stays, and so does the state of callables. -/
structure Grows (h k : Host ρ ξ) : Prop where
  stored : ∀ b, (h.agent.qTable.lookup b).isSome → (k.agent.qTable.lookup b).isSome
  epsilon : k.agent.epsilon = h.agent.epsilon
  ext : k.ext = h.ext

theorem Grows.refl (h : Host ρ ξ) : Grows h h := ⟨fun _ hb => hb, rfl, rfl⟩

theorem Selects.grows (hs : Selects h b k) : Grows h k := by
  refine ⟨fun b' hb' => ?_, ?_, hs.ext⟩
  · rcases hs.table with e | e
    · rwa [e]
    · rw [e]
      by_cases hbb : b' = b
      · subst hbb
        exact Option.isSome_iff_exists.mpr ⟨_, QTable.lookup_touch_self⟩
      · exact (congrArg Option.isSome (QTable.lookup_touch_of_ne hbb)).trans hb'
  · rcases hs.table with e | e <;> rw [e]

theorem Updates.grows {s : Board} {a : Fin 9} {reward : ℚ} {sNext : Option Board}
    (hu : Updates h s a reward sNext k) : Grows h k := by
  refine ⟨fun b hb => ?_, by rw [hu.agent], hu.ext⟩
  by_cases hbs : b = s
  · rw [hbs, hu.lookup_self, Option.isSome_some]
  · rcases hu.lookup_of_ne b hbs with e | ⟨-, e⟩
    · rwa [e]
    · rw [e, Option.isSome_some]

/-- The table of a host that has grown is no smaller. -/
theorem Grows.length_keys (hk : Grows h k) :
    h.agent.qTable.keys.length ≤ k.agent.qTable.keys.length := by
  refine (List.subperm_of_subset h.agent.qTable.keys_nodup fun b hb => ?_).length_le
  have hmem : b ∈ h.agent.qTable := hb
  exact AList.lookup_isSome.mp (hk.stored b (AList.lookup_isSome.mpr hmem))

/-- Whatever the outcome of the call, the host has grown. -/
def Growing {α : Type} (x : Method ρ ξ α) : Prop := ∀ h, Grows h (exec x h).2

theorem selectAction_growing (b : Board) : Growing (selectAction G b : Method ρ ξ (Fin 9)) := by
  intro h
  have hsat := selectAction_sat G h b h rfl
  rcases hexec : exec (selectAction G b) h with ⟨_ | _, k⟩ <;> rw [hexec] at hsat
  · exact hsat.1.grows
  · exact hsat.1.grows

theorem update_growing (s : Board) (a : Fin 9) (reward : ℚ) (sNext : Option Board) :
    Growing (update s a reward sNext : Method ρ ξ Unit) := by
  intro h
  obtain ⟨_, k, hexec, hu⟩ := (update_sat h s a reward sNext).exists rfl
  rw [hexec]
  exact hu.grows

/-- Players that the agent may play with: they answer legally, and the host only grows. -/
structure Partner (opponent : Player ρ ξ) (rng : GenId) : Prop where
  legal : LegalPlayer opponent rng
  growing : ∀ b, Growing (opponent b (some rng))

theorem randomPlayer_partner (rng : GenId) : Partner (randomPlayer G : Player ρ ξ) rng :=
  ⟨randomPlayer_legal G rng, fun b h => (randomPlayer_keeps (P := Grows h) b rng
    fun _ _ _ hk => ⟨hk.stored, hk.epsilon, hk.ext⟩).state (Grows.refl h)⟩

theorem minimaxPlayer_partner (rng : GenId) : Partner (minimaxPlayer : Player ρ ξ) rng := by
  refine ⟨fun b hgo h hh => ?_, fun b h =>
    (minimaxPlayer_keeps (P := Grows h) b (some rng)).state (Grows.refl h)⟩
  rw [exec_minimaxPlayer hgo]
  exact ⟨hh, bestMove b, mem_legalMoves.mp (bestMove_optimal b (outcome_eq_none.mpr hgo)).1, rfl⟩

theorem selfPlayOpponent_partner (rng : GenId) : Partner (selfPlayOpponent G : Player ρ ξ) rng := by
  refine ⟨selfPlayOpponent_legal G rng, fun b h => ?_⟩
  have hselect := selectAction_growing (G := G) b h
  unfold selfPlayOpponent
  rcases hexec : exec (selectAction G b) h with ⟨_ | _, k⟩ <;> rw [hexec] at hselect
  · rwa [exec_bind_error hexec]
  · rwa [exec_bind_ok hexec]

/-! ### Properties that growing keeps -/

/-- A property of the world that no growing of its host takes away. -/
def GrowthStable (I : World ρ ξ → Prop) : Prop :=
  ∀ w w' : World ρ ξ, Grows w.host w'.host → I w → I w'

theorem onHost_keeps {α : Type} {x : Method ρ ξ α} (hI : GrowthStable I) (hx : Growing x) :
    Keeps I (onHost x) := by
  intro w hw
  have hw' : I { w with host := (exec x w.host).2 } := hI w _ (hx w.host) hw
  rw [onHost, exec_onPart]
  rcases (exec x w.host).1 with _ | _ <;> exact hw'

theorem record_keeps (hI : GrowthStable I) (e : Event) : Keeps I (record e : Session ρ ξ Unit) :=
  Sat.modify fun w hw => hI w _ (Grows.refl w.host) hw

theorem growthRule (hI : GrowthStable I) (hopp : Partner opponent rng) (train : Bool) :
    EpisodeRule G I (fun _ => True) train opponent rng where
  closed _ _ _ _ _ := trivial
  select b _ := onHost_keeps hI (selectAction_growing b)
  player b _ := onHost_keeps hI (hopp.growing b)
  ply _ _ _ := record_keeps hI _
  update _ _ _ _ _ _ :=
    Keeps.bind (record_keeps hI _) fun _ => onHost_keeps hI (update_growing _ _ _ _)
  initial := trivial
  coin := onHost_keeps hI fun _ => ⟨fun _ hb => hb, rfl, rfl⟩
  start _ := record_keeps hI _

/-- A computation that returns and keeps `I` does both. -/
theorem keeps_and_returns {σ ε α : Type} {x : Proc ε σ α} {I P : σ → Prop} {Q : α → σ → Prop}
    (hI : Keeps I x) (h : Returns P x Q) :
    Returns (fun s => P s ∧ I s) x fun a s => Q a s ∧ I s :=
  (Sat.and h hI).weaken (fun _ hs => hs) (fun _ _ hs => hs) fun _ _ hs => hs.1

theorem runEpisode_stable (hI : GrowthStable I) (hopp : Partner opponent rng) (train : Bool) :
    Returns (fun w => w.Playable ∧ I w) (runEpisode G opponent rng train)
      fun _ w => w.Playable ∧ I w :=
  keeps_and_returns (growthRule hI hopp train).runEpisode (runEpisode_total hopp.legal)

/-! ### Evaluations that return -/

/-- A result in fractions of a positive number of games. -/
structure EvalResult.Fractions (r : EvalResult) : Prop where
  nonneg : 0 ≤ r.win ∧ 0 ≤ r.draw ∧ 0 ≤ r.loss
  sum : r.win + r.draw + r.loss = 1

theorem Tally.fractions {c : Tally} {n : ℕ} (hn : 0 < n) (hc : c.total = n) :
    (⟨c.win / n, c.draw / n, c.loss / n⟩ : EvalResult).Fractions := by
  refine ⟨⟨by positivity, by positivity, by positivity⟩, ?_⟩
  have hn' : (n : ℚ) ≠ 0 := Nat.cast_ne_zero.mpr hn.ne'
  have hsum : (c.win : ℚ) + c.draw + c.loss = n := by
    rw [← hc, Tally.total]
    push_cast
    ring
  rw [← add_div, ← add_div, hsum, div_self hn']

theorem evalGames_returns (hI : GrowthStable I) (hopp : Partner opponent rng) (n : ℕ) (c : Tally) :
    Returns (fun w => w.Playable ∧ I w) (evalGames G opponent rng n c)
      fun c' w => (w.Playable ∧ I w) ∧ c'.total = c.total + n := by
  have hreturns : ∀ n c, Returns (fun w => w.Playable ∧ I w) (evalGames G opponent rng n c)
      fun _ w => w.Playable ∧ I w := by
    intro n
    induction n with
    | zero => exact fun c => Sat.pure fun _ hw => hw
    | succ n ih => exact fun c => Sat.bind (runEpisode_stable hI hopp false) fun r => ih _
  exact (Sat.and (hreturns n c) (evalGames_total n c)).weaken (fun _ hw => ⟨hw, trivial⟩)
    (fun _ _ hw => hw) fun _ _ he => he.1

/-- `evaluate` returns fractions, and gives epsilon back. -/
theorem evaluate_returns (hI : GrowthStable I) (hfree : EpsilonFree I)
    (hopp : Partner opponent rng) {n : ℕ} (hn : 0 < n) (eps : ℚ) :
    Returns (fun w => (w.Playable ∧ I w) ∧ w.host.agent.epsilon = eps)
      (evaluate G opponent n rng)
      fun r w => ((w.Playable ∧ I w) ∧ w.host.agent.epsilon = eps) ∧ r.Fractions := by
  rintro w ⟨⟨hplay, hw⟩, rfl⟩
  obtain ⟨c, w', hgames, ⟨hplay', hw'⟩, hc⟩ :=
    (evalGames_returns (G := G) hI hopp n ⟨0, 0, 0⟩).exists
      (show (w.setEpsilon 0).Playable ∧ I (w.setEpsilon 0) from ⟨hplay, hfree w 0 hw⟩)
  have hfinally : exec (andFinally (evalGames G opponent rng n ⟨0, 0, 0⟩)
      fun v => v.setEpsilon w.host.agent.epsilon) (w.setEpsilon 0)
      = (.ok c, w'.setEpsilon w.host.agent.epsilon) := by
    rw [exec_andFinally, hgames]
  unfold evaluate
  rw [exec_bind_ok (exec_get w), exec_bind_ok (exec_modify _ w), exec_bind_ok hfinally,
    if_neg hn.ne']
  refine ⟨⟨⟨hplay', hfree w' _ hw'⟩, rfl⟩, Tally.fractions hn ?_⟩
  simpa [Tally.total] using hc

/-- What a row of the history says when it is written. -/
structure RowWritten (ep : ℕ) (eps : ℚ) (row : EvalRow) (w : World ρ ξ) : Prop where
  episode : row.episode = ep
  epsilon : row.epsilon = eps
  qtableSize : row.qtableSize = w.host.agent.qTable.keys.length
  vsRandom : row.vsRandom.Fractions
  vsMinimax : row.vsMinimax.Fractions

/-- **An evaluation cycle returns a row**, keeps what growing keeps, and gives epsilon back. -/
theorem evalCycle_returns (hI : GrowthStable I) (hfree : EpsilonFree I) (ep : ℕ) {n : ℕ}
    (hn : 0 < n) (eps : ℚ) :
    Returns (fun w => (w.Playable ∧ I w) ∧ w.host.agent.epsilon = eps) (evalCycle G ep n rng)
      fun row w => ((w.Playable ∧ I w) ∧ w.host.agent.epsilon = eps)
        ∧ RowWritten ep eps row w := by
  refine Sat.bind (evaluate_returns hI hfree (randomPlayer_partner rng) hn eps) fun r => ?_
  refine Sat.of_and fun hr => ?_
  refine Sat.bind (evaluate_returns hI hfree (minimaxPlayer_partner rng) hn eps) fun m => ?_
  refine Sat.of_and fun hm => ?_
  intro w hw
  rw [exec_bind_ok (exec_get w)]
  exact ⟨hw, rfl, hw.2, rfl, hr, hm⟩

/-! ### The run -/

variable {cfg : TrainConfig} {callback : Option (Callback ρ ξ)}
  {J K : ℕ → List EvalRow → World ρ ξ → Prop} {R : List EvalRow → World ρ ξ → Prop}

/-- `J ep` holds with `ep` episodes done, `K ep` the same before the evaluation that may be due. -/
structure TrainingPlan (G : Generator ρ) (opponent : Player ρ ξ) (cfg : TrainConfig)
    (rng evalRng : GenId) (callback : Option (Callback ρ ξ))
    (J K : ℕ → List EvalRow → World ρ ξ → Prop) : Prop where
  one : ∀ ep history, Returns (J ep history) (trainOne G opponent cfg rng callback ep)
    fun _ => K (ep + 1) history
  due : ∀ ep history, cfg.evalEvery ∣ ep → 0 < ep →
    Returns (K ep history) (evalCycle G ep cfg.evalGamesPerOpponent evalRng)
      fun row => J ep (history ++ [row])
  notDue : ∀ ep history w, ¬ cfg.evalEvery ∣ ep → K ep history w → J ep history w

theorem TrainingPlan.evalIfDue (h : TrainingPlan G opponent cfg rng evalRng callback J K)
    (hevery : 0 < cfg.evalEvery) (ep : ℕ) (history : List EvalRow) :
    Returns (K (ep + 1) history) (evalIfDue G cfg evalRng ep history) (J (ep + 1)) := by
  unfold RlTtt.evalIfDue
  rw [if_neg hevery.ne']
  split
  · rename_i hmod
    exact Sat.bind (h.due _ history (Nat.dvd_of_mod_eq_zero hmod) (Nat.succ_pos ep)) fun row =>
      Sat.pure fun _ hw => hw
  · rename_i hmod
    exact Sat.pure fun w hw => h.notDue _ _ w (fun hd => hmod (Nat.mod_eq_zero_of_dvd hd)) hw

theorem TrainingPlan.trainEpisodes (h : TrainingPlan G opponent cfg rng evalRng callback J K)
    (hevery : 0 < cfg.evalEvery) (n ep : ℕ) (history : List EvalRow) :
    Returns (J ep history) (trainEpisodes G opponent cfg rng evalRng callback n ep history)
      (J (ep + n)) := by
  induction n generalizing ep history with
  | zero => exact Sat.pure fun _ hw => hw
  | succ n ih =>
      refine Sat.bind (h.one ep history) fun _ => ?_
      refine Sat.bind (h.evalIfDue hevery ep history) fun history' => ?_
      rw [show ep + (n + 1) = ep + 1 + n by omega]
      exact ih (ep + 1) history'

/-- **The rule of a training run that returns.** -/
theorem TrainingPlan.trainingLoop (h : TrainingPlan G opponent cfg rng evalRng callback J K)
    (hevery : 0 < cfg.evalEvery)
    (hlast : ∀ history, history.getLast?.map EvalRow.episode ≠ some cfg.episodes →
      Returns (J cfg.episodes history) (evalCycle G cfg.episodes cfg.evalGamesPerOpponent evalRng)
        fun row => R (history ++ [row]))
    (hdone : ∀ history w, history.getLast?.map EvalRow.episode = some cfg.episodes →
      J cfg.episodes history w → R history w) :
    Returns (J 0 []) (trainingLoop G opponent cfg rng evalRng callback) R := by
  have hloop := h.trainEpisodes hevery cfg.episodes 0 []
  rw [Nat.zero_add] at hloop
  refine Sat.bind hloop fun history => ?_
  split
  · rename_i hne
    exact Sat.bind (hlast history hne) fun row => Sat.pure fun _ hw => hw
  · rename_i heq
    exact Sat.pure fun w hw => hdone history w (not_not.mp heq) hw

end MyTests.RlTtt
