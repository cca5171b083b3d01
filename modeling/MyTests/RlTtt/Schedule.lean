/-
MyTests/RlTtt/Schedule.lean

When the evaluation schedule does not matter to training.

An evaluation changes no row that one reads and no training event
(`evalCycle_quiet`), but its greedy moves draw from the agent's generator, and
that is the generator of training.  So the schedule is invisible as long as no
training episode follows an evaluation (`trainEpisodes_quiet`).
`EvalLeak.lean` shows that this is the only way.
-/
import MyTests.RlTtt.LoopRules

namespace MyTests.RlTtt

open Lib

variable {ρ ξ : Type} {G : Generator ρ}

/-! ### What training leaves behind -/

/-- The event belongs to a training episode. -/
def Event.training : Event → Bool
  | .start train _ => train
  | .ply train _ _ _ => train
  | .update _ _ _ _ => true

def World.trainingTrace (w : World ρ ξ) : List Event := w.trace.filter Event.training

/-- The same training episodes were played, and the same Q-values learned. -/
def SameLearning (w w' : World ρ ξ) : Prop :=
  w'.trainingTrace = w.trainingTrace ∧ ∀ b, w'.host.row b = w.host.row b

theorem SameLearning.refl (w : World ρ ξ) : SameLearning w w := ⟨rfl, fun _ => rfl⟩

theorem SameLearning.symm {w w' : World ρ ξ} (h : SameLearning w w') : SameLearning w' w :=
  ⟨h.1.symm, fun b => (h.2 b).symm⟩

theorem SameLearning.trans {w w' w'' : World ρ ξ} (h : SameLearning w w')
    (h' : SameLearning w' w'') : SameLearning w w'' :=
  ⟨h'.1.trans h.1, fun b => (h'.2 b).trans (h.2 b)⟩

/-! ### Evaluation is quiet -/

/-- The host reads the same rows as `h₀`. -/
def SameRows (h₀ h : Host ρ ξ) : Prop := ∀ b, h.row b = h₀.row b

variable {h₀ : Host ρ ξ} {w₀ : World ρ ξ} {rng : GenId}

theorem Selects.row {h s : Host ρ ξ} {b : Board} (hs : Selects h b s) (b' : Board) :
    s.row b' = h.row b' := by
  unfold Host.row
  rcases hs.table with e | e <;> rw [e]
  exact QTable.row_touch

theorem selectAction_sameRows (b : Board) : Keeps (SameRows h₀) (selectAction G b) := by
  refine Sat.of_forall fun h hh => (selectAction_sat G h b).weaken (fun _ hs => hs) ?_ ?_
  · exact fun a s hs b' => (hs.1.row b').trans (hh b')
  · exact fun e s hs b' => (hs.1.row b').trans (hh b')

theorem randomPlayer_keeps {P : Host ρ ξ → Prop} (b : Board) (id : GenId)
    (hP : ∀ h n (hn : 0 < n), P h → P (h.setGen id (G.integers n hn (h.gens id)).2)) :
    Keeps P (randomPlayer G b (some id)) := by
  unfold randomPlayer
  dsimp only
  split
  · exact Keeps.throw
  · refine Keeps.bind (fun h hh => ?_) fun a => Keeps.pure
    rw [exec_pick]
    exact hP h _ _ hh

theorem pick_sameRows {α : Type} {draw : (n : ℕ) → 0 < n → ρ → Fin n × ρ} {l : List α}
    {hl : 0 < l.length} : Keeps (SameRows h₀) (pick draw rng l hl) := fun _ hh => hh

theorem minimaxPlayer_keeps {P : Host ρ ξ → Prop} (b : Board) (id : Option GenId) :
    Keeps P (minimaxPlayer b id) := by
  unfold minimaxPlayer
  dsimp only
  split
  · exact Keeps.throw
  · split
    · exact Keeps.throw
    · exact Keeps.pure

theorem onHost_sameLearning {α : Type} {x : Method ρ ξ α} (hx : Keeps (SameRows w₀.host) x) :
    Keeps (SameLearning w₀) (onHost x) := by
  refine Sat.onPart fun w hw => ?_
  refine hx.weaken (fun s hs => hs ▸ hw.2) ?_ ?_
  · exact fun a s hs => ⟨hw.1, hs⟩
  · exact fun e s hs => ⟨hw.1, hs⟩

theorem record_sameLearning {e : Event} (he : e.training = false) :
    Keeps (SameLearning w₀) (record e) := by
  refine Sat.modify fun w hw => ⟨?_, hw.2⟩
  show (w.trace ++ [e]).filter Event.training = _
  rw [List.filter_append, List.filter_singleton, he]
  exact (List.append_nil _).trans hw.1

/-- The parts of an evaluation game leave nothing behind. -/
theorem evalRule {opponent : Player ρ ξ}
    (hopp : ∀ b, Keeps (SameRows w₀.host) (opponent b (some rng))) :
    EpisodeRule G (SameLearning w₀) (fun _ => True) false opponent rng where
  initial := trivial
  closed _ _ _ _ _ := trivial
  coin := onHost_sameLearning pick_sameRows
  select b _ := onHost_sameLearning (selectAction_sameRows b)
  player b _ := onHost_sameLearning (hopp b)
  start first := record_sameLearning rfl
  ply t b a := record_sameLearning rfl
  update h := by cases h

theorem sameLearning_epsilonFree : EpsilonFree (SameLearning w₀) := fun _ _ hw => hw

/-- **An evaluation cycle leaves nothing behind.** -/
theorem evalCycle_quiet (ep n : ℕ) : Keeps (SameLearning w₀) (evalCycle G ep n rng) :=
  evalCycle_keeps (evalRule fun b => randomPlayer_keeps b _ fun _ _ _ hh => hh)
    (evalRule fun b => minimaxPlayer_keeps b _) sameLearning_epsilonFree ep n

theorem evalIfDue_quiet {cfg : TrainConfig} (ep : ℕ) (history : List EvalRow) :
    Keeps (SameLearning w₀) (evalIfDue G cfg rng ep history) :=
  evalIfDue_keeps (evalRule fun b => randomPlayer_keeps b _ fun _ _ _ hh => hh)
    (evalRule fun b => minimaxPlayer_keeps b _) sameLearning_epsilonFree ep history

/-! ### Training without evaluation -/

/-- The episodes `ep`, ..., `ep + n - 1`, with no evaluation between them. -/
def trainOnly (G : Generator ρ) (opponent : Player ρ ξ) (cfg : TrainConfig) (rng : GenId)
    (callback : Option (Callback ρ ξ)) : ℕ → ℕ → Session ρ ξ Unit
  | 0, _ => pure ()
  | n + 1, ep => do
      trainOne G opponent cfg rng callback ep
      trainOnly G opponent cfg rng callback n (ep + 1)

variable {opponent : Player ρ ξ} {cfg : TrainConfig} {evalRng : GenId}
  {callback : Option (Callback ρ ξ)}

/-- What follows a computation and is quiet leaves its learning as it is. -/
theorem sameLearning_bind {α β : Type} {x : Session ρ ξ α} {f : α → Session ρ ξ β} (w : World ρ ξ)
    (hf : ∀ a, Keeps (SameLearning (exec x w).2) (f a)) :
    SameLearning (exec x w).2 (exec (x >>= f) w).2 := by
  rcases hx : exec x w with ⟨_ | a, t⟩
  · rw [exec_bind_error hx]
    exact SameLearning.refl t
  · rw [exec_bind_ok hx]
    have hft := hf a
    rw [hx] at hft
    exact hft.state (SameLearning.refl t)

theorem evalIfDue_early {ep : ℕ} (h : ep + 1 < cfg.evalEvery) (history : List EvalRow) :
    evalIfDue G cfg evalRng ep history = (pure history : Session ρ ξ _) := by
  unfold evalIfDue
  rw [if_neg (by omega), if_neg]
  rw [Nat.mod_eq_of_lt h]
  exact Nat.succ_ne_zero ep

/-- **As long as no evaluation is due before the last episode, the episodes are
those of training alone.** -/
theorem trainEpisodes_quiet (n : ℕ) : ∀ (ep : ℕ) (history : List EvalRow) (w : World ρ ξ),
    ep + n ≤ cfg.evalEvery →
      SameLearning (exec (trainOnly G opponent cfg rng callback n ep) w).2
        (exec (trainEpisodes G opponent cfg rng evalRng callback n ep history) w).2 := by
  induction n with
  | zero => exact fun _ _ w _ => SameLearning.refl w
  | succ n ih =>
      intro ep history w hle
      unfold trainOnly trainEpisodes
      rcases hone : exec (trainOne G opponent cfg rng callback ep) w with ⟨_ | ⟨⟨⟩⟩, w₁⟩
      · rw [exec_bind_error hone, exec_bind_error hone]
        exact SameLearning.refl w₁
      · rw [exec_bind_ok hone, exec_bind_ok hone]
        cases n with
        | zero =>
            -- the evaluation after the last episode is quiet
            refine (Keeps.bind (evalIfDue_quiet ep history) fun _ => ?_).state (SameLearning.refl w₁)
            exact Keeps.pure
        | succ n =>
            rw [evalIfDue_early (by omega), pure_bind]
            exact ih (ep + 1) history w₁ (by omega)

theorem trainingLoop_quiet (w : World ρ ξ) (hle : cfg.episodes ≤ cfg.evalEvery) :
    SameLearning (exec (trainOnly G opponent cfg rng callback cfg.episodes 0) w).2
      (exec (trainingLoop G opponent cfg rng evalRng callback) w).2 := by
  refine (trainEpisodes_quiet cfg.episodes 0 [] w (by omega)).trans (sameLearning_bind w ?_)
  intro history
  split
  · exact Keeps.bind (evalCycle_quiet _ _) fun row => Keeps.pure
  · exact Keeps.pure

/-! ### Two schedules -/

/-- The schedule of `cfg`, replaced. -/
def TrainConfig.withEval (cfg : TrainConfig) (evalEvery evalGamesPerOpponent : ℕ) : TrainConfig :=
  { cfg with evalEvery := evalEvery, evalGamesPerOpponent := evalGamesPerOpponent }

/-- The two training phases. -/
inductive Phase
  | phase1a
  | phase1b (warmStart : Option QLearningAgent)

def Phase.run (phase : Phase) (G : Generator ρ) (defaultRng : ℤ → ρ) (cfg : TrainConfig)
    (callback : Option (Callback ρ ξ)) : Session ρ ξ (List EvalRow) :=
  match phase with
  | .phase1a => trainPhase1a G defaultRng cfg callback
  | .phase1b warmStart => trainPhase1b G defaultRng cfg warmStart callback

/-- Two evaluation schedules make no difference to any training run of
`episodes` episodes. -/
def SameTraining (episodes e₁ g₁ e₂ g₂ : ℕ) : Prop :=
  ∀ (ρ ξ : Type) (G : Generator ρ) (defaultRng : ℤ → ρ) (phase : Phase) (cfg : TrainConfig)
    (callback : Option (Callback ρ ξ)) (w : World ρ ξ), cfg.episodes = episodes →
      SameLearning (exec (phase.run G defaultRng (cfg.withEval e₁ g₁) callback) w).2
        (exec (phase.run G defaultRng (cfg.withEval e₂ g₂) callback) w).2

theorem trainingLoop_withEval {e₁ g₁ e₂ g₂ : ℕ} (w : World ρ ξ) (h₁ : cfg.episodes ≤ e₁)
    (h₂ : cfg.episodes ≤ e₂) :
    SameLearning (exec (trainingLoop G opponent (cfg.withEval e₁ g₁) rng evalRng callback) w).2
      (exec (trainingLoop G opponent (cfg.withEval e₂ g₂) rng evalRng callback) w).2 := by
  have hsame : ∀ n ep, trainOnly G opponent (cfg.withEval e₁ g₁) rng callback n ep
      = trainOnly G opponent (cfg.withEval e₂ g₂) rng callback n ep := by
    intro n
    induction n with
    | zero => exact fun _ => rfl
    | succ n ih => exact fun ep => congrArg _ (funext fun _ => ih (ep + 1))
  refine (trainingLoop_quiet w h₁).symm.trans ?_
  rw [hsame]
  exact trainingLoop_quiet w h₂

theorem sameTraining_of_late {episodes e₁ g₁ e₂ g₂ : ℕ} (h₁ : episodes ≤ e₁) (h₂ : episodes ≤ e₂) :
    SameTraining episodes e₁ g₁ e₂ g₂ := by
  rintro ρ ξ G defaultRng phase cfg callback w rfl
  cases phase with
  | phase1a => exact trainingLoop_withEval _ h₁ h₂
  | phase1b warmStart => exact trainingLoop_withEval _ h₁ h₂

end MyTests.RlTtt
