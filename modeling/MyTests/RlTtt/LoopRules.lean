/-
MyTests/RlTtt/LoopRules.lean

Invariants of the loops of `train.py`.

A property of the world is kept by an episode if it is kept by what the
episode is made of: the coin, the two players, the record and the updates
(`EpisodeRule`).  The players are asked only about boards of a class `B` that
the moves of a game do not leave, and the updates only with the arguments that
an episode can give them.  One rule for each loop carries this up to the
evaluations of a training run.

That the loops also return is a second judgement (`episodeLoop_total`), which
needs a table that the agent can play with and opponents that play legally.
-/
import MyTests.RlTtt.Episode

namespace MyTests.RlTtt

open Lib

variable {ρ ξ : Type} {G : Generator ρ} {I : World ρ ξ → Prop} {B : Board → Prop} {train : Bool}
  {opponent : Player ρ ξ} {rng evalRng : GenId}

/-! ### Parts of an episode -/

/-- The arguments of a call of `agent.update` in an episode: a legal action,
and either the end of the game with its outcome or the trainee's next board
without reward. -/
def UpdateArgs (B : Board → Prop) (s : Board) (a : Fin 9) (reward : ℚ) (sNext : Option Board) :
    Prop :=
  B s ∧ s a = 0 ∧
    ((sNext = none ∧ (reward = 0 ∨ reward = 1 ∨ reward = -1)) ∨
      (reward = 0 ∧ ∃ s', sNext = some s' ∧ B s'))

/-- The moves of a game stay within the class `B`. -/
def MoveClosed (B : Board → Prop) : Prop :=
  ∀ b i, B b → b i = 0 → (isTerminal (place b i)).1 = false → B (flipPerspective (place b i))

/-- The parts of the loop of an episode keep `I`. -/
structure LoopRule (G : Generator ρ) (I : World ρ ξ → Prop) (B : Board → Prop) (train : Bool)
    (opponent : Player ρ ξ) (rng : GenId) : Prop where
  closed : MoveClosed B
  select : ∀ b, B b → Keeps I (onHost (selectAction G b))
  player : ∀ b, B b → Keeps I (onHost (opponent b (some rng)))
  ply : ∀ byTrainee b a, Keeps I (record (.ply train byTrainee b a))
  update : train = true → ∀ s a reward sNext, UpdateArgs B s a reward sNext →
    Keeps I (agentUpdate s a reward sNext)

/-- The parts of an episode keep `I`. -/
structure EpisodeRule (G : Generator ρ) (I : World ρ ξ → Prop) (B : Board → Prop) (train : Bool)
    (opponent : Player ρ ξ) (rng : GenId) : Prop extends LoopRule G I B train opponent rng where
  initial : B initialBoard
  coin : Keeps I (onHost (coinFlip G rng))
  start : ∀ first, Keeps I (record (.start train first))

/-! ### The episode -/

theorem LoopRule.updateLast (h : LoopRule G I B train opponent rng)
    {last : Option (Board × Fin 9)} {reward : ℚ} {sNext : Option Board}
    (hargs : train = true → ∀ sa, last = some sa → UpdateArgs B sa.1 sa.2 reward sNext) :
    Keeps I (updateLast train last reward sNext) := by
  unfold RlTtt.updateLast
  split
  · exact h.update rfl _ _ _ _ (hargs rfl _ rfl)
  · exact Keeps.pure

/-- **The rule of the loop of an episode.** -/
theorem LoopRule.episodeLoop (h : LoopRule G I B train opponent rng) (fuel : ℕ) :
    ∀ turn board last, B board →
      (train = true → ∀ sa, last = some sa → B sa.1 ∧ sa.1 sa.2 = 0) →
      Keeps I (episodeLoop G opponent rng train fuel turn board last) := by
  induction fuel with
  | zero =>
      intro turn board last _ _
      exact Keeps.throw
  | succ fuel ih =>
      intro turn board last hB hlast
      cases turn with
      | true =>
          refine Keeps.bind (h.select board hB) fun a => Keeps.bind_orRaise fun newBoard hmove => ?_
          obtain ⟨i, hi, hlegal, rfl⟩ := legal_of_applyMove hmove
          obtain rfl : a = i := Fin.ext (by exact_mod_cast hi)
          refine Keeps.bind (h.ply _ _ _) fun _ => ?_
          dsimp only
          split
          · -- the trainee ends the game: its last move gets the final reward
            refine Keeps.bind (h.updateLast ?_) fun _ => Keeps.pure
            rintro - sa ⟨⟩
            exact ⟨hB, hlegal, Or.inl ⟨rfl, by exact_mod_cast isTerminal_snd_cases _⟩⟩
          · rename_i hdone
            refine ih false _ _ (h.closed _ _ hB hlegal (by simpa using hdone)) ?_
            rintro - sa ⟨⟩
            exact ⟨hB, hlegal⟩
      | false =>
          refine Keeps.bind (h.player board hB) fun a => Keeps.bind_orRaise fun newBoard hmove => ?_
          obtain ⟨i, -, hlegal, rfl⟩ := legal_of_applyMove hmove
          refine Keeps.bind (h.ply _ _ _) fun _ => ?_
          dsimp only
          split
          · -- the opponent ends it: the move before gets the final reward
            refine Keeps.bind (h.updateLast fun ht sa hsa => ?_) fun _ => Keeps.pure
            refine ⟨(hlast ht sa hsa).1, (hlast ht sa hsa).2, Or.inl ⟨rfl, ?_⟩⟩
            rcases isTerminal_snd_cases (place board i) with e | e | e <;> simp [e]
          · rename_i hdone
            have hB' := h.closed _ _ hB hlegal (by simpa using hdone)
            -- the game goes on: the move before is updated from the next board
            refine Keeps.bind (h.updateLast fun ht sa hsa => ?_) fun _ => ih true _ _ hB' hlast
            exact ⟨(hlast ht sa hsa).1, (hlast ht sa hsa).2, Or.inr ⟨rfl, _, rfl, hB'⟩⟩

theorem EpisodeRule.runEpisode (h : EpisodeRule G I B train opponent rng) :
    Keeps I (runEpisode G opponent rng train) := by
  refine Keeps.bind h.coin fun first => Keeps.bind (h.start first) fun _ => ?_
  exact h.episodeLoop 9 first initialBoard none h.initial (by simp)

/-! ### Episodes return -/

theorem onHost_returns {α : Type} {x : Method ρ ξ α} {P : Host ρ ξ → Prop}
    {Q : α → Host ρ ξ → Prop} (h : Returns P x Q) :
    Returns (fun w => P w.host) (onHost x) fun a w => Q a w.host :=
  Sat.onPart fun _ hw => h.weaken (fun _ hs => hs ▸ hw) (fun _ _ hQ => hQ) fun _ _ he => he

def World.Playable (w : World ρ ξ) : Prop := w.host.Playable

theorem record_total (e : Event) :
    Returns World.Playable (record e : Session ρ ξ Unit) fun _ => World.Playable :=
  Sat.modify fun _ hw => hw

theorem updateLast_total {last : Option (Board × Fin 9)} {reward : ℚ} {sNext : Option Board}
    (hlast : ∀ sa, last = some sa → sa.1 sa.2 = 0)
    (hnext : ∀ s', sNext = some s' → legalMoves s' ≠ []) :
    Returns World.Playable (updateLast train last reward sNext : Session ρ ξ Unit)
      fun _ => World.Playable := by
  cases train with
  | true =>
      intro w hw
      obtain ⟨k, hk, hexec⟩ := exec_updateLast w last reward sNext hw hlast hnext
      rw [hexec]
      exact hk
  | false => exact Sat.pure fun _ hw => hw

/-- **The loop of an episode returns.** -/
theorem episodeLoop_total (hopp : LegalPlayer opponent rng) (fuel : ℕ) :
    ∀ turn board last, isTerminal board = (false, 0) →
      (∀ sa, last = some sa → sa.1 sa.2 = 0) → empties board ≤ fuel →
      Returns World.Playable (episodeLoop G opponent rng train fuel turn board last)
        fun _ => World.Playable := by
  induction fuel with
  | zero =>
      intro turn board last hgo _ hfuel
      exact absurd (Nat.le_zero.mp hfuel) (empties_ne_zero hgo)
  | succ fuel ih =>
      intro turn board last hgo hlast hfuel
      -- whoever moves, the answer is a legal move and the game goes on with one cell less
      have hlt : ∀ a, board a = 0 → empties (flipPerspective (place board a)) ≤ fuel := by
        intro a ha
        have hless := empties_flip_place ha
        omega
      cases turn with
      | true =>
          have hselect : Returns World.Playable (onHost (selectAction G board) : Session ρ ξ _)
              fun a w => w.Playable ∧ board a = 0 :=
            onHost_returns (selectAction_legal (isTerminal_eq_false.mp hgo).2)
          refine Sat.bind hselect fun a => Sat.of_and fun ha => ?_
          rw [applyMove_of_legal ha]
          refine Sat.bind_ok (Sat.bind (record_total _) fun _ => ?_)
          dsimp only
          split
          · refine Sat.bind (updateLast_total ?_ (by simp)) fun _ => Sat.pure fun _ hw => hw
            rintro sa ⟨⟩
            exact ha
          · rename_i hdone
            have hgo' := isTerminal_place_go hgo ha (by simpa using hdone)
            refine ih false _ _ (isTerminal_flip_go hgo') ?_ (hlt a ha)
            rintro sa ⟨⟩
            exact ha
      | false =>
          have hplayer : Returns World.Playable (onHost (opponent board (some rng)))
              fun a w => w.Playable ∧ ∃ i : Fin 9, board i = 0 ∧ a = (i : ℕ) :=
            onHost_returns (hopp board hgo)
          refine Sat.bind hplayer fun _ => Sat.of_and ?_
          rintro ⟨a, ha, rfl⟩
          rw [applyMove_of_legal ha]
          refine Sat.bind_ok (Sat.bind (record_total _) fun _ => ?_)
          dsimp only
          split
          · exact Sat.bind (updateLast_total hlast (by simp)) fun _ => Sat.pure fun _ hw => hw
          · rename_i hdone
            have hgof := isTerminal_flip_go (isTerminal_place_go hgo ha (by simpa using hdone))
            have hnext : ∀ s', some (flipPerspective (place board a)) = some s' →
                legalMoves s' ≠ [] := by
              rintro s' ⟨⟩
              exact (isTerminal_eq_false.mp hgof).2
            exact Sat.bind (updateLast_total hlast hnext) fun _ => ih true _ _ hgof hlast (hlt a ha)

theorem runEpisode_total (hopp : LegalPlayer opponent rng) :
    Returns World.Playable (runEpisode G opponent rng train) fun _ => World.Playable := by
  have hcoin : Returns World.Playable (onHost (coinFlip G rng) : Session ρ ξ _)
      fun _ => World.Playable := onHost_returns (P := Host.Playable) fun _ hh => hh
  refine Sat.bind hcoin fun first => Sat.bind (record_total _) fun _ => ?_
  exact episodeLoop_total hopp 9 first initialBoard none isTerminal_initialBoard (by simp)
    empties_initialBoard.le

/-! ### Evaluation -/

theorem EpisodeRule.evalGames (h : EpisodeRule G I B false opponent rng) (n : ℕ) (c : Tally) :
    Keeps I (evalGames G opponent rng n c) := by
  induction n generalizing c with
  | zero => exact Keeps.pure
  | succ n ih => exact Keeps.bind h.runEpisode fun r => ih _

/-- An invariant that does not depend on epsilon. -/
def EpsilonFree (I : World ρ ξ → Prop) : Prop := ∀ w eps, I w → I (w.setEpsilon eps)

theorem EpisodeRule.evaluate (h : EpisodeRule G I B false opponent rng) (heps : EpsilonFree I)
    (n : ℕ) : Keeps I (evaluate G opponent n rng) := by
  refine Sat.bind (Sat.get (Q := fun _ w => I w) fun w hw => hw) fun w₀ => ?_
  refine Keeps.bind (Sat.modify fun w hw => heps w 0 hw) fun _ => ?_
  refine Keeps.bind (Sat.andFinally ?_) fun c => ?_
  · exact (h.evalGames n _).weaken (fun _ hw => hw) (fun _ w hw => heps w _ hw)
      fun _ w hw => heps w _ hw
  · split
    · exact Keeps.throw
    · exact Keeps.pure

theorem evalCycle_keeps (hrandom : EpisodeRule G I B false (randomPlayer G) rng)
    (hminimax : EpisodeRule G I B false minimaxPlayer rng) (heps : EpsilonFree I) (ep n : ℕ) :
    Keeps I (evalCycle G ep n rng) := by
  refine Keeps.bind (hrandom.evaluate heps n) fun a => Keeps.bind (hminimax.evaluate heps n) fun b => ?_
  exact Sat.bind (Sat.get (Q := fun _ w => I w) fun w hw => hw) fun w => Keeps.pure

/-- The evaluation that follows an episode, where one is due. -/
theorem evalIfDue_keeps {cfg : TrainConfig} (hrandom : EpisodeRule G I B false (randomPlayer G) rng)
    (hminimax : EpisodeRule G I B false minimaxPlayer rng) (heps : EpsilonFree I) (ep : ℕ)
    (history : List EvalRow) : Keeps I (evalIfDue G cfg rng ep history) := by
  unfold evalIfDue
  split
  · exact Keeps.throw
  · split
    · exact Keeps.bind (evalCycle_keeps hrandom hminimax heps _ _) fun row => Keeps.pure
    · exact Keeps.pure

end MyTests.RlTtt
