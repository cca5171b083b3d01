/-
MyTests/RlTtt/PlayGame.lean

The minimax player is optimal against every strategy.

The game loop is `_play_game` of `tests/test_minimax.py`.  Its players are
callables with state of their own, and here they also see the moves made so
far.  With `minimax_player` on one side the loop returns the gain of a `Play`
of `bestMove` (`playGame_plays`), and the optimality of that policy bounds it.
-/
import MyTests.RlTtt.BitBoard

namespace MyTests.RlTtt

open Lib

variable {ρ ξ : Type} {board : Board} {a : Fin 9}

/-! ### Games between two players -/

/-- A player that also sees the moves made so far. -/
abbrev Strategy (ρ ξ : Type) := List ℤ → Player ρ ξ

/-- `_play_game`, from any board; the result is the first player's. -/
def playGame (firstPlayer secondPlayer : Strategy ρ ξ) (rng : Option GenId) :
    ℕ → (currentIsFirst : Bool) → List ℤ → Board → Method ρ ξ ℤ
  | 0, _, _, _ => throw .outOfFuel
  | fuel + 1, currentIsFirst, moves, board => do
      let player := if currentIsFirst then firstPlayer else secondPlayer
      let action ← player moves board rng
      let newBoard ← orRaise (applyMove board action)
      let done := (isTerminal newBoard).1
      let rewardForMover := (isTerminal newBoard).2
      if done then
        if rewardForMover = 0 then pure 0
        else if currentIsFirst then pure 1
        else pure (-1)
      else
        playGame firstPlayer secondPlayer rng fuel (!currentIsFirst) (moves ++ [action])
          (flipPerspective newBoard)

/-- The strategy answers every board where a move is left with a legal move,
and keeps the state in `I`. -/
def LegalStrategy (I : Host ρ ξ → Prop) (τ : Strategy ρ ξ) (rng : Option GenId) : Prop :=
  ∀ moves b, isTerminal b = (false, 0) →
    Returns I (τ moves b rng) fun action k => I k ∧ ∃ i : Fin 9, b i = 0 ∧ action = (i : ℕ)

/-- `minimax_player`, which does not look back. -/
def minimaxStrategy : Strategy ρ ξ := fun _ => minimaxPlayer

variable {I : Host ρ ξ → Prop} {τ : Strategy ρ ξ} {rng : Option GenId}

theorem minimaxStrategy_best (hgo : isTerminal board = (false, 0)) (moves : List ℤ) :
    Returns I (minimaxStrategy moves board rng) fun action k => I k ∧
      board (bestMove board) = 0 ∧ action = (bestMove board : ℕ) := by
  intro k hk
  show Outcome _ _ (exec (minimaxPlayer board rng) k)
  rw [exec_minimaxPlayer hgo]
  have hbest := (bestMove_optimal board (outcome_eq_none.mpr hgo)).1
  exact ⟨hk, mem_legalMoves.mp hbest, rfl⟩

/-- The players of a game in which minimax has one of the sides. -/
def firstOf (minimaxFirst : Bool) (τ : Strategy ρ ξ) : Strategy ρ ξ :=
  if minimaxFirst then minimaxStrategy else τ

def secondOf (minimaxFirst : Bool) (τ : Strategy ρ ξ) : Strategy ρ ξ :=
  if minimaxFirst then τ else minimaxStrategy

/-- A move of such a game is legal, and on its turn minimax plays `bestMove`. -/
theorem player_move (hτ : LegalStrategy I τ rng) (minimaxFirst currentIsFirst : Bool)
    (moves : List ℤ) (hgo : isTerminal board = (false, 0)) :
    Returns I ((if currentIsFirst then firstOf minimaxFirst τ else secondOf minimaxFirst τ)
        moves board rng)
      fun action k => I k ∧ ∃ i : Fin 9, board i = 0 ∧ action = (i : ℕ) ∧
        ((currentIsFirst == minimaxFirst) = true → i = bestMove board) := by
  have hother : Returns I (τ moves board rng) fun action k => I k ∧ ∃ i : Fin 9, board i = 0 ∧
      action = (i : ℕ) ∧ (false = true → i = bestMove board) :=
    (hτ moves board hgo).weaken (fun _ hk => hk)
      (fun _ _ ⟨hk, i, hi, hact⟩ => ⟨hk, i, hi, hact, nofun⟩) fun _ _ he => he
  have hown : Returns I (minimaxStrategy moves board rng) fun action k => I k ∧ ∃ i : Fin 9,
      board i = 0 ∧ action = (i : ℕ) ∧ (true = true → i = bestMove board) :=
    (minimaxStrategy_best hgo moves).weaken (fun _ hk => hk)
      (fun _ _ ⟨hk, hi, hact⟩ => ⟨hk, _, hi, hact, fun _ => rfl⟩) fun _ _ he => he
  cases minimaxFirst <;> cases currentIsFirst
  · exact hown
  · exact hother
  · exact hother
  · exact hown

/-- The end of a game, as the loop reports it to the first player. -/
theorem play_end (hgo : isTerminal board = (false, 0)) (ha : board a = 0)
    (hdone : (isTerminal (place board a)).1 = true) {turn : Bool}
    (hturn : turn = true → a = bestMove board) :
    Play ticTacToe bestMove turn board (isTerminal (place board a)).2 := by
  have hnext : ticTacToe.outcome (ticTacToe.next board a) = some (-(isTerminal (place board a)).2) := by
    show (if (isTerminal (flipPerspective (place board a))).1
      then some (isTerminal (flipPerspective (place board a))).2 else none) = _
    rw [isTerminal_flipPerspective, if_pos hdone]
  rw [← neg_neg (isTerminal (place board a)).2]
  cases turn with
  | true =>
      rw [hturn rfl] at hnext ⊢
      exact Play.own (outcome_eq_none.mpr hgo) (Play.outcome hnext)
  | false =>
      exact Play.other (outcome_eq_none.mpr hgo) (mem_legalMoves.mpr ha) (Play.outcome hnext)

theorem play_step (hgo : isTerminal board = (false, 0)) (ha : board a = 0) {turn : Bool} {r : ℤ}
    (hturn : turn = true → a = bestMove board) (h : Play ticTacToe bestMove (!turn) (child board a) r) :
    Play ticTacToe bestMove turn board (-r) := by
  cases turn with
  | true =>
      rw [hturn rfl] at h
      exact Play.own (outcome_eq_none.mpr hgo) h
  | false => exact Play.other (outcome_eq_none.mpr hgo) (mem_legalMoves.mpr ha) h

/-- **The game loop plays the game.**  With minimax on one side, `_play_game`
returns, and what it returns is the gain of a play of `bestMove`. -/
theorem playGame_plays (hτ : LegalStrategy I τ rng) (minimaxFirst : Bool) (fuel : ℕ) :
    ∀ currentIsFirst moves board, isTerminal board = (false, 0) → empties board ≤ fuel →
      Returns I (playGame (firstOf minimaxFirst τ) (secondOf minimaxFirst τ) rng fuel
          currentIsFirst moves board)
        fun r k => I k ∧ Play ticTacToe bestMove (currentIsFirst == minimaxFirst) board
          (if currentIsFirst then r else -r) := by
  induction fuel with
  | zero =>
      intro _ _ board hgo hfuel
      exact absurd (Nat.le_zero.mp hfuel) (empties_ne_zero hgo)
  | succ fuel ih =>
      intro currentIsFirst moves board hgo hfuel k hk
      obtain ⟨_, k', hmove, hk', i, hi, rfl, hturn⟩ :=
        (player_move hτ minimaxFirst currentIsFirst moves hgo).exists hk
      simp only [playGame]
      rw [exec_bind_ok hmove, applyMove_of_legal hi, exec_bind_ok (exec_orRaise _ _)]
      cases hdone : (isTerminal (place board i)).1 with
      | true =>
          have hplay := play_end hgo hi hdone hturn
          simp only [if_true]
          -- the mover wins or the board is full, so the sign of a loss does not come up
          rcases result_place hgo hi with hr | hr
          · rw [hr] at hplay ⊢
            refine ⟨hk', ?_⟩
            cases currentIsFirst <;> simpa using hplay
          · rw [hr] at hplay ⊢
            cases currentIsFirst <;> exact ⟨hk', by simpa using hplay⟩
      | false =>
          have hgo' := isTerminal_flip_go (isTerminal_place_go hgo hi hdone)
          have hlt : empties (flipPerspective (place board i)) ≤ fuel := by
            have hchild := empties_child (mem_legalMoves.mpr hi)
            omega
          simp only [Bool.false_eq_true, if_false]
          refine (ih (!currentIsFirst) _ _ hgo' hlt).weaken (fun _ hs => hs) ?_ (fun _ _ he => he) k' hk'
          rintro r s ⟨hs, hplay⟩
          have hnot : ((!currentIsFirst) == minimaxFirst) = !(currentIsFirst == minimaxFirst) := by
            cases currentIsFirst <;> cases minimaxFirst <;> rfl
          rw [hnot] at hplay
          have hstep := play_step hgo hi hturn hplay
          refine ⟨hs, ?_⟩
          cases currentIsFirst <;> simpa using hstep

/-! ### Optimality -/

/-- **Minimax is optimal.**  From every board on which a move is left, minimax
as the side to move gains at least the value of the board, and as the other
side it concedes at most that value, whatever the strategy it meets; from the
empty board it does not lose. -/
theorem minimaxPlayer_optimal (hτ : LegalStrategy I τ rng) (board : Board)
    (hw : winner board = 0) (hmoves : legalMoves board ≠ []) (moves : List ℤ) :
    Returns I (playGame minimaxStrategy τ rng 9 true moves board)
        (fun r k => I k ∧ (negamax board).1 ≤ r) ∧
      Returns I (playGame τ minimaxStrategy rng 9 true moves board)
        (fun r k => I k ∧ r ≤ (negamax board).1) ∧
      Returns I (playGame minimaxStrategy τ rng 9 true [] initialBoard) (fun r k => I k ∧ 0 ≤ r) ∧
      Returns I (playGame τ minimaxStrategy rng 9 true [] initialBoard) (fun r k => I k ∧ r ≤ 0) := by
  have hfirst : ∀ b moves, isTerminal b = (false, 0) →
      Returns I (playGame minimaxStrategy τ rng 9 true moves b)
        fun r k => I k ∧ (negamax b).1 ≤ r := by
    intro b moves hgo
    refine (playGame_plays hτ true 9 true moves b hgo (empties_le_nine b)).weaken
      (fun _ hk => hk) ?_ fun _ _ he => he
    exact fun _ _ ⟨hk, hplay⟩ => ⟨hk, negamax_isValue.le_play bestMove_optimal hplay⟩
  have hsecond : ∀ b moves, isTerminal b = (false, 0) →
      Returns I (playGame τ minimaxStrategy rng 9 true moves b)
        fun r k => I k ∧ r ≤ (negamax b).1 := by
    intro b moves hgo
    refine (playGame_plays hτ false 9 true moves b hgo (empties_le_nine b)).weaken
      (fun _ hk => hk) ?_ fun _ _ he => he
    exact fun _ _ ⟨hk, hplay⟩ => ⟨hk, negamax_isValue.play_le bestMove_optimal hplay⟩
  have hgo := isTerminal_eq_false.mpr ⟨hw, hmoves⟩
  have hempty := negamax_initialBoard
  refine ⟨hfirst board moves hgo, hsecond board moves hgo, ?_, ?_⟩
  · rw [← hempty]
    exact hfirst initialBoard [] isTerminal_initialBoard
  · rw [← hempty]
    exact hsecond initialBoard [] isTerminal_initialBoard

/-- A generator whose state is a counter: it draws 0 and the first index. -/
def firstGen : Generator ℕ where
  random n := (0, n + 1)
  integers _ hn n := (⟨0, hn⟩, n + 1)
  choice _ hn n := (⟨0, hn⟩, n + 1)
  random_nonneg _ := le_rfl
  random_lt_one _ := zero_lt_one

theorem minimaxPlayer_optimal_randomPlayer :
    Returns (fun _ => True) (playGame minimaxStrategy
      (fun _ => (randomPlayer firstGen : Player ℕ Unit)) (some 0) 9 true [] initialBoard)
      fun r _ => True ∧ 0 ≤ r :=
  (minimaxPlayer_optimal (fun moves b hgo k _ => by
      obtain ⟨i, g, hi, hexec⟩ := exec_randomPlayer firstGen (isTerminal_eq_false.mp hgo).2 0 k
      rw [hexec]
      exact ⟨trivial, i, hi, rfl⟩) initialBoard (by decide) (by decide) []).2.2.1

end MyTests.RlTtt
