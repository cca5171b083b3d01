/-
MyTests/RlTtt/Opponents.lean

The players of `rl_ttt/opponents.py`, and the agent as its own opponent.

A player is a callable: it may draw from generators, touch the agent and use
state of its own, and it may raise.  It answers with any integer; whether that
is a legal move is for `apply_move` to say.

`_negamax` recurses on boards with one empty cell less.  Its `lru_cache` is not
modelled: the function has no effects, so a cached value is the value.
-/
import MyTests.RlTtt.Agent

namespace MyTests.RlTtt

open Lib

variable {ρ ξ : Type} (G : Generator ρ)

/-- `player(board, rng)`. -/
abbrev Player (ρ ξ : Type) := Board → Option GenId → Method ρ ξ ℤ

/-! ### The random player -/

def randomPlayer : Player ρ ξ := fun board rng => do
  match rng with
  | none => throw (.valueError "random_player requires an explicit np.random.Generator")
  | some id =>
      let legal := legalMoves board
      if hlegal : legal = [] then
        throw (.valueError "random_player called on terminal board with no legal moves")
      else
        let a ← pick G.integers id legal (legalMoves_length_pos hlegal)
        pure (a : ℕ)

theorem exec_randomPlayer {b : Board} (hb : legalMoves b ≠ []) (id : GenId) (h : Host ρ ξ) :
    ∃ i g, b i = 0 ∧ exec (randomPlayer G b (some id)) h = (.ok (i : ℕ), h.setGen id g) := by
  simp only [randomPlayer, dif_neg hb]
  rw [exec_bind_ok exec_pick]
  exact ⟨_, _, mem_legalMoves.mp (List.get_mem _ _), rfl⟩

/-! ### The minimax player -/

/-- One round of the loop of `_negamax`: action `a` has value `value`. -/
def negamaxStep (value : ℤ) (a : Fin 9) (best : ℤ × Option (Fin 9)) : ℤ × Option (Fin 9) :=
  if value > best.1 then (value, some a) else best

theorem empties_child {board : Board} {a : Fin 9} (ha : a ∈ legalMoves board) :
    empties (flipPerspective (place board a)) < empties board := by
  rw [← empties_flip_place (mem_legalMoves.mp ha)]
  exact Nat.lt_succ_self _

/-- `_negamax(board)`: the value and the best action.  On a legal action
`apply_move` is `place` (`applyMove_of_legal`). -/
def negamax (board : Board) : ℤ × Option (Fin 9) :=
  if (isTerminal board).1 then ((isTerminal board).2, none)
  else
    (legalMoves board).attach.foldl
      (fun best a =>
        let child := flipPerspective (place board a.1)
        negamaxStep (-(negamax child).1) a.1 best)
      (-2, none)
termination_by empties board
decreasing_by exact empties_child a.2

/-- `str(board)` of a tuple. -/
def boardRepr (board : Board) : String :=
  "(" ++ ", ".intercalate (List.ofFn fun i => toString (board i : ℤ)) ++ ")"

def minimaxPlayer : Player ρ ξ := fun board _ => do
  let legal := legalMoves board
  if legal = [] then
    throw (.valueError "minimax_player called on terminal board with no legal moves")
  else
    match (negamax board).2 with
    | none =>
        let repr := boardRepr board
        throw (.runtimeError s!"minimax returned no action for non-terminal board {repr}")
    | some bestAction => pure (bestAction : ℕ)

/-! ### Self-play -/

/-- `self_play_opponent` of `train_phase_1b`. -/
def selfPlayOpponent : Player ρ ξ := fun board _ => do
  let a ← selectAction G board
  pure (a : ℕ)

end MyTests.RlTtt
