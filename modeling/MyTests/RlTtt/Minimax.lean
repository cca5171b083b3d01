/-
MyTests/RlTtt/Minimax.lean

What `_negamax` computes.

Tic-tac-toe is a game in the sense of `Lib.Negamax`, `_negamax` computes its
value (`negamax_isValue`), and the action that `_negamax` returns, which is the
one `minimax_player` plays, is an optimal policy (`bestMove_optimal`).
-/
import MyTests.RlTtt.Opponents
import MyTests.Lib.Negamax

namespace MyTests.RlTtt

open Lib

variable {ρ ξ : Type} {board : Board} {a : Fin 9}

/-! ### The game -/

/-- The board that the other side sees after a move. -/
def child (board : Board) (a : Fin 9) : Board := flipPerspective (place board a)

def ticTacToe : Lib.Game Board (Fin 9) ℤ where
  outcome board := if (isTerminal board).1 then some (isTerminal board).2 else none
  moves := legalMoves
  next := child

theorem outcome_eq_none : ticTacToe.outcome board = none ↔ isTerminal board = (false, 0) := by
  rw [isTerminal_eq_false]
  unfold ticTacToe isTerminal
  by_cases hw : winner board = 0
  · by_cases hl : legalMoves board = [] <;> simp [hw, hl]
  · simp [hw]

/-! ### `_negamax` -/

theorem negamax_terminal (h : (isTerminal board).1 = true) :
    negamax board = ((isTerminal board).2, none) := by
  unfold negamax
  rw [if_pos h]

/-- On a board where a move is left, `_negamax` is a loop over the moves that
keeps the best. -/
theorem negamax_loop (h : isTerminal board = (false, 0)) :
    negamax board
      = (legalMoves board).foldl (keepBest fun a => -(negamax (child board a)).1) (-2, none) := by
  rw [negamax, h]
  exact List.foldl_attach
    (f := fun best a => negamaxStep (-(negamax (child board a)).1) a best)

theorem negamax_bounds (board : Board) : -1 ≤ (negamax board).1 ∧ (negamax board).1 ≤ 1 := by
  induction hn : empties board using Nat.strong_induction_on generalizing board with
  | _ n ih =>
      by_cases hgo : isTerminal board = (false, 0)
      · have hchild : ∀ a ∈ legalMoves board,
            -1 ≤ (negamax (child board a)).1 ∧ (negamax (child board a)).1 ≤ 1 :=
          fun a ha => ih _ (hn ▸ empties_child ha) _ rfl
        rw [negamax_loop hgo]
        obtain ⟨-, hle, hfrom⟩ := foldl_keepBest (fun a => -(negamax (child board a)).1)
          (legalMoves board) (-2, none)
        obtain ⟨a, ha⟩ := List.exists_mem_of_ne_nil _ (isTerminal_eq_false.mp hgo).2
        rcases hfrom with hfrom | ⟨m, hm, hfrom⟩
        · -- the initial -2 is below the value of some move
          have hle_a := hle a ha
          have hbounds := hchild a ha
          rw [hfrom] at *
          dsimp only at *
          omega
        · have hbounds := hchild m hm
          rw [hfrom]
          dsimp only
          omega
      · have hdone := terminal_of_ne_false hgo
        rw [negamax_terminal hdone]
        have hvalue := isTerminal_snd_cases board
        dsimp only
        omega

/-- Where a move is left, the returned action is a move of the returned value,
which no move exceeds. -/
theorem negamax_best (h : isTerminal board = (false, 0)) :
    (∀ a ∈ legalMoves board, -(negamax (child board a)).1 ≤ (negamax board).1) ∧
      ∃ a ∈ legalMoves board, negamax board = (-(negamax (child board a)).1, some a) := by
  obtain ⟨-, hle, hfrom⟩ := foldl_keepBest (fun a => -(negamax (child board a)).1)
    (legalMoves board) (-2, none)
  rw [← negamax_loop h] at hle hfrom
  refine ⟨hle, ?_⟩
  rcases hfrom with hfrom | hfrom
  · -- the initial value is below every value
    have hbounds := negamax_bounds board
    rw [hfrom] at hbounds
    exact absurd hbounds.1 (by decide)
  · exact hfrom

theorem negamax_isValue : IsValue ticTacToe fun board => (negamax board).1 where
  outcome board r h := by
    unfold ticTacToe at h
    dsimp only at h
    split at h
    · rename_i hdone
      rw [negamax_terminal hdone]
      exact Option.some.inj h
    · cases h
  le board h a ha := (negamax_best (outcome_eq_none.mp h)).1 a ha
  attained board h := by
    obtain ⟨a, ha, hbest⟩ := (negamax_best (outcome_eq_none.mp h)).2
    exact ⟨a, ha, congrArg Prod.fst hbest⟩

/-- The action of `_negamax`, where it returns one. -/
def bestMove (board : Board) : Fin 9 := (negamax board).2.getD 0

theorem bestMove_optimal : Optimal ticTacToe (fun board => (negamax board).1) bestMove := by
  intro board h
  obtain ⟨a, ha, hbest⟩ := (negamax_best (outcome_eq_none.mp h)).2
  have hmove : bestMove board = a := by rw [bestMove, hbest, Option.getD_some]
  rw [hmove]
  exact ⟨ha, congrArg Prod.fst hbest⟩

/-- `minimax_player` plays that action, and touches nothing. -/
theorem exec_minimaxPlayer (h : isTerminal board = (false, 0)) (rng : Option GenId)
    (k : Host ρ ξ) :
    exec (minimaxPlayer board rng) k = (.ok ((bestMove board : ℕ) : ℤ), k) := by
  obtain ⟨a, ha, hbest⟩ := (negamax_best h).2
  have hmove : bestMove board = a := by rw [bestMove, hbest, Option.getD_some]
  simp only [minimaxPlayer, if_neg (isTerminal_eq_false.mp h).2, hbest, hmove]
  exact exec_pure _ _

end MyTests.RlTtt
