/-
MyTests/RlTtt/Game.lean

Tic-tac-toe as `rl_ttt/game.py` has it: pure functions over a board of nine
cells, seen by the side to move.

A cell is a sign (`EMPTY` 0, `ME` 1, `OPP` -1), and a board gives each of the
nine indices a cell.  Every move puts a `ME`, after which the perspective is
flipped; so one table of values serves both players.

The second half states what the rest of the development needs about these
functions, so that nothing above unfolds them: which moves are legal, what a
legal move changes, that flipping the board negates the winner, and that the
number of empty cells drops with every move.
-/
import Mathlib

namespace MyTests.RlTtt

/-! ### Python exceptions -/

/-- The exceptions of the modelled code.  `other` is raised by callables that
are passed in; `outOfFuel` ends a bounded loop and is never raised
(`episodeLoop_total`). -/
inductive PyErr
  | valueError (msg : String)
  | runtimeError (msg : String)
  | zeroDivisionError (msg : String)
  | other (msg : String)
  | outOfFuel
deriving DecidableEq, Repr

/-! ### Boards -/

instance neZero_cells : NeZero 9 := ⟨by decide⟩

/-- The numbers 0, 1 and -1 of the source, and no other. -/
abbrev Cell := SignType

abbrev EMPTY : Cell := 0
abbrev ME : Cell := 1
abbrev OPP : Cell := -1

/-- A tuple of nine cells. -/
abbrev Board := Fin 9 → Cell

/-- `_WINNING_LINES`. -/
def winningLines : List (Fin 9 × Fin 9 × Fin 9) :=
  [(0, 1, 2), (3, 4, 5), (6, 7, 8),
    (0, 3, 6), (1, 4, 7), (2, 5, 8),
    (0, 4, 8), (2, 4, 6)]

/-- `initial_board`. -/
def initialBoard : Board := fun _ => EMPTY

/-- `legal_moves`: the indices of the empty cells, in ascending order. -/
def legalMoves (board : Board) : List (Fin 9) :=
  (List.finRange 9).filter fun i => board i = EMPTY

/-- The board with `ME` at an index that is in range. -/
def place (board : Board) (i : Fin 9) : Board := Function.update board i ME

/-- `apply_move`; an index below 0 does not count from the end, since the range is checked first. -/
def applyMove (board : Board) (action : ℤ) : Except PyErr Board :=
  if h : 0 ≤ action ∧ action < 9 then
    let i : Fin 9 := ⟨action.toNat, by omega⟩
    if board i ≠ EMPTY then
      let value : ℤ := board i
      .error (.valueError s!"action {action} targets occupied cell (value={value})")
    else .ok (place board i)
  else .error (.valueError s!"action {action} out of range [0, 9)")

/-- `flip_perspective`. -/
def flipPerspective (board : Board) : Board := fun i => -board i

/-- `line_sum` of `winner`. -/
def lineSum (board : Board) (line : Fin 9 × Fin 9 × Fin 9) : ℤ :=
  board line.1 + board line.2.1 + board line.2.2

/-- The loop of `winner` over the remaining lines. -/
def winnerOn (board : Board) : List (Fin 9 × Fin 9 × Fin 9) → ℤ
  | [] => 0
  | line :: lines =>
      if lineSum board line = 3 * (ME : ℤ) then ME
      else if lineSum board line = 3 * (OPP : ℤ) then OPP
      else winnerOn board lines

/-- `winner`: 1 if the side to move has a line, -1 if the other has, 0 otherwise; with a line of
each, the first in the order of `_WINNING_LINES`. -/
def winner (board : Board) : ℤ := winnerOn board winningLines

/-- `is_terminal`: whether the game is over, and the reward of the side to move. -/
def isTerminal (board : Board) : Bool × ℤ :=
  let w := winner board
  if w ≠ 0 then (true, w)
  else if legalMoves board = [] then (true, 0)
  else (false, 0)

/-! ### Legal moves -/

variable {board : Board} {i j : Fin 9}

/-- A move is legal where the cell is empty. -/
@[simp] theorem mem_legalMoves : i ∈ legalMoves board ↔ board i = 0 := by
  simp [legalMoves]

/-- No move is listed twice. -/
theorem legalMoves_nodup (board : Board) : (legalMoves board).Nodup :=
  (List.nodup_finRange 9).filter _

theorem legalMoves_length_pos (h : legalMoves board ≠ []) : 0 < (legalMoves board).length :=
  List.length_pos_of_ne_nil h

@[simp] theorem legalMoves_initialBoard : legalMoves initialBoard = List.finRange 9 := by
  simp [legalMoves, initialBoard]

@[simp] theorem place_self : place board i i = 1 := by
  simp [place]

/-- The other cells stay. -/
theorem place_of_ne (h : j ≠ i) : place board i j = board j := by
  simp [place, h]

/-- A legal move does not raise. -/
theorem applyMove_of_legal (h : board i = 0) : applyMove board (i : ℕ) = .ok (place board i) := by
  have hi : (0 : ℤ) ≤ (i : ℕ) ∧ ((i : ℕ) : ℤ) < 9 := by omega
  simp [applyMove, hi, h]

/-- A move that does not raise is legal. -/
theorem legal_of_applyMove {action : ℤ} {board' : Board} (h : applyMove board action = .ok board') :
    ∃ i : Fin 9, action = (i : ℕ) ∧ board i = 0 ∧ board' = place board i := by
  unfold applyMove at h
  split at h
  · rename_i hr
    by_cases hcell : board ⟨action.toNat, by omega⟩ = 0
    · refine ⟨⟨action.toNat, by omega⟩, (Int.toNat_of_nonneg hr.1).symm, hcell, ?_⟩
      simpa [hcell] using h.symm
    · simp [hcell] at h
  · cases h

/-! ### Empty cells -/

/-- The number of empty cells. -/
def empties (board : Board) : ℕ := (legalMoves board).length

/-- A move takes itself from the legal ones. -/
theorem legalMoves_place (h : board i = 0) :
    legalMoves (place board i) = (legalMoves board).erase i := by
  rw [(legalMoves_nodup board).erase_eq_filter, legalMoves, legalMoves, List.filter_filter]
  refine List.filter_congr fun j _ => ?_
  by_cases hj : j = i
  · subst hj
    simp
  · simp [place_of_ne hj, hj]

/-- A move fills one cell. -/
theorem empties_place (h : board i = 0) : empties (place board i) + 1 = empties board := by
  have hi : i ∈ legalMoves board := mem_legalMoves.mpr h
  rw [empties, empties, legalMoves_place h, List.length_erase_of_mem hi]
  exact Nat.succ_pred_eq_of_pos (List.length_pos_of_mem hi)

/-- Two flips give the board back. -/
@[simp] theorem flipPerspective_flipPerspective (board : Board) :
    flipPerspective (flipPerspective board) = board := by
  funext i
  simp [flipPerspective]

@[simp] theorem flipPerspective_apply : flipPerspective board i = -board i := rfl

/-- Both sides have the same moves. -/
@[simp] theorem legalMoves_flipPerspective : legalMoves (flipPerspective board) = legalMoves board := by
  simp [legalMoves]

@[simp] theorem empties_flipPerspective : empties (flipPerspective board) = empties board := by
  simp [empties]

/-- The next mover has one empty cell less. -/
theorem empties_flip_place (h : board i = 0) :
    empties (flipPerspective (place board i)) + 1 = empties board := by
  rw [empties_flipPerspective, empties_place h]

theorem empties_le_nine (board : Board) : empties board ≤ 9 :=
  (List.length_filter_le _ _).trans (List.length_finRange (n := 9)).le

theorem empties_initialBoard : empties initialBoard = 9 := by
  simp [empties]

/-! ### Winners -/

/-- Somebody's pieces fill a line. -/
def HasLine (board : Board) (c : Cell) : Prop :=
  ∃ line ∈ winningLines, board line.1 = c ∧ board line.2.1 = c ∧ board line.2.2 = c

instance : DecidablePred (HasLine board) := fun _ => inferInstanceAs (Decidable (∃ _ ∈ _, _))

theorem cell_cases (c : Cell) : c = 0 ∨ c = 1 ∨ c = -1 := by
  cases c <;> simp

/-- Three signs sum to 3 only if all are 1. -/
theorem sum_eq_three {a b c : Cell} : (a + b + c : ℤ) = 3 ↔ a = 1 ∧ b = 1 ∧ c = 1 := by
  revert a b c
  decide

theorem sum_eq_neg_three {a b c : Cell} : (a + b + c : ℤ) = -3 ↔ a = -1 ∧ b = -1 ∧ c = -1 := by
  revert a b c
  decide

/-- One round of the loop, with the sums written out. -/
theorem winnerOn_cons (line : Fin 9 × Fin 9 × Fin 9) (lines : List (Fin 9 × Fin 9 × Fin 9)) :
    winnerOn board (line :: lines)
      = if lineSum board line = 3 then 1
        else if lineSum board line = -3 then -1 else winnerOn board lines := by
  simp [winnerOn]

theorem winnerOn_cases (lines : List (Fin 9 × Fin 9 × Fin 9)) :
    winnerOn board lines = 0 ∨ winnerOn board lines = 1 ∨ winnerOn board lines = -1 := by
  induction lines with
  | nil => exact Or.inl rfl
  | cons line lines ih =>
      rw [winnerOn_cons]
      split
      · exact Or.inr (Or.inl rfl)
      · split
        · exact Or.inr (Or.inr rfl)
        · exact ih

/-- `winner` is a sign. -/
theorem winner_cases (board : Board) : winner board = 0 ∨ winner board = 1 ∨ winner board = -1 :=
  winnerOn_cases winningLines

/-- The loop runs through when no line is full. -/
theorem winnerOn_eq_zero (lines : List (Fin 9 × Fin 9 × Fin 9)) :
    winnerOn board lines = 0
      ↔ ∀ line ∈ lines, lineSum board line ≠ 3 ∧ lineSum board line ≠ -3 := by
  induction lines with
  | nil => simp [winnerOn]
  | cons line lines ih =>
      rw [winnerOn_cons, List.forall_mem_cons, ← ih]
      split
      · simp [*]
      · split <;> simp [*]

/-- There is no winner when nobody has a line. -/
theorem winner_eq_zero : winner board = 0 ↔ ¬ HasLine board ME ∧ ¬ HasLine board OPP := by
  rw [winner, winnerOn_eq_zero]
  simp only [HasLine, lineSum, ne_eq, sum_eq_three, sum_eq_neg_three, not_exists, not_and]
  constructor
  · exact fun h => ⟨fun l hl => (h l hl).1, fun l hl => (h l hl).2⟩
  · exact fun h l hl => ⟨h.1 l hl, h.2 l hl⟩

/-- Without a line of the opponent the order of the lines does not matter. -/
theorem winnerOn_eq_one {lines : List (Fin 9 × Fin 9 × Fin 9)}
    (h : ∀ line ∈ lines, lineSum board line ≠ -3) :
    winnerOn board lines = 1 ↔ ∃ line ∈ lines, lineSum board line = 3 := by
  induction lines with
  | nil => simp [winnerOn]
  | cons line lines ih =>
      obtain ⟨hl, hls⟩ := List.forall_mem_cons.mp h
      rw [winnerOn_cons, List.exists_mem_cons_iff, ← ih hls, if_neg hl]
      split <;> simp [*]

/-- Where the opponent has no line, `winner` says whether this side has one. -/
theorem winner_eq_one (h : ¬ HasLine board OPP) : winner board = 1 ↔ HasLine board ME := by
  have hopp : ∀ line ∈ winningLines, lineSum board line ≠ -3 := by
    intro line hl hsum
    exact h ⟨line, hl, sum_eq_neg_three.mp hsum⟩
  rw [winner, winnerOn_eq_one hopp]
  simp only [HasLine, lineSum, sum_eq_three]

@[simp] theorem lineSum_flipPerspective (line : Fin 9 × Fin 9 × Fin 9) :
    lineSum (flipPerspective board) line = -lineSum board line := by
  simp [lineSum]
  ring

/-- Of several full lines the first one counts, before and after the flip. -/
theorem winnerOn_flipPerspective (lines : List (Fin 9 × Fin 9 × Fin 9)) :
    winnerOn (flipPerspective board) lines = -winnerOn board lines := by
  induction lines with
  | nil => rfl
  | cons line lines ih =>
      rw [winnerOn_cons, winnerOn_cons, lineSum_flipPerspective, ih]
      -- the two tests of a round change places
      by_cases h3 : lineSum board line = 3
      · simp [h3]
      · by_cases hn3 : lineSum board line = -3
        · simp [hn3]
        · rw [if_neg (by omega), if_neg (by omega), if_neg h3, if_neg hn3]

/-- The winner is negated with the perspective. -/
@[simp] theorem winner_flipPerspective (board : Board) :
    winner (flipPerspective board) = -winner board :=
  winnerOn_flipPerspective winningLines

/-- A move completes no line of the opponent. -/
theorem HasLine.of_place (hi : board i = 0) (h : HasLine (place board i) OPP) :
    HasLine board OPP := by
  obtain ⟨line, hl, h1, h2, h3⟩ := h
  -- what is the opponent's after the move was so before
  have hne : ∀ j, place board i j = OPP → board j = OPP := by
    intro j hj
    by_cases hji : j = i
    · subst hji
      simp at hj
    · rwa [place_of_ne hji] at hj
  exact ⟨line, hl, hne _ h1, hne _ h2, hne _ h3⟩

/-! ### Terminal boards -/

/-- A game goes on when nobody has won and a cell is empty. -/
theorem isTerminal_eq_false : isTerminal board = (false, 0) ↔ winner board = 0 ∧ legalMoves board ≠ [] := by
  unfold isTerminal
  by_cases hw : winner board = 0
  · by_cases hl : legalMoves board = [] <;> simp [hw, hl]
  · simp [hw]

theorem isTerminal_snd_cases (board : Board) :
    (isTerminal board).2 = 0 ∨ (isTerminal board).2 = 1 ∨ (isTerminal board).2 = -1 := by
  simp only [isTerminal]
  split
  · exact winner_cases board
  · split <;> exact Or.inl rfl

/-- The reward is seen from the side to move. -/
theorem isTerminal_flipPerspective (board : Board) :
    isTerminal (flipPerspective board) = ((isTerminal board).1, -(isTerminal board).2) := by
  unfold isTerminal
  by_cases hw : winner board = 0
  · by_cases hl : legalMoves board = [] <;> simp [hw, hl]
  · simp [hw]

/-- A game that is not over has no reward yet. -/
theorem terminal_of_ne_false (h : isTerminal board ≠ (false, 0)) : (isTerminal board).1 = true := by
  revert h
  unfold isTerminal
  by_cases hw : winner board = 0
  · by_cases hl : legalMoves board = [] <;> simp [hw, hl]
  · simp [hw]

/-- After a legal move on a board without a line, the game is over exactly if
the move completes a line, with reward 1, or fills the board, with reward 0. -/
theorem isTerminal_place (hw : winner board = 0) (hi : board i = 0) :
    isTerminal (place board i)
      = if HasLine (place board i) ME then (true, 1)
        else if empties board = 1 then (true, 0) else (false, 0) := by
  have hopp : ¬ HasLine (place board i) OPP := fun h => (winner_eq_zero.mp hw).2 (h.of_place hi)
  have hemp : legalMoves (place board i) = [] ↔ empties board = 1 := by
    rw [← empties_place hi, Nat.add_eq_right, empties, List.length_eq_zero_iff]
  unfold isTerminal
  by_cases hline : HasLine (place board i) ME
  · have h1 := (winner_eq_one hopp).mpr hline
    simp [hline, h1]
  · have h0 : winner (place board i) = 0 := winner_eq_zero.mpr ⟨hline, hopp⟩
    simp only [h0, ne_eq, not_true_eq_false, if_false, hline, hemp]

/-- A game that goes on has an empty cell. -/
theorem empties_ne_zero (hgo : isTerminal board = (false, 0)) : empties board ≠ 0 :=
  fun hzero => (isTerminal_eq_false.mp hgo).2 (List.length_eq_zero_iff.mp hzero)

/-- A game that does not end with the move goes on without a reward. -/
theorem isTerminal_place_go (hgo : isTerminal board = (false, 0)) (hi : board i = 0)
    (hdone : (isTerminal (place board i)).1 = false) : isTerminal (place board i) = (false, 0) := by
  rw [isTerminal_place (isTerminal_eq_false.mp hgo).1 hi] at hdone ⊢
  split at hdone
  · simp at hdone
  · split at hdone
    · simp at hdone
    · simp [*]

/-- Nobody loses by a move of its own. -/
theorem result_place (hgo : isTerminal board = (false, 0)) (hi : board i = 0) :
    (isTerminal (place board i)).2 = 0 ∨ (isTerminal (place board i)).2 = 1 := by
  rw [isTerminal_place (isTerminal_eq_false.mp hgo).1 hi]
  split
  · exact Or.inr rfl
  · split <;> exact Or.inl rfl

/-- Whether the game goes on does not depend on the side. -/
theorem isTerminal_flip_go (h : isTerminal board = (false, 0)) :
    isTerminal (flipPerspective board) = (false, 0) := by
  rw [isTerminal_eq_false] at h ⊢
  simpa using h

/-- The empty board is not the end. -/
theorem isTerminal_initialBoard : isTerminal initialBoard = (false, 0) := by
  decide

end MyTests.RlTtt
