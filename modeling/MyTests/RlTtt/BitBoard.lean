/-
MyTests/RlTtt/BitBoard.lean

The value of the empty board.

A board in two numbers is quick to compute with.  The game on such boards is
tic-tac-toe (`outcome_board`, `mem_moves`, `board_child`), so bounds checked on
them are bounds on what `_negamax` returns.
-/
import MyTests.RlTtt.Minimax

namespace MyTests.RlTtt

open Lib

/-! ### Boards in two numbers -/

/-- A board in two numbers: which cells are occupied, and which of these belong
to the side to move. -/
structure BitBoard where
  occupied : ℕ
  mine : ℕ

namespace BitBoard

/-- A piece of the side to move. -/
def isMine (t : BitBoard) (i : Fin 9) : Bool := t.occupied.testBit i && t.mine.testBit i

/-- A piece of the other side. -/
def isTheirs (t : BitBoard) (i : Fin 9) : Bool := t.occupied.testBit i && !t.mine.testBit i

/-- The board that the two numbers stand for. -/
def board (t : BitBoard) : Board := fun i => if t.isMine i then 1 else if t.isTheirs i then -1 else 0

/-- The pieces of the side to move, as a set of bits. -/
def ours (t : BitBoard) : ℕ := t.occupied &&& t.mine

/-- The pieces of the other side. -/
def theirs (t : BitBoard) : ℕ := t.occupied ^^^ t.ours

/-- The lines of `winningLines`, as sets of bits. -/
def lineMasks : List ℕ := [7, 56, 448, 73, 146, 292, 273, 84]

/-- All bits of the mask are in `n`. -/
def fills (n mask : ℕ) : Bool := Nat.beq (n &&& mask) mask

/-- Who fills the line. -/
def lineOwner (t : BitBoard) (mask : ℕ) : Option ℤ :=
  if fills t.ours mask then some 1 else if fills t.theirs mask then some (-1) else none

/-- The center and the corners first, which shortens the search. -/
def searchOrder : List (Fin 9) := [4, 0, 2, 6, 8, 1, 3, 5, 7]

/-- The empty cells, in the order of the search. -/
def moves (t : BitBoard) : List (Fin 9) := searchOrder.filter fun i => !t.occupied.testBit i

/-- The board for the other side after a move at `i`. -/
def child (t : BitBoard) (i : Fin 9) : BitBoard := ⟨t.occupied ||| 1 <<< (i : ℕ), t.theirs⟩

/-- Tic-tac-toe on bits, as a game of the search. -/
def game : Lib.Game BitBoard (Fin 9) ℤ where
  outcome t :=
    match lineMasks.findSome? t.lineOwner with
    | some w => some w
    | none => if t.moves.isEmpty then some 0 else none
  moves := moves
  next := child

/-- A number is computed by matching on it. -/
def callNat (f : ℕ → Bool) : ℕ → Bool
  | 0 => f 0
  | n + 1 => f (n + 1)

/-- A board is computed before the function is called on it, so the kernel computes it once. -/
def call (f : BitBoard → Bool) (t : BitBoard) : Bool :=
  callNat (fun occupied => callNat (fun mine => f ⟨occupied, mine⟩ && true) t.mine) t.occupied

/-! ### The same game -/

variable {t : BitBoard} {i j : Fin 9}

/-- The set of one cell. -/
theorem testBit_one_shiftLeft : (1 <<< (i : ℕ)).testBit j = decide (j = i) := by
  rw [Nat.one_shiftLeft, Nat.testBit_two_pow]
  simp [Fin.ext_iff, eq_comm]

theorem testBit_ours : t.ours.testBit i = t.isMine i := Nat.testBit_and _ _ _

theorem testBit_theirs : t.theirs.testBit i = t.isTheirs i := by
  rw [theirs, Nat.testBit_xor, testBit_ours, isMine, isTheirs]
  cases t.occupied.testBit i <;> cases t.mine.testBit i <;> rfl

/-- A cell is empty when its bit is not set. -/
theorem board_eq_zero : t.board i = 0 ↔ t.occupied.testBit i = false := by
  unfold board isMine isTheirs
  cases t.occupied.testBit i <;> cases t.mine.testBit i <;> simp

/-- The moves are the legal ones, in another order. -/
theorem mem_moves : i ∈ t.moves ↔ i ∈ legalMoves t.board := by
  have horder : ∀ i, i ∈ searchOrder := by decide
  simp [moves, horder, board_eq_zero]

/-- A move on bits is the move and the flip. -/
theorem board_child (hi : i ∈ t.moves) : (t.child i).board = RlTtt.child t.board i := by
  have hocc : t.occupied.testBit i = false := by
    rw [← board_eq_zero, ← mem_legalMoves, ← mem_moves]
    exact hi
  have hbit : ∀ j : Fin 9, (t.child i).occupied.testBit j
      = (t.occupied.testBit j || decide (j = i)) := by
    intro j
    rw [child, Nat.testBit_or, testBit_one_shiftLeft]
  have hmine : ∀ j : Fin 9, (t.child i).mine.testBit j = t.isTheirs j := fun _ => testBit_theirs
  -- the cell of the move gets a piece, the others change sides
  funext j
  show (if (t.child i).isMine j then (1 : Cell) else if (t.child i).isTheirs j then -1 else 0) = _
  rw [RlTtt.child, flipPerspective_apply, isMine, isTheirs, hbit, hmine]
  by_cases hij : j = i
  · subst hij
    simp [isTheirs, hocc]
  · rw [place_of_ne hij, board, isMine, isTheirs, decide_eq_false hij]
    rcases Bool.eq_false_or_eq_true (t.occupied.testBit j) with ho | ho <;>
      rcases Bool.eq_false_or_eq_true (t.mine.testBit j) with hm | hm <;> simp [ho, hm]

/-! #### Lines -/

/-- The set of the cells of a line. -/
def lineMask (line : Fin 9 × Fin 9 × Fin 9) : ℕ :=
  1 <<< (line.1 : ℕ) ||| 1 <<< (line.2.1 : ℕ) ||| 1 <<< (line.2.2 : ℕ)

theorem lineMasks_eq : lineMasks = winningLines.map lineMask := by decide

/-- A set has all of a line when it has its three cells. -/
theorem fills_lineMask (n : ℕ) (line : Fin 9 × Fin 9 × Fin 9) :
    fills n (lineMask line) = true
      ↔ n.testBit line.1 = true ∧ n.testBit line.2.1 = true ∧ n.testBit line.2.2 = true := by
  have hmask : ∀ k, (lineMask line).testBit k
      = (decide (line.1 = k) || decide (line.2.1 = k) || decide (line.2.2 = k)) := by
    intro k
    simp only [lineMask, Nat.testBit_or, Nat.one_shiftLeft, Nat.testBit_two_pow]
  unfold fills
  rw [Nat.beq_eq]
  constructor
  · intro h
    have hbit : ∀ k, (lineMask line).testBit k = true → n.testBit k = true := by
      intro k hk
      rw [← h, Nat.testBit_and, Bool.and_eq_true] at hk
      exact hk.1
    exact ⟨hbit _ (by simp [hmask]), hbit _ (by simp [hmask]), hbit _ (by simp [hmask])⟩
  · rintro ⟨h1, h2, h3⟩
    refine Nat.eq_of_testBit_eq fun k => ?_
    rw [Nat.testBit_and]
    by_cases hk : (lineMask line).testBit k = true
    · have hn : n.testBit k = true := by
        rw [hmask] at hk
        simp only [Bool.or_eq_true, decide_eq_true_eq] at hk
        rcases hk with (rfl | rfl) | rfl <;> assumption
      rw [hn, Bool.true_and]
    · rw [Bool.eq_false_iff.mpr hk, Bool.and_false]

/-- The owner of a line is what the sum over it tells. -/
theorem lineOwner_lineMask (line : Fin 9 × Fin 9 × Fin 9) :
    t.lineOwner (lineMask line) = if lineSum t.board line = 3 then some 1
      else if lineSum t.board line = -3 then some (-1) else none := by
  have hmine : ∀ i, t.board i = 1 ↔ t.isMine i = true := by
    intro i
    unfold board isMine isTheirs
    cases t.occupied.testBit i <;> cases t.mine.testBit i <;> simp
  have htheirs : ∀ i, t.board i = -1 ↔ t.isTheirs i = true := by
    intro i
    unfold board isMine isTheirs
    cases t.occupied.testBit i <;> cases t.mine.testBit i <;> simp
  unfold lineOwner lineSum
  simp only [fills_lineMask, testBit_ours, testBit_theirs, sum_eq_three, sum_eq_neg_three, hmine,
    htheirs]

/-- The first line with an owner is the one at which the loop ends. -/
theorem winnerOn_board (lines : List (Fin 9 × Fin 9 × Fin 9)) :
    (lines.map lineMask).findSome? t.lineOwner
      = if winnerOn t.board lines = 0 then none else some (winnerOn t.board lines) := by
  induction lines with
  | nil => rfl
  | cons line lines ih =>
      rw [List.map_cons, List.findSome?_cons, winnerOn_cons, lineOwner_lineMask, ih]
      by_cases h3 : lineSum t.board line = 3
      · simp [h3]
      · by_cases hn3 : lineSum t.board line = -3
        · simp [hn3]
        · simp [h3, hn3]

/-- The game on bits is tic-tac-toe. -/
theorem outcome_board : game.outcome t = ticTacToe.outcome t.board := by
  have hmoves : t.moves.isEmpty = true ↔ legalMoves t.board = [] := by
    rw [List.isEmpty_iff, List.eq_nil_iff_forall_not_mem, List.eq_nil_iff_forall_not_mem]
    simp only [mem_moves]
  unfold game ticTacToe isTerminal winner
  dsimp only
  rw [lineMasks_eq, winnerOn_board]
  -- a line decides first, then whether a cell is empty
  by_cases hw : winnerOn t.board winningLines = 0
  · by_cases hl : legalMoves t.board = []
    · simp [hw, hl, hmoves.mpr hl]
    · simp [hw, hl, Bool.eq_false_iff.mpr fun h => hl (hmoves.mp h)]
  · simp [hw]

/-! ### The bounds -/

/-- What `_negamax` returns is the value of the game on bits, too. -/
theorem isValue : IsValue game ((fun b => (negamax b).1) ∘ board) :=
  negamax_isValue.comap board (fun _ => outcome_board) (fun _ _ => mem_moves)
    fun _ _ _ hm => board_child hm

/-- Computing the argument first changes nothing. -/
theorem call_eq (f : BitBoard → Bool) (t : BitBoard) : call f t = f t := by
  have hnat : ∀ (f : ℕ → Bool) n, callNat f n = f n := by
    intro f n
    cases n <;> rfl
  rw [call, hnat, hnat, Bool.and_true]

/-- Nine plies suffice to see that neither side can force a win. -/
theorem bound_empty :
    game.bound call 10 true 0 ⟨0, 0⟩ = true ∧ game.bound call 10 false 0 ⟨0, 0⟩ = true := by
  decide +kernel

end BitBoard

/-- The value of the empty board is 0: with best play nobody wins. -/
theorem negamax_initialBoard : (negamax initialBoard).1 = 0 := by
  have hboard : BitBoard.board ⟨0, 0⟩ = initialBoard := by
    funext i
    simp [BitBoard.board, BitBoard.isMine, BitBoard.isTheirs, initialBoard]
  have hlower := BitBoard.isValue.bound BitBoard.call_eq BitBoard.bound_empty.1
  have hupper := BitBoard.isValue.bound BitBoard.call_eq BitBoard.bound_empty.2
  rw [Function.comp_apply, hboard] at hlower hupper
  exact le_antisymm hupper hlower

end MyTests.RlTtt
