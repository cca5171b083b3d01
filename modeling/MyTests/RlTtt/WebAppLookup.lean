/-
MyTests/RlTtt/WebAppLookup.lean

What the page `web/app.js` shows is what the agent learned.

The board of the page is followed by a board of the game, with X as the side
that sees it (`Tracks`): a click places the piece of the side to move on both,
and the page is over exactly when `is_terminal` says so.  The key that the page
builds is the key that the export wrote for the board as the side to move sees
it; a negative zero prints like a zero.
-/
import MyTests.RlTtt.WebApp

namespace MyTests.RlTtt.WebApp

/-! ### Cells -/

/-- A cell as a number of the page. -/
def ofCell : Cell → JsNumber
  | .zero => EMPTY
  | .pos => X
  | .neg => O

/-- A number of the page as a cell. -/
def JsNumber.cell (a : JsNumber) : Cell := if a.abs = 0 then 0 else if a.neg then -1 else 1

def jsBoard (board : Board) : JsBoard := fun i => ofCell (board i)

/-- The board of the page, as X sees it. -/
def absolute (s : App) : Board := fun i => (s.board i).cell

@[simp] theorem cell_ofCell (c : Cell) : (ofCell c).cell = c := by
  cases c <;> rfl

theorem eq_ofCell (c c' : Cell) : (ofCell c).eq (ofCell c') = decide (c = c') := by
  cases c <;> cases c' <;> rfl

theorem eq_EMPTY (c : Cell) : (ofCell c).eq EMPTY = decide (c = 0) := eq_ofCell c 0

theorem eq_X (c : Cell) : (ofCell c).eq X = decide (c = 1) := eq_ofCell c 1

theorem eq_O (c : Cell) : (ofCell c).eq O = decide (c = -1) := eq_ofCell c .neg

/-- The page prints what the export prints. -/
theorem toText_mul_X (c : Cell) : (X.mul (ofCell c)).toText = cellText c := by
  cases c <;> rfl

theorem toText_mul_O (c : Cell) : (O.mul (ofCell c)).toText = cellText (-c) := by
  cases c <;> rfl

variable {board : Board} {s : App} {i : Fin 9}

theorem length_filter_finRange (p : Fin 9 → Bool) :
    ((List.finRange 9).filter p).length = (Finset.univ.filter fun i => p i = true).card := by
  rw [← List.toFinset_card_of_nodup ((List.nodup_finRange 9).filter _), List.toFinset_filter,
    List.toFinset_finRange]

/-- X is to move when the pieces are equal in number. -/
theorem sideToMovePiece_eq (hs : s.board = jsBoard board) :
    sideToMovePiece s = if balance board = 0 then X else O := by
  have hX : ((List.finRange 9).filter fun i => (s.board i).eq X).length = (cells board ME).card := by
    rw [length_filter_finRange, hs]
    simp only [jsBoard, eq_X, decide_eq_true_eq]
    rfl
  have hO : ((List.finRange 9).filter fun i => (s.board i).eq O).length = (cells board OPP).card := by
    rw [length_filter_finRange, hs]
    simp only [jsBoard, eq_O, decide_eq_true_eq]
    rfl
  unfold sideToMovePiece
  rw [hX, hO]
  unfold balance
  split
  · rename_i heq
    rw [if_pos (by omega)]
  · rename_i hne
    rw [if_neg (by omega)]

theorem findSome?_cons_or {α β : Type} (f : α → Option β) (a : α) (l : List α) :
    (a :: l).findSome? f = (f a).or (l.findSome? f) := by
  rw [List.findSome?_cons]
  cases f a <;> rfl

/-- One line, before the others. -/
theorem winner_line (a b c : Cell) {rest : Option JsNumber} {n : ℤ}
    (h : ∃ w : Cell, rest.getD EMPTY = ofCell w ∧ (w : ℤ) = n) :
    ∃ w : Cell, ((if !(ofCell a).eq EMPTY && (ofCell a).eq (ofCell b) && (ofCell a).eq (ofCell c)
        then some (ofCell a) else none).or rest).getD EMPTY = ofCell w ∧
      (w : ℤ) = if (a + b + c : ℤ) = 3 then 1 else if (a + b + c : ℤ) = -3 then -1 else n := by
  cases a <;> cases b <;> cases c <;> first
    | exact h
    | exact ⟨.pos, rfl, rfl⟩
    | exact ⟨.neg, rfl, rfl⟩

/-- Both sides look for the first full line. -/
theorem checkWinner_jsBoard (board : Board) :
    ∃ w : Cell, checkWinner (jsBoard board) = ofCell w ∧ (w : ℤ) = winner board := by
  unfold checkWinner winner
  induction winningLines with
  | nil => exact ⟨0, rfl, rfl⟩
  | cons line lines ih =>
      rw [winnerOn_cons, findSome?_cons_or]
      exact winner_line (board line.1) (board line.2.1) (board line.2.2) ih

theorem legalMoves_jsBoard (board : Board) : legalMoves (jsBoard board) = RlTtt.legalMoves board := by
  unfold legalMoves RlTtt.legalMoves
  simp only [jsBoard, eq_EMPTY]

/-! ### The end of a game -/

/-- The result that `is_terminal` gives for the board as X sees it. -/
def resultOf (board : Board) : Option Result :=
  if (isTerminal board).1 then
    if (isTerminal board).2 = 1 then some .X
    else if (isTerminal board).2 = -1 then some .O
    else some .draw
  else none

def phaseOf (board : Board) : Phase := if (isTerminal board).1 then .gameover else .playing

/-- `applyMove` ends the game when `is_terminal` does. -/
theorem resolve_eq (s : App) (board : Board) (hphase : s.phase = .playing)
    (hresult : s.result = none) :
    (if !(checkWinner (jsBoard board)).eq EMPTY then
        { s with
          result := some (if (checkWinner (jsBoard board)).eq X then .X else .O)
          phase := .gameover }
      else if isDraw (jsBoard board) then { s with result := some .draw, phase := .gameover }
      else s) = { s with result := resultOf board, phase := phaseOf board } := by
  obtain ⟨w, hw, hwinner⟩ := checkWinner_jsBoard board
  unfold resultOf phaseOf isTerminal isDraw
  rw [hw, legalMoves_jsBoard, ← hwinner]
  simp only [eq_EMPTY, eq_X]
  rcases cell_cases w with rfl | rfl | rfl
  · by_cases hfull : RlTtt.legalMoves board = []
    · simp [hfull]
    · simp [hfull, ← hphase, ← hresult]
  · simp
  · simp

/-! ### The board of the page -/

/-- The page at a board of the game. -/
structure Tracks (s : App) (board : Board) : Prop where
  cells : s.board = jsBoard board
  moveCount : s.moveCount = (Finset.univ.filter fun i => board i ≠ 0).card
  turn : balance board = 0 ∨ balance board = 1
  phase : s.phase = phaseOf board
  result : s.result = resultOf board

theorem Tracks.init : Tracks startNewGame initialBoard where
  cells := rfl
  moveCount := rfl
  turn := Or.inl balance_initialBoard
  phase := by rw [phaseOf, isTerminal_initialBoard]; rfl
  result := by rw [resultOf, isTerminal_initialBoard]; rfl

/-- The board after a move at `i`. -/
def moved (board : Board) (i : Fin 9) : Board :=
  Function.update board i (if balance board = 0 then ME else OPP)

theorem balance_moved (hturn : balance board = 0 ∨ balance board = 1) (hi : board i = 0) :
    balance (moved board i) = 0 ∨ balance (moved board i) = 1 := by
  unfold moved
  rcases hturn with hzero | hone
  · rw [if_pos hzero]
    have hplace : balance (Function.update board i ME) = balance board + 1 := balance_place hi
    omega
  · -- O places its piece as its own on the board it sees
    have hflip : Function.update board i OPP = flipPerspective (place (flipPerspective board) i) := by
      funext j
      by_cases hj : j = i
      · subst hj
        simp
      · simp [place_of_ne hj, hj]
    have hempty : flipPerspective board i = 0 := by
      rw [flipPerspective_apply, hi]
      rfl
    rw [if_neg (by omega), hflip, balance_flipPerspective, balance_place hempty,
      balance_flipPerspective]
    omega

theorem pieces_moved (hi : board i = 0) :
    (Finset.univ.filter fun j => moved board i j ≠ 0).card
      = (Finset.univ.filter fun j => board j ≠ 0).card + 1 := by
  have hpiece : (if balance board = 0 then ME else OPP) ≠ 0 := by
    split <;> decide
  have hset : (Finset.univ.filter fun j => moved board i j ≠ 0)
      = insert i (Finset.univ.filter fun j => board j ≠ 0) := by
    ext j
    rw [Finset.mem_insert, Finset.mem_filter, Finset.mem_filter, moved]
    by_cases hj : j = i
    · subst hj
      rw [Function.update_self]
      exact iff_of_true ⟨Finset.mem_univ _, hpiece⟩ (Or.inl rfl)
    · rw [Function.update_of_ne hj]
      exact (or_iff_right hj).symm
  have hnew : i ∉ Finset.univ.filter fun j => board j ≠ 0 :=
    fun hmem => (Finset.mem_filter.mp hmem).2 hi
  rw [hset, Finset.card_insert_of_notMem hnew]

/-- The piece of the side to move goes where the game has it. -/
theorem update_board (h : Tracks s board) (i : Fin 9) :
    Function.update s.board i (sideToMovePiece s) = jsBoard (moved board i) := by
  rw [sideToMovePiece_eq h.cells, h.cells]
  funext j
  by_cases hj : j = i
  · subst hj
    simp only [Function.update_self, jsBoard, moved]
    split <;> rfl
  · simp only [Function.update_of_ne hj, jsBoard, moved]

/-- A move on the page, with the end of the game as `is_terminal` has it. -/
theorem applyMove_eq (h : Tracks s board) (hgo : (isTerminal board).1 = false) (i : Fin 9) :
    ∃ lastMove, applyMove s i = ⟨jsBoard (moved board i), phaseOf (moved board i),
      resultOf (moved board i), lastMove, s.moveCount + 1⟩ := by
  have hphase : s.phase = .playing := by rw [h.phase, phaseOf, hgo]; rfl
  have hresult : s.result = none := by rw [h.result, resultOf, hgo]; rfl
  refine ⟨some ⟨i, if (sideToMovePiece s).eq X then .X else .O⟩, ?_⟩
  unfold applyMove
  dsimp only
  rw [update_board h]
  exact resolve_eq ⟨jsBoard (moved board i), s.phase, s.result, _, s.moveCount + 1⟩
    (moved board i) hphase hresult

theorem Tracks.applyMove (h : Tracks s board) (hi : board i = 0)
    (hgo : (isTerminal board).1 = false) : Tracks (applyMove s i) (moved board i) := by
  obtain ⟨lastMove, heq⟩ := applyMove_eq h hgo i
  rw [heq]
  exact ⟨rfl, by rw [h.moveCount, pieces_moved hi], balance_moved h.turn hi, rfl, rfl⟩

/-- A click moves on an empty cell of a game that goes on, and does nothing
otherwise. -/
theorem onCellClick_cases (h : Tracks s board) (i : Fin 9) :
    onCellClick s i = s ∨
      board i = 0 ∧ (isTerminal board).1 = false ∧ onCellClick s i = applyMove s i := by
  unfold onCellClick
  split
  · exact Or.inl rfl
  · rename_i hphase
    split
    · exact Or.inl rfl
    · rename_i hcell
      refine Or.inr ⟨?_, ?_, rfl⟩
      · rw [h.cells, jsBoard, eq_EMPTY] at hcell
        simpa using hcell
      · rw [not_not, h.phase, phaseOf] at hphase
        split at hphase
        · cases hphase
        · rename_i hgo
          exact Bool.eq_false_iff.mpr hgo

theorem onCellClick_board (h : Tracks s board) (hphase : s.phase = .playing) (hi : board i = 0) :
    (onCellClick s i).board = Function.update s.board i (sideToMovePiece s) := by
  have hgo : (isTerminal board).1 = false := by
    rw [h.phase, phaseOf] at hphase
    split at hphase
    · cases hphase
    · exact Bool.eq_false_iff.mpr ‹_›
  have hempty : (s.board i).eq EMPTY = true := by
    rw [h.cells, jsBoard, eq_EMPTY, hi]
    rfl
  obtain ⟨lastMove, heq⟩ := applyMove_eq h hgo i
  rw [onCellClick, if_neg (by simp [hphase]), if_neg (by simp [hempty]), heq, update_board h]

/-- **The page follows the game** through every sequence of inputs. -/
theorem tracks_session (inputs : List Input) : ∃ board, Tracks (session inputs) board := by
  induction inputs using List.reverseRecOn with
  | nil => exact ⟨initialBoard, Tracks.init⟩
  | append_singleton inputs input ih =>
      obtain ⟨board, h⟩ := ih
      have hstep : session (inputs ++ [input]) = handle (session inputs) input := by
        unfold session
        rw [List.foldl_append]
        rfl
      rw [hstep]
      cases input with
      | newGame => exact ⟨initialBoard, Tracks.init⟩
      | click i =>
          rcases onCellClick_cases h i with hsame | ⟨hi, hgo, hmove⟩
          · exact ⟨board, by rw [handle, hsame]; exact h⟩
          · exact ⟨moved board i, by rw [handle, hmove]; exact h.applyMove hi hgo⟩

/-! ### Lookup -/

/-- The board as the side to move sees it. -/
def seenByMover (board : Board) : Board :=
  if (cells board ME).card = (cells board OPP).card then board else flipPerspective board

/-- The page builds the key of the export. -/
theorem key_eq (h : s.board = jsBoard board) :
    String.intercalate (String.singleton ',')
        (List.ofFn fun i => (canonicalForCurrentPlayer s s.board i).toText)
      = exportKey (seenByMover board) := by
  unfold exportKey canonicalForCurrentPlayer seenByMover
  rw [sideToMovePiece_eq h, h]
  by_cases hturn : (cells board ME).card = (cells board OPP).card
  · have hbalance : balance board = 0 := by
      unfold balance
      omega
    simp only [if_pos hbalance, if_pos hturn, jsBoard, toText_mul_X]
  · have hbalance : balance board ≠ 0 := by
      unfold balance
      omega
    simp only [if_neg hbalance, if_neg hturn, jsBoard, toText_mul_O, flipPerspective_apply]

theorem getCurrentQValues_eq (agent : QLearningAgent) (h : s.board = jsBoard board) :
    getCurrentQValues (qtableToJsDict agent).states s s.board
      = (agent.qTable.lookup (seenByMover board)).elim (List.replicate 9 (some 0)) exportRow := by
  unfold getCurrentQValues
  dsimp only
  rw [key_eq h, lookup_qtableToJsDict]
  cases agent.qTable.lookup (seenByMover board) <;> rfl

/-! ### The main result -/

/-- What the page keeps and shows is right: the board is made of the three
pieces, the number of moves and the turns are those of the board, the game is
over when `is_terminal` says so, with its result, and then no click changes it,
while before that a click on an empty cell places the piece of the side to move;
and the value shown for an empty cell is the one of the agent's table for the
board as the side to move sees it, 0 if that board is not in the table. -/
structure Faithful (agent : QLearningAgent) (s : App) : Prop where
  pieces : ∀ i, s.board i = X ∨ s.board i = O ∨ s.board i = EMPTY
  moveCount : s.moveCount = (Finset.univ.filter fun i => absolute s i ≠ 0).card
  turn : (cells (absolute s) ME).card = (cells (absolute s) OPP).card ∨
    (cells (absolute s) ME).card = (cells (absolute s) OPP).card + 1
  gameover : s.phase = .gameover ↔ (isTerminal (absolute s)).1 = true
  result : s.result = resultOf (absolute s)
  final : s.phase = .gameover → ∀ i, onCellClick s i = s
  placed : s.phase = .playing → ∀ i, absolute s i = 0 →
    (onCellClick s i).board = Function.update s.board i
      (if (cells (absolute s) ME).card = (cells (absolute s) OPP).card then X else O)
  values : ∀ i, absolute s i = 0 → ∃ v,
    (getCurrentQValues (qtableToJsDict agent).states s s.board)[(i : ℕ)]? = some (some v) ∧
      (agent.qTable.lookup (seenByMover (absolute s))).elim (some 0) (fun q => q i) = some v

theorem absolute_eq (h : Tracks s board) : absolute s = board := by
  funext i
  rw [absolute, h.cells, jsBoard, cell_ofCell]

theorem getElem?_exportRow (q : Row) (i : Fin 9) : (exportRow q)[(i : ℕ)]? = some (q i) := by
  rw [exportRow, List.getElem?_ofFn, dif_pos i.isLt]

theorem seenByMover_eq_zero (hi : board i = 0) : seenByMover board i = 0 := by
  unfold seenByMover
  split
  · exact hi
  · rw [flipPerspective_apply, hi]
    rfl

theorem Tracks.faithful (h : Tracks s board) (agent : QLearningAgent)
    (hmask : ∀ b q, agent.qTable.lookup b = some q → ∀ i, q i = none ↔ b i ≠ 0) :
    Faithful agent s := by
  have habs := absolute_eq h
  refine ⟨fun i => ?_, ?_, ?_, ?_, ?_, fun hover i => ?_, fun hplay i hi => ?_, fun i hi => ?_⟩
  · rw [h.cells, jsBoard]
    rcases cell_cases (board i) with hc | hc | hc <;> rw [hc]
    · exact Or.inr (Or.inr rfl)
    · exact Or.inl rfl
    · exact Or.inr (Or.inl rfl)
  · rw [habs]
    exact h.moveCount
  · rw [habs]
    have hturn := h.turn
    unfold balance at hturn
    omega
  · rw [habs, h.phase, phaseOf]
    split
    · rename_i hdone
      exact iff_of_true rfl hdone
    · rename_i hdone
      exact iff_of_false nofun hdone
  · rw [habs]
    exact h.result
  · -- a click on a finished game does nothing
    unfold onCellClick
    rw [if_pos (by rw [hover]; exact nofun)]
  -- on an unfinished game X places when both have as many pieces, O otherwise
  · rw [habs] at hi ⊢
    rw [onCellClick_board h hplay hi, sideToMovePiece_eq h.cells]
    have hbalance : balance board = 0
        ↔ (RlTtt.cells board ME).card = (RlTtt.cells board OPP).card := by
      unfold balance
      omega
    simp only [hbalance]
  · -- the page shows the row of the board as the player to move sees it
    rw [habs] at hi ⊢
    rw [getCurrentQValues_eq agent h.cells]
    cases hrow : agent.qTable.lookup (seenByMover board) with
    | none =>
        refine ⟨0, ?_, rfl⟩
        show (List.replicate 9 (some (0 : ℚ)))[(i : ℕ)]? = some (some 0)
        rw [List.getElem?_replicate, if_pos i.isLt]
    | some q =>
        have hnum : q i ≠ none := fun hnone =>
          (hmask _ q hrow i).mp hnone (seenByMover_eq_zero hi)
        obtain ⟨v, hv⟩ := Option.ne_none_iff_exists'.mp hnum
        exact ⟨v, (getElem?_exportRow q i).trans (congrArg some hv), hv⟩

/-- **Export and lookup agree with the table.**  For every agent whose rows are
NaN exactly on the occupied cells: the export, read back, is the table, and
counts its keys; and after every sequence of clicks and new games the page is
right. -/
theorem export_agrees (agent : QLearningAgent)
    (hmask : ∀ b q, agent.qTable.lookup b = some q → ∀ i, q i = none ↔ b i ≠ 0) :
    ((qtableToJsDict agent).states.entries.map importEntry).Perm (agent.qTable.entries.map some) ∧
      (qtableToJsDict agent).numStates = (qtableToJsDict agent).states.keys.length ∧
      ∀ inputs, Faithful agent (session inputs) := by
  refine ⟨importEntry_qtableToJsDict agent, ?_, fun inputs => ?_⟩
  · have hlength := congrArg List.length (entries_qtableToJsDict agent)
    rw [List.length_reverse, List.length_map] at hlength
    show agent.qTable.keys.length = _
    rw [AList.keys, AList.keys, List.keys, List.keys, List.length_map, List.length_map, hlength]
  · obtain ⟨board, h⟩ := tracks_session inputs
    exact h.faithful agent hmask

/-- A table with one board, after a game of X that O has answered. -/
theorem export_agrees_oneBoard : Faithful
    ⟨1 / 10, 1, 1 / 10, 0, AList.singleton initialBoard (freshRow initialBoard)⟩
    (session [.click 4, .newGame, .click 8, .click 8, .click 0]) := by
  refine (export_agrees _ fun b q hq i => ?_).2.2 _
  by_cases hb : b = initialBoard
  · subst hb
    rw [← AList.insert_empty, AList.lookup_insert] at hq
    obtain rfl := Option.some.inj hq
    simp [freshRow, initialBoard]
  · rw [← AList.insert_empty, AList.lookup_insert_ne hb] at hq
    cases hq

end MyTests.RlTtt.WebApp
