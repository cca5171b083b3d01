/-
MyTests/RlTtt/QlDemoAgrees.lean

The learner of the demo page against the agent.

Both make the same updates (`gameUpdates`), on boards that `boardKey` tells
apart, and both are learners in the sense of `Lib/Bootstrap.lean`.  They differ
in the estimate of the next board: the agent takes the largest value of an empty
cell, the page the largest value of any cell, and an occupied cell has the value
0 there.  So the page never estimates less, and the two end with the same values
exactly if no board was bootstrapped on while all its empty cells had negative
values.
-/
import MyTests.RlTtt.FeedGames
import MyTests.RlTtt.QlDemo

namespace MyTests.RlTtt.QlDemo

open Lib

variable {b : MarkBoard} {t : JsTable} {key : String}

/-! ### Boards -/

/-- The cell as X sees it. -/
def Mark.cell : Mark → Cell
  | .blank => EMPTY
  | .X => ME
  | .O => OPP

def Mark.ofCell : Cell → Mark
  | .zero => .blank
  | .pos => .X
  | .neg => .O

/-- The board as X sees it. -/
def seenByX (b : MarkBoard) : Board := fun i => (b i).cell

def marks (board : Board) : MarkBoard := fun i => .ofCell (board i)

@[simp] theorem Mark.ofCell_cell (m : Mark) : Mark.ofCell m.cell = m := by
  cases m <;> rfl

@[simp] theorem Mark.cell_ofCell (c : Cell) : (Mark.ofCell c).cell = c := by
  cases c <;> rfl

@[simp] theorem marks_seenByX (b : MarkBoard) : marks (seenByX b) = b :=
  funext fun i => Mark.ofCell_cell (b i)

@[simp] theorem seenByX_marks (board : Board) : seenByX (marks board) = board :=
  funext fun i => Mark.cell_ofCell (board i)

theorem Mark.cell_eq_empty {m : Mark} : m.cell = EMPTY ↔ m = .blank := by
  cases m <;> decide

theorem boardKey_injective : Function.Injective boardKey := by
  intro b b' h
  funext i
  have hchar := congrFun (List.ofFn_injective (String.ofList_injective h)) i
  revert hchar
  cases b i <;> cases b' i <;> decide

theorem seenByX_applyMove_X (cell : Fin 9) :
    seenByX (applyMove b cell .X) = place (seenByX b) cell := by
  funext i
  by_cases hi : i = cell
  · subst hi
    simp [seenByX, applyMove, Mark.cell]
  · simp [seenByX, applyMove, place_of_ne hi, hi]

/-- O moves from the other side. -/
theorem seenByX_applyMove_O (cell : Fin 9) :
    flipPerspective (seenByX (applyMove b cell .O)) = place (flipPerspective (seenByX b)) cell := by
  funext i
  by_cases hi : i = cell
  · subst hi
    simp [seenByX, applyMove, Mark.cell]
  · simp [seenByX, applyMove, place_of_ne hi, hi]

/-! ### The end of a game -/

/-- The winner as a number, for X. -/
def sign : Option Mark → ℤ
  | some .X => 1
  | some .O => -1
  | _ => 0

theorem checkWinner_ne_blank : checkWinner b ≠ some .blank := by
  intro h
  obtain ⟨line, -, hline⟩ := List.exists_of_findSome?_eq_some h
  dsimp only at hline
  split at hline
  · rename_i hne
    exact hne.1 (Option.some.inj hline)
  · cases hline

/-- Both sides look for the first full line. -/
theorem winnerOn_seenByX (lines : List (Fin 9 × Fin 9 × Fin 9)) :
    winnerOn (seenByX b) lines = sign (lines.findSome? fun line =>
      if b line.1 ≠ .blank ∧ b line.1 = b line.2.1 ∧ b line.2.1 = b line.2.2 then some (b line.1)
      else none) := by
  induction lines with
  | nil => rfl
  | cons line lines ih =>
      rw [winnerOn_cons, ih, List.findSome?_cons]
      unfold lineSum seenByX
      cases h₁ : b line.1 <;> cases h₂ : b line.2.1 <;> cases h₃ : b line.2.2 <;>
        simp [Mark.cell, sign]

theorem winner_seenByX : winner (seenByX b) = sign (checkWinner b) := winnerOn_seenByX winningLines

theorem isBoardFull_iff : isBoardFull b = true ↔ legalMoves (seenByX b) = [] := by
  rw [isBoardFull, decide_eq_true_iff, List.eq_nil_iff_forall_not_mem]
  exact forall_congr' fun i => by rw [mem_legalMoves, seenByX, Mark.cell_eq_empty]

theorem sign_eq_zero : sign (checkWinner b) = 0 ↔ checkWinner b = none := by
  have hne := checkWinner_ne_blank (b := b)
  rcases h : checkWinner b with - | m
  · simp [sign]
  · rw [h] at hne
    cases m <;> simp [sign] at hne ⊢

theorem isTerminal_seenByX : isTerminal (seenByX b)
    = ((checkWinner b).isSome || ((checkWinner b).isNone && isBoardFull b), sign (checkWinner b)) := by
  unfold isTerminal
  rw [winner_seenByX]
  by_cases hw : checkWinner b = none
  · rw [hw]
    cases hfull : isBoardFull b with
    | true => simp [sign, isBoardFull_iff.mp hfull]
    | false =>
        have hmoves : legalMoves (seenByX b) ≠ [] := fun h => by
          rw [isBoardFull_iff.mpr h] at hfull
          cases hfull
        simp [sign, hmoves]
  · have hsome : (checkWinner b).isSome = true := Option.isSome_iff_ne_none.mpr hw
    simp [mt sign_eq_zero.mp hw, hsome]

/-! ### The table -/

/-- The row of a key; the lazy zero row if there is none. -/
def rowOf (t : JsTable) (key : String) : JsRow := (t.lookup key).getD fun _ => 0

theorem getQValues_fst : (getQValues t key).1 = rowOf t key := by
  unfold getQValues rowOf
  cases t.lookup key <;> rfl

theorem rowOf_insert (row : JsRow) (key' : String) :
    rowOf (t.insert key row) key' = if key' = key then row else rowOf t key' := by
  unfold rowOf
  split
  · rename_i h
    rw [h, AList.lookup_insert]
    rfl
  · rename_i h
    rw [AList.lookup_insert_ne h]

/-- Reading a row changes no row. -/
theorem rowOf_getQValues (key' : String) : rowOf (getQValues t key).2 key' = rowOf t key' := by
  unfold getQValues
  cases hkey : t.lookup key with
  | some row => rfl
  | none =>
      show rowOf (t.insert key fun _ => 0) key' = rowOf t key'
      rw [rowOf_insert]
      split
      · rename_i h
        rw [h, rowOf, hkey]
        rfl
      · rfl

/-- The value of a cell of a board. -/
def cellValue (t : JsTable) (b : MarkBoard) (i : Fin 9) : ℚ := rowOf t (boardKey b) i

/-- The values by boards as X sees them. -/
def JsTable.value (t : JsTable) (board : Board) : Fin 9 → ℚ := cellValue t (marks board)

theorem value_congr {t' : JsTable} (h : ∀ key, rowOf t' key = rowOf t key) :
    JsTable.value t' = JsTable.value t := by
  funext board i
  exact congrFun (h _) i

/-! ### The page is a learner -/

/-- The largest value of a cell. -/
def bestCell (V : Board → Fin 9 → ℚ) (board : Board) : ℚ := (bestOf (V board)).unbotD 0

theorem better_spec (row : JsRow) (best : WithBot ℚ) (i : Fin 9) :
    best ≤ better row best i ∧ row i ≤ better row best i ∧
      (better row best i = best ∨ better row best i = row i) := by
  unfold better
  split
  · rename_i hlt
    exact ⟨hlt.le, le_rfl, Or.inr rfl⟩
  · rename_i hlt
    exact ⟨le_rfl, not_lt.mp hlt, Or.inl rfl⟩

/-- The loop of `maxQ` over the cells `l`. -/
theorem foldl_better (row : JsRow) (l : List (Fin 9)) (best : WithBot ℚ) :
    best ≤ l.foldl (better row) best ∧ (∀ i ∈ l, (row i : WithBot ℚ) ≤ l.foldl (better row) best) ∧
      (l.foldl (better row) best = best ∨ ∃ i ∈ l, l.foldl (better row) best = row i) := by
  induction l generalizing best with
  | nil => exact ⟨le_rfl, nofun, Or.inl rfl⟩
  | cons i l ih =>
      obtain ⟨hold, hrow, hone⟩ := better_spec row best i
      obtain ⟨hbest, hall, hmem⟩ := ih (better row best i)
      refine ⟨hold.trans hbest, ?_, ?_⟩
      · intro j hj
        rcases List.mem_cons.mp hj with rfl | hj
        · exact hrow.trans hbest
        · exact hall j hj
      · rcases hmem with hm | ⟨j, hj, hm⟩
        · exact hone.imp hm.trans fun h => ⟨i, List.mem_cons_self, hm.trans h⟩
        · exact Or.inr ⟨j, List.mem_cons_of_mem _ hj, hm⟩

theorem bestCell_spec (V : Board → Fin 9 → ℚ) (board : Board) :
    (∃ i, bestCell V board = V board i) ∧ ∀ i, V board i ≤ bestCell V board := by
  obtain ⟨-, hall, hmem⟩ := foldl_better (V board) (List.finRange 9) ⊥
  have hle : ∀ i, (V board i : WithBot ℚ) ≤ bestOf (V board) := fun i => hall i (List.mem_finRange i)
  -- nine cells are never none, so the maximum is one of them
  have hattained : ∃ i, bestOf (V board) = V board i := by
    rcases hmem with hbot | ⟨i, -, hi⟩
    · have hzero := hle 0
      rw [show bestOf (V board) = ⊥ from hbot, le_bot_iff] at hzero
      exact absurd hzero (WithBot.coe_ne_bot)
    · exact ⟨i, hi⟩
  obtain ⟨i, hi⟩ := hattained
  have hbest : bestCell V board = V board i := by
    rw [bestCell, hi]
    rfl
  refine ⟨⟨i, hbest⟩, fun j => ?_⟩
  rw [hbest]
  have hj := hle j
  rw [hi] at hj
  exact WithBot.coe_le_coe.mp hj

theorem maxQ_fst : (maxQ t key).1 = (bestOf (rowOf t key)).unbotD 0 := by
  show (bestOf (getQValues t key).1).unbotD 0 = _
  rw [getQValues_fst]

theorem rowOf_maxQ (key' : String) : rowOf (maxQ t key).2 key' = rowOf t key' :=
  rowOf_getQValues key'

/-- The rows after an update. -/
theorem rowOf_qUpdate (sKey : String) (a : Fin 9) (r : ℚ) (sNextKey : Option String)
    (key' : String) :
    rowOf (qUpdate t sKey a r sNextKey).2 key' = if key' = sKey then
      Function.update (rowOf t sKey) a (rowOf t sKey a + ALPHA *
        ((match sNextKey with
          | none => r
          | some key => r + GAMMA * (bestOf (rowOf t key)).unbotD 0) - rowOf t sKey a))
      else rowOf t key' := by
  cases sNextKey with
  | none =>
      have hform : (qUpdate t sKey a r none).2 = AList.insert sKey
          (Function.update (getQValues t sKey).1 a ((getQValues t sKey).1 a
            + ALPHA * (r - (getQValues t sKey).1 a))) (getQValues t sKey).2 := rfl
      rw [hform, rowOf_insert, getQValues_fst, rowOf_getQValues]
  | some key =>
      have hform : (qUpdate t sKey a r (some key)).2 = AList.insert sKey
          (Function.update (getQValues t sKey).1 a ((getQValues t sKey).1 a
            + ALPHA * (r + GAMMA * (maxQ (getQValues t sKey).2 key).1 - (getQValues t sKey).1 a)))
          (maxQ (getQValues t sKey).2 key).2 := rfl
      rw [hform, rowOf_insert, rowOf_maxQ, maxQ_fst, getQValues_fst, rowOf_getQValues,
        rowOf_getQValues]

/-- **An update of the page is a step of the learner.** -/
theorem value_qUpdate (b : MarkBoard) (a : Fin 9) (r : ℚ) (bNext : Option MarkBoard) :
    JsTable.value (qUpdate t (boardKey b) a r (bNext.map boardKey)).2
      = learn ALPHA GAMMA bestCell (JsTable.value t) ⟨seenByX b, a, r, bNext.map seenByX⟩ := by
  set u : TdUpdate Board (Fin 9) ℚ := ⟨seenByX b, a, r, bNext.map seenByX⟩ with hu
  have htarget : (match bNext.map boardKey with
      | none => r
      | some key => r + GAMMA * (bestOf (rowOf t key)).unbotD 0)
        = bootTarget GAMMA bestCell (JsTable.value t) u := by
    unfold bootTarget bestCell JsTable.value cellValue
    rw [hu]
    cases bNext with
    | none => rfl
    | some b' => simp only [Option.map_some, marks_seenByX]
  have hrow : JsTable.value t u.s = rowOf t (boardKey b) := by
    show rowOf t (boardKey (marks (seenByX b))) = _
    rw [marks_seenByX]
  funext board i
  show rowOf _ (boardKey (marks board)) i = learn ALPHA GAMMA bestCell (JsTable.value t) u board i
  rw [rowOf_qUpdate, htarget]
  -- the written row is that of the board, since different boards have different keys
  by_cases hboard : board = u.s
  · have hkey : boardKey (marks board) = boardKey b := by rw [hboard, hu, marks_seenByX]
    rw [if_pos hkey, hboard, ← hrow]
    by_cases hi : i = a
    · rw [hi, Function.update_self]
      exact (learn_self (u := u) (V := JsTable.value t)).symm
    · rw [Function.update_of_ne hi]
      exact (learn_of_ne (u := u) (V := JsTable.value t) fun e => hi e.2).symm
  · have hkey : boardKey (marks board) ≠ boardKey b := fun h => hboard (by
      rw [hu, ← boardKey_injective h, seenByX_marks])
    rw [if_neg hkey]
    exact (learn_of_ne (u := u) (V := JsTable.value t) fun e => hboard e.1).symm

/-! ### Replay -/

variable {st : Replay} {mi : ℕ} {a : Fin 9}

/-- A settled update is a step of the learner. -/
theorem value_settle {idx : ℕ} (b : MarkBoard) (a : Fin 9) (reward : ℚ)
    (bNext : Option MarkBoard) :
    JsTable.value (st.settle ⟨idx, boardKey b, a⟩ reward (bNext.map boardKey)).qTable
      = learn ALPHA GAMMA bestCell (JsTable.value st.qTable)
          ⟨seenByX b, a, reward, bNext.map seenByX⟩ :=
  (value_congr rowOf_getQValues).trans (value_qUpdate b a reward bNext)

/-- The reward of a move of X that ends the game. -/
theorem reward_X {a : Fin 9} (hgo : isTerminal (seenByX b) = (false, 0)) (ha : seenByX b a = 0) :
    (if checkWinner (applyMove b a .X) = some .X then 1 else 0 : ℚ)
      = (isTerminal (place (seenByX b) a)).2 := by
  have hresult := result_place hgo ha
  have hsign : (isTerminal (place (seenByX b) a)).2 = sign (checkWinner (applyMove b a .X)) := by
    rw [← seenByX_applyMove_X, isTerminal_seenByX]
  rw [hsign] at hresult ⊢
  rcases h : checkWinner (applyMove b a .X) with - | m
  · simp [sign]
  · rw [h] at hresult
    cases m <;> simp [sign] at hresult ⊢

/-- The reward of a move of O that ends the game. -/
theorem reward_O {a : Fin 9} (hgo : isTerminal (flipPerspective (seenByX b)) = (false, 0))
    (ha : flipPerspective (seenByX b) a = 0) :
    (if checkWinner (applyMove b a .O) = some .O then -1 else 0 : ℚ)
      = -(isTerminal (place (flipPerspective (seenByX b)) a)).2 := by
  have hresult := result_place hgo ha
  have hsign : (isTerminal (place (flipPerspective (seenByX b)) a)).2
      = -sign (checkWinner (applyMove b a .O)) := by
    rw [← seenByX_applyMove_O, isTerminal_flipPerspective, isTerminal_seenByX]
  rw [hsign] at hresult ⊢
  rcases h : checkWinner (applyMove b a .O) with - | m
  · simp [sign]
  · rw [h] at hresult
    cases m <;> simp [sign] at hresult ⊢

theorem over_eq : ((checkWinner b).isSome || ((checkWinner b).isNone && isBoardFull b))
    = (isTerminal (seenByX b)).1 := by
  rw [isTerminal_seenByX]

/-- X moves, and the update waits for O. -/
theorem replayMove_X_go (hmi : mi % 2 = 0)
    (hgo : (isTerminal (seenByX (applyMove st.board a .X))).1 = false) :
    (replayMove st mi a).board = applyMove st.board a .X ∧
      (replayMove st mi a).qTable = st.qTable ∧
      ∃ idx, (replayMove st mi a).pending = some ⟨idx, boardKey st.board, a⟩ := by
  unfold replayMove
  simp only [hmi, if_true, over_eq, hgo]
  exact ⟨rfl, rfl, _, rfl⟩

/-- X ends the game. -/
theorem replayMove_X_end (hmi : mi % 2 = 0)
    (hend : (isTerminal (seenByX (applyMove st.board a .X))).1 = true) :
    JsTable.value (replayMove st mi a).qTable
      = learn ALPHA GAMMA bestCell (JsTable.value st.qTable) ⟨seenByX st.board, a,
          if checkWinner (applyMove st.board a .X) = some .X then 1 else 0, none⟩ := by
  unfold replayMove
  simp only [hmi, if_true, over_eq, hend]
  exact value_settle st.board a _ none

/-- O moves, and the update of X is made. -/
theorem replayMove_O_go {idx : ℕ} {b : MarkBoard} {a' : Fin 9} (hmi : mi % 2 = 1)
    (hpending : st.pending = some ⟨idx, boardKey b, a'⟩)
    (hgo : (isTerminal (seenByX (applyMove st.board a .O))).1 = false) :
    (replayMove st mi a).board = applyMove st.board a .O ∧
      JsTable.value (replayMove st mi a).qTable
        = learn ALPHA GAMMA bestCell (JsTable.value st.qTable)
            ⟨seenByX b, a', 0, some (seenByX (applyMove st.board a .O))⟩ := by
  have hplayer : (if mi % 2 = 0 then Mark.X else Mark.O) = .O := if_neg (by omega)
  unfold replayMove
  simp only [hplayer, hpending, over_eq, hgo, reduceCtorEq, if_false, Bool.false_eq_true]
  exact ⟨rfl, value_settle b a' 0 (some (applyMove st.board a .O))⟩

/-- O ends the game. -/
theorem replayMove_O_end {idx : ℕ} {b : MarkBoard} {a' : Fin 9} (hmi : mi % 2 = 1)
    (hpending : st.pending = some ⟨idx, boardKey b, a'⟩)
    (hend : (isTerminal (seenByX (applyMove st.board a .O))).1 = true) :
    JsTable.value (replayMove st mi a).qTable
      = learn ALPHA GAMMA bestCell (JsTable.value st.qTable) ⟨seenByX b, a',
          if checkWinner (applyMove st.board a .O) = some .O then -1 else 0, none⟩ := by
  have hplayer : (if mi % 2 = 0 then Mark.X else Mark.O) = .O := if_neg (by omega)
  unfold replayMove
  simp only [hplayer, hpending, over_eq, hend, reduceCtorEq, if_false, if_true]
  exact value_settle b a' _ none

/-- A game that has ended has no more moves. -/
theorem nil_of_complete {board : Board} {moves : List (Fin 9)} (hgame : CompleteGame board moves)
    (hend : (isTerminal board).1 = true) : moves = [] := by
  cases moves with
  | nil => rfl
  | cons a moves =>
      rw [hgame.1] at hend
      cases hend

/-- **Replay makes the updates of the game.**  With X to move nothing is
pending; with O to move the pair of X is, as in the buffer of the agent. -/
theorem replayMoves_value (moves : List (Fin 9)) (turn : Bool) (mi : ℕ) (board : Board)
    (last : Option (Board × Fin 9)) (st : Replay) (hmi : mi % 2 = if turn then 0 else 1)
    (hgame : CompleteGame board moves)
    (hboard : board = if turn then seenByX st.board else flipPerspective (seenByX st.board))
    (hlast : turn = false → ∃ b a idx, last = some (seenByX b, a) ∧
      st.pending = some ⟨idx, boardKey b, a⟩) :
    JsTable.value (replayMoves mi moves st).qTable
      = learnAll ALPHA GAMMA bestCell (JsTable.value st.qTable)
          ((updatesFrom moves turn board last).map UpdateCall.td) := by
  induction moves generalizing turn mi board last st with
  | nil => rfl
  | cons a moves ih =>
      obtain ⟨hgo, ha, hrest⟩ := hgame
      show JsTable.value (replayMoves (mi + 1) moves (replayMove st mi a)).qTable = _
      cases turn with
      | true =>
          obtain rfl : board = seenByX st.board := hboard
          have hmi' : mi % 2 = 0 := hmi
          have hplace : place (seenByX st.board) a = seenByX (applyMove st.board a .X) :=
            (seenByX_applyMove_X a).symm
          cases hdone : (isTerminal (place (seenByX st.board) a)).1 with
          | true =>
              -- X ends the game, and its move is rewarded at once
              rw [updatesFrom_trainee_end hdone,
                nil_of_complete hrest (by rw [isTerminal_flipPerspective, hdone])]
              refine (replayMove_X_end hmi' (hplace ▸ hdone)).trans ?_
              rw [reward_X hgo ha]
              rfl
          | false =>
              -- the move of X stays pending until O has answered
              obtain ⟨hb, ht, idx, hp⟩ := replayMove_X_go hmi' (hplace ▸ hdone)
              rw [updatesFrom_trainee_go hdone, ih false (mi + 1) _ (some (seenByX st.board, a)) _
                (by show (mi + 1) % 2 = 1; omega) hrest (by rw [hb, hplace]; rfl)
                fun _ => ⟨st.board, a, idx, rfl, hp⟩, ht]
      | false =>
          obtain rfl : board = flipPerspective (seenByX st.board) := hboard
          have hmi' : mi % 2 = 1 := hmi
          -- the pending pair of the page is the last move of the agent
          obtain ⟨b, a', idx, rfl, hpending⟩ := hlast rfl
          have hplace : flipPerspective (place (flipPerspective (seenByX st.board)) a)
              = seenByX (applyMove st.board a .O) := by
            rw [← seenByX_applyMove_O, flipPerspective_flipPerspective]
          have hterm : (isTerminal (seenByX (applyMove st.board a .O))).1
              = (isTerminal (place (flipPerspective (seenByX st.board)) a)).1 := by
            rw [← hplace, isTerminal_flipPerspective]
          cases hdone : (isTerminal (place (flipPerspective (seenByX st.board)) a)).1 with
          | true =>
              rw [updatesFrom_opponent_end hdone,
                nil_of_complete hrest (by rw [isTerminal_flipPerspective, hdone])]
              refine (replayMove_O_end hmi' hpending (hterm.trans hdone)).trans ?_
              rw [reward_O hgo ha]
              rfl
          | false =>
              obtain ⟨hb, ht⟩ := replayMove_O_go hmi' hpending (hterm.trans hdone)
              rw [updatesFrom_opponent_go hdone, ih true (mi + 1) _ (some (seenByX b, a')) _
                (by show (mi + 1) % 2 = 0; omega) hrest (by rw [hb, hplace]; rfl) nofun, ht, hplace]
              rfl

/-- The games of the chapters, in order. -/
def gamesOf (chapters : List Chapter) : List (List (Fin 9)) :=
  chapters.flatMap fun chapter => chapter.episodes.map Episode.moves

theorem replayEpisodes_value (eps : List Episode) (t : JsTable)
    (hgames : ∀ ep ∈ eps, CompleteGame initialBoard ep.moves) :
    JsTable.value (replayEpisodes t eps).2 = learnAll ALPHA GAMMA bestCell (JsTable.value t)
      (((eps.map Episode.moves).flatMap gameUpdates).map UpdateCall.td) := by
  induction eps generalizing t with
  | nil => rfl
  | cons ep eps ih =>
      have hep : JsTable.value (replayEpisode t ep).2
          = learnAll ALPHA GAMMA bestCell (JsTable.value t) ((gameUpdates ep.moves).map UpdateCall.td) :=
        replayMoves_value ep.moves true 0 initialBoard none ⟨t, [], emptyBoard, none⟩ rfl
          (hgames ep List.mem_cons_self) rfl nofun
      refine (ih (replayEpisode t ep).2 fun ep hep =>
        hgames ep (List.mem_cons_of_mem _ hep)).trans ?_
      rw [hep]
      simp only [learnAll, List.map_cons, List.flatMap_cons, List.map_append, List.foldl_append]

theorem replayAllEpisodes_value (chapters : List Chapter)
    (hgames : ∀ moves ∈ gamesOf chapters, CompleteGame initialBoard moves) :
    JsTable.value (replayAllEpisodes chapters).2 = learnAll ALPHA GAMMA bestCell (fun _ _ => 0)
      (((gamesOf chapters).flatMap gameUpdates).map UpdateCall.td) := by
  -- the table is carried from chapter to chapter
  suffices h : ∀ t, JsTable.value (replayChapters t chapters).2 = learnAll ALPHA GAMMA bestCell
      (JsTable.value t) (((gamesOf chapters).flatMap gameUpdates).map UpdateCall.td) from h ∅
  induction chapters with
  | nil => exact fun t => rfl
  | cons chapter chapters ih =>
      intro t
      have hhead : ∀ ep ∈ chapter.episodes, CompleteGame initialBoard ep.moves := fun ep hep =>
        hgames _ (List.mem_flatMap.mpr ⟨chapter, List.mem_cons_self, List.mem_map_of_mem hep⟩)
      have htail : ∀ moves ∈ gamesOf chapters, CompleteGame initialBoard moves := by
        intro moves hmoves
        obtain ⟨c, hc, hm⟩ := List.mem_flatMap.mp hmoves
        exact hgames _ (List.mem_flatMap.mpr ⟨c, List.mem_cons_of_mem _ hc, hm⟩)
      refine (ih htail _).trans ?_
      rw [replayEpisodes_value _ _ hhead]
      simp only [gamesOf, learnAll, List.flatMap_cons, List.flatMap_append, List.map_append,
        List.foldl_append]

/-! ### The two estimates -/

/-- The page never estimates less than the agent. -/
theorem above_bestCell {u : UpdateCall} (hu : u.InGame) : Above bestEmpty bestCell u.td := by
  intro s' hnext V W hVW
  obtain ⟨⟨i, -, hi⟩, -⟩ := bestEmpty_spec V (hu.next s' hnext).1
  rw [hi]
  exact (hVW s' i).trans ((bestCell_spec W s').2 i)

/-- Where the occupied cells have the value 0, the estimates are the same if some
empty cell has a value that is not negative. -/
theorem estimates_eq_iff {V : Board → Fin 9 → ℚ} {board : Board} (hmoves : legalMoves board ≠ [])
    (hocc : ∃ i, board i ≠ EMPTY) (hzero : ∀ i, board i ≠ EMPTY → V board i = 0) :
    bestEmpty V board = bestCell V board ↔ ∃ i, board i = EMPTY ∧ 0 ≤ V board i := by
  obtain ⟨⟨i, hi, hbest⟩, hle⟩ := bestEmpty_spec V hmoves
  obtain ⟨⟨k, hk⟩, hcell⟩ := bestCell_spec V board
  constructor
  · -- an occupied cell has the value 0, so the largest value of any cell is not negative
    intro heq
    obtain ⟨j, hj⟩ := hocc
    refine ⟨i, hi, ?_⟩
    rw [← hbest, heq, ← hzero j hj]
    exact hcell j
  · -- and an occupied cell does not exceed the empty one
    rintro ⟨j, hj, hnonneg⟩
    refine le_antisymm (hbest ▸ hcell i) ?_
    rw [hk]
    by_cases hkempty : board k = EMPTY
    · exact hle k hkempty
    · rw [hzero k hkempty]
      exact hnonneg.trans (hle j hj)

/-! ### The main result -/

/-- As many X as O. -/
def XToMove (b : MarkBoard) : Prop :=
  (Finset.univ.filter fun i => b i = .X).card = (Finset.univ.filter fun i => b i = .O).card

theorem xToMove_iff : XToMove b ↔ balance (seenByX b) = 0 := by
  have hX : ∀ m : Mark, m.cell = ME ↔ m = .X := by
    intro m
    cases m <;> decide
  have hO : ∀ m : Mark, m.cell = OPP ↔ m = .O := by
    intro m
    cases m <;> decide
  simp only [balance, cells, seenByX, hX, hO, XToMove]
  omega

/-- The page and the agent have the same value for every empty cell of every
board with X to move. -/
def Agrees (chapters : List Chapter) : Prop :=
  ∀ b, XToMove b → ∀ i, b i = .blank →
    (exec (feedGames (gamesOf chapters)) freshWorld).2.host.row (seenByX b) i
      = some (cellValue (replayAllEpisodes chapters).2 b i)

/-- Whenever the agent bootstraps on a board, its table has a value that is not
negative for some empty cell there. -/
def NeverAllNegative (games : List (List (Fin 9))) : Prop :=
  ∀ us₁ u us₂, games.flatMap gameUpdates = us₁ ++ u :: us₂ → ∀ s', u.sNext = some s' →
    ∃ i v, s' i = EMPTY ∧ (freshWorld.host.afterUpdates us₁).row s' i = some v ∧ 0 ≤ v

variable {chapters : List Chapter}

theorem agrees_iff_learnAll (hgames : ∀ moves ∈ gamesOf chapters, CompleteGame initialBoard moves) :
    Agrees chapters ↔ ∀ board i, balance board = 0 ∧ board i = EMPTY →
      learnAll ALPHA GAMMA bestEmpty (fun _ _ => 0)
          (((gamesOf chapters).flatMap gameUpdates).map UpdateCall.td) board i
        = learnAll ALPHA GAMMA bestCell (fun _ _ => 0)
          (((gamesOf chapters).flatMap gameUpdates).map UpdateCall.td) board i := by
  obtain ⟨hmasked, hvalue⟩ := masked_freshWorld.afterUpdates (gameUpdates_inGame hgames)
  have hjs := replayAllEpisodes_value chapters hgames
  rw [value_freshWorld] at hvalue
  -- what the agent has for an empty cell is what its updates come to
  have hrow : ∀ board i, board i = EMPTY →
      (exec (feedGames (gamesOf chapters)) freshWorld).2.host.row board i
        = some (learnAll ALPHA GAMMA bestEmpty (fun _ _ => 0)
          (((gamesOf chapters).flatMap gameUpdates).map UpdateCall.td) board i) := by
    intro board i hi
    rw [exec_feedGames _ _ hgames]
    refine (hmasked.row_of_empty hi).trans ?_
    rw [hvalue]
    rfl
  -- what the demo shows is what the same updates come to with its own estimate
  have hcell : ∀ b i, cellValue (replayAllEpisodes chapters).2 b i
      = learnAll ALPHA GAMMA bestCell (fun _ _ => 0)
          (((gamesOf chapters).flatMap gameUpdates).map UpdateCall.td) (seenByX b) i := by
    intro b i
    rw [← hjs]
    show _ = cellValue _ (marks (seenByX b)) i
    rw [marks_seenByX]
  constructor
  · rintro h board i ⟨hbalance, hi⟩
    have hb := h (marks board) (xToMove_iff.mpr (by rwa [seenByX_marks])) i
      (Mark.cell_eq_empty.mp (by rwa [marks, Mark.cell_ofCell]))
    rw [hcell, seenByX_marks, hrow board i hi] at hb
    exact Option.some.inj hb
  · intro h b hb i hi
    have hempty : seenByX b i = EMPTY := Mark.cell_eq_empty.mpr hi
    rw [hcell, hrow _ i hempty, h (seenByX b) i ⟨xToMove_iff.mp hb, hempty⟩]

/-- At one update: the estimates are the same exactly if the table has a value
that is not negative for some empty cell of the next board. -/
theorem estimates_eq_iff_row {us₁ : List UpdateCall} {u : UpdateCall} {s' : Board}
    (hin : ∀ u ∈ us₁, u.InGame) (hu : u.InGame) (hnext : u.sNext = some s') :
    (bestEmpty (learnAll ALPHA GAMMA bestEmpty (fun _ _ => 0) (us₁.map UpdateCall.td)) s'
        = bestCell (learnAll ALPHA GAMMA bestEmpty (fun _ _ => 0) (us₁.map UpdateCall.td)) s') ↔
      ∃ i v, s' i = EMPTY ∧ (freshWorld.host.afterUpdates us₁).row s' i = some v ∧ 0 ≤ v := by
  obtain ⟨hmasked, hvalue⟩ := masked_freshWorld.afterUpdates hin
  rw [value_freshWorld] at hvalue
  have hlearned : learnAll ALPHA GAMMA bestEmpty (fun _ _ => 0) (us₁.map UpdateCall.td)
      = (freshWorld.host.afterUpdates us₁).value := hvalue.symm
  obtain ⟨hmoves, hocc⟩ := hu.next s' hnext
  rw [hlearned, estimates_eq_iff hmoves hocc fun i hi => by
    rw [Host.value, (hmasked s' i).mpr hi]; rfl]
  constructor
  · rintro ⟨i, hi, hnonneg⟩
    exact ⟨i, _, hi, hmasked.row_of_empty hi, hnonneg⟩
  · rintro ⟨i, v, hi, hrow, hnonneg⟩
    refine ⟨i, hi, ?_⟩
    rw [Host.value, hrow]
    exact hnonneg

/-- **When the demo learns what the agent learns.**  For chapters whose episodes
are complete legal games, the values agree exactly if the agent never
bootstraps on a board whose empty cells all have negative values. -/
theorem replay_agrees_iff
    (hgames : ∀ chapter ∈ chapters, ∀ ep ∈ chapter.episodes, CompleteGame initialBoard ep.moves) :
    (exec (feedGames (gamesOf chapters)) freshWorld).1 = .ok () ∧
      (Agrees chapters ↔ NeverAllNegative (gamesOf chapters)) := by
  have hgames' : ∀ moves ∈ gamesOf chapters, CompleteGame initialBoard moves := by
    intro moves hmoves
    obtain ⟨chapter, hchapter, hm⟩ := List.mem_flatMap.mp hmoves
    obtain ⟨ep, hep, rfl⟩ := List.mem_map.mp hm
    exact hgames chapter hchapter ep hep
  refine ⟨by rw [exec_feedGames _ _ hgames'], (agrees_iff_learnAll hgames').trans ?_⟩
  unfold NeverAllNegative
  have hin : ∀ u ∈ (gamesOf chapters).flatMap gameUpdates, u.InGame := gameUpdates_inGame hgames'
  revert hin
  generalize (gamesOf chapters).flatMap gameUpdates = us
  intro hin
  have htd : ∀ u ∈ us.map UpdateCall.td, ∃ u' : UpdateCall, u'.InGame ∧ u = u'.td := by
    intro u hu
    obtain ⟨u', hu', rfl⟩ := List.mem_map.mp hu
    exact ⟨u', hin u' hu', rfl⟩
  -- the demo's maximum is over more cells, so it is never the smaller one
  have habove : ∀ u ∈ us.map UpdateCall.td, Above bestEmpty bestCell u := by
    intro u hu
    obtain ⟨u', hu', rfl⟩ := htd u hu
    exact above_bestCell hu'
  have hiff := learnAll_eq_iff (V := fun _ _ => (0 : ℚ)) (α := ALPHA) (γ := GAMMA)
    (by norm_num [ALPHA]) (by norm_num [ALPHA]) (by norm_num [GAMMA]) habove
  constructor
  · -- the updates read only cells on which the two agree, so the tables agree everywhere
    intro hagree us₁ u us₂ hsplit s' hnext
    have heq := learnAll_eq_of_agree (D := fun board i => balance board = 0 ∧ board i = EMPTY)
      (fun u hu => by
        obtain ⟨u', hu', rfl⟩ := htd u hu
        exact ⟨hu'.turn, hu'.empty⟩) hagree
    refine (estimates_eq_iff_row (fun v hv => hin v ?_) (hin u ?_) hnext).mp
      (hiff.mp heq (us₁.map UpdateCall.td) u.td (us₂.map UpdateCall.td) ?_ s' hnext)
    · rw [hsplit]
      exact List.mem_append_left _ hv
    · rw [hsplit]
      exact List.mem_append_right _ List.mem_cons_self
    · rw [hsplit, List.map_append, List.map_cons]
  -- with equal estimates at every update the two learn the same
  · intro hnonneg board i _
    refine congrFun (congrFun (hiff.mpr fun us₁ u us₂ hsplit s' hnext => ?_) board) i
    obtain ⟨vs₁, vs₂, rfl, rfl, hvs⟩ := List.map_eq_append_iff.mp hsplit
    obtain ⟨v, vs, rfl, rfl, -⟩ := List.map_eq_cons_iff.mp hvs
    refine (estimates_eq_iff_row (fun v' hv' => hin v' (List.mem_append_left _ hv'))
      (hin v (List.mem_append_right _ List.mem_cons_self)) hnext).mpr ?_
    exact hnonneg vs₁ v vs rfl s' hnext

/-- The condition, evaluated with the learner. -/
theorem neverAllNegative_of_learnAll {games : List (List (Fin 9))}
    (hgames : ∀ moves ∈ games, CompleteGame initialBoard moves)
    (h : ∀ k : Fin (games.flatMap gameUpdates).length,
      ((games.flatMap gameUpdates).get k).sNext.all (fun s' => decide (∃ i, s' i = EMPTY ∧
        0 ≤ learnAll ALPHA GAMMA bestEmpty (fun _ _ => 0)
          (((games.flatMap gameUpdates).take k).map UpdateCall.td) s' i)) = true) :
    NeverAllNegative games := by
  intro us₁ u us₂ hsplit s' hnext
  have hin := gameUpdates_inGame hgames
  rw [hsplit] at h hin
  have hin₁ : ∀ v ∈ us₁, v.InGame := fun v hv => hin v (List.mem_append_left _ hv)
  obtain ⟨hmasked, hvalue⟩ := masked_freshWorld.afterUpdates hin₁
  have hk := h ⟨us₁.length, by simp⟩
  simp only [List.get_eq_getElem, List.getElem_append_right le_rfl, Nat.sub_self,
    List.getElem_cons_zero, List.take_left, hnext, Option.all_some, decide_eq_true_eq] at hk
  obtain ⟨i, hi, hnonneg⟩ := hk
  refine ⟨i, _, hi, hmasked.row_of_empty hi, ?_⟩
  rw [hvalue, value_freshWorld]
  exact hnonneg

theorem replay_agrees_CHAPTERS :
    (exec (feedGames (gamesOf CHAPTERS)) freshWorld).1 = .ok () ∧ Agrees CHAPTERS := by
  obtain ⟨hok, hiff⟩ := @replay_agrees_iff CHAPTERS (by decide +kernel)
  exact ⟨hok, hiff.mpr (neverAllNegative_of_learnAll (by decide +kernel) (by decide +kernel))⟩

/-- Three games that X loses from the same board, one for each of its empty cells,
and then one more. -/
def fork : List Chapter :=
  [⟨"Fork", [⟨"1", [5, 0, 7, 2, 8, 6, 1, 3]⟩, ⟨"3", [5, 0, 7, 2, 8, 6, 3, 1]⟩,
    ⟨"4", [5, 0, 7, 2, 8, 6, 4, 1]⟩, ⟨"1 again", [5, 0, 7, 2, 8, 6, 1, 3]⟩]⟩]

/-- The board before the last move of X to the fork. -/
def beforeFork : MarkBoard := ![.O, .blank, .O, .blank, .blank, .X, .blank, .X, .blank]

theorem fork_complete : ∀ moves ∈ gamesOf fork, CompleteGame initialBoard moves := by
  decide +kernel

/-- The page does not take the loss into account: the value stays 0, while that
of the agent is -0.01. -/
theorem fork_differs : (∀ chapter ∈ fork, ∀ ep ∈ chapter.episodes,
    CompleteGame initialBoard ep.moves) ∧ ¬ Agrees fork := by
  refine ⟨by decide +kernel, fun hagree => ?_⟩
  have hvalue := (agrees_iff_learnAll fork_complete).mp hagree (seenByX beforeFork) 8 (by decide)
  revert hvalue
  decide +kernel

end MyTests.RlTtt.QlDemo
