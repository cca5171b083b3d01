/-
MyTests/RlTtt/WebApp.lean

The page `web/app.js`: two sides play by clicks, and the page shows the values
of the exported table.

The page keeps the board as numbers, +1 for X, -1 for O and 0 for an empty cell,
and multiplies them by the piece of the side to move.  Zero has two signs in
JavaScript, which are equal and print alike (`JsNumber`).  What the page draws
is left out.
-/
import MyTests.RlTtt.Export
import MyTests.RlTtt.TableInvariant

namespace MyTests.RlTtt.WebApp

/-! ### Numbers -/

/-- A JavaScript number with an integer value: a sign and a magnitude. -/
structure JsNumber where
  neg : Bool
  abs : ℕ
deriving DecidableEq

namespace JsNumber

/-- `a === b`; the two zeros are equal. -/
def eq (a b : JsNumber) : Bool := a.abs == b.abs && (a.neg == b.neg || a.abs == 0)

/-- `a * b` -/
def mul (a b : JsNumber) : JsNumber := ⟨a.neg ^^ b.neg, a.abs * b.abs⟩

/-- `String(a)`; both zeros are `"0"`. -/
def toText (a : JsNumber) : String :=
  if a.neg && a.abs != 0 then "-" ++ Nat.repr a.abs else Nat.repr a.abs

end JsNumber

def X : JsNumber := ⟨false, 1⟩

def O : JsNumber := ⟨true, 1⟩

def EMPTY : JsNumber := ⟨false, 0⟩

abbrev JsBoard := Fin 9 → JsNumber

/-! ### The state of the page -/

inductive Phase where
  | playing
  | gameover
deriving DecidableEq

inductive Result where
  | X
  | O
  | draw
deriving DecidableEq

inductive Side where
  | X
  | O
deriving DecidableEq

structure LastMove where
  cell : Fin 9
  side : Side
deriving DecidableEq

structure App where
  board : JsBoard
  phase : Phase
  result : Option Result
  lastMove : Option LastMove
  moveCount : ℕ

/-- `sideToMovePiece()`, of the board of the page. -/
def sideToMovePiece (s : App) : JsNumber :=
  let xCount := ((List.finRange 9).filter fun i => (s.board i).eq X).length
  let oCount := ((List.finRange 9).filter fun i => (s.board i).eq O).length
  if xCount = oCount then X else O

def legalMoves (b : JsBoard) : List (Fin 9) := (List.finRange 9).filter fun i => (b i).eq EMPTY

def checkWinner (b : JsBoard) : JsNumber :=
  (winningLines.findSome? fun line =>
    let s := b line.1
    if !s.eq EMPTY && s.eq (b line.2.1) && s.eq (b line.2.2) then some s else none).getD EMPTY

def isDraw (b : JsBoard) : Bool := (checkWinner b).eq EMPTY && (legalMoves b).length == 0

/-! ### The values of the table -/

def canonicalForCurrentPlayer (s : App) (b : JsBoard) : JsBoard := fun i =>
  (sideToMovePiece s).mul (b i)

/-- `QTABLE.states`, as the export wrote it. -/
abbrev States := AList fun _ : String => JsonRow

/-- `getCurrentQValues(b)` -/
def getCurrentQValues (states : States) (s : App) (b : JsBoard) : JsonRow :=
  let canonical := canonicalForCurrentPlayer s b
  let key := String.intercalate (String.singleton ',') (List.ofFn fun i => (canonical i).toText)
  match states.lookup key with
  | some row => row
  | none => List.replicate 9 (some 0)

/-! ### Clicks -/

def startNewGame : App := ⟨fun _ => EMPTY, .playing, none, none, 0⟩

def applyMove (s : App) (i : Fin 9) : App :=
  let p := sideToMovePiece s
  let board := Function.update s.board i p
  let s : App :=
    { s with
      board := board
      lastMove := some ⟨i, if p.eq X then .X else .O⟩
      moveCount := s.moveCount + 1 }
  let w := checkWinner board
  if !w.eq EMPTY then
    { s with result := some (if w.eq X then .X else .O), phase := .gameover }
  else if isDraw board then { s with result := some .draw, phase := .gameover }
  else s

def onCellClick (s : App) (i : Fin 9) : App :=
  if s.phase ≠ .playing then s
  else if !(s.board i).eq EMPTY then s
  else applyMove s i

inductive Input where
  | click (i : Fin 9)
  | newGame

/-- The page after one input. -/
def handle (s : App) : Input → App
  | .click i => onCellClick s i
  | .newGame => startNewGame

/-- The page after the inputs, from `init` on. -/
def session (inputs : List Input) : App := inputs.foldl handle startNewGame

end MyTests.RlTtt.WebApp
