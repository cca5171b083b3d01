/-
MyTests/RlTtt/QlDemo.lean

The learner of the demo page `web/ql-demo.js`, in exact arithmetic: X learns
from episodes whose moves are given.

A `Map` is an association list, and a row of it is an array that the page
changes in place, here the row that is stored again.  `pendingIdx`, `pendingS`
and `pendingA` are set and cleared together, so they are one optional value.
-/
import MyTests.RlTtt.Game

namespace MyTests.RlTtt.QlDemo

/-! ### Boards -/

/-- A cell: `""`, `"X"` or `"O"`. -/
inductive Mark where
  | blank
  | X
  | O
deriving DecidableEq

/-- A board as it lies on the table. -/
abbrev MarkBoard := Fin 9 → Mark

def ALPHA : ℚ := 1 / 10

def GAMMA : ℚ := 1

def emptyBoard : MarkBoard := fun _ => .blank

/-- `b[i] || "_"` -/
def Mark.char : Mark → Char
  | .blank => '_'
  | .X => 'X'
  | .O => 'O'

def boardKey (b : MarkBoard) : String := String.ofList (List.ofFn fun i => (b i).char)

def applyMove (b : MarkBoard) (cell : Fin 9) (player : Mark) : MarkBoard :=
  Function.update b cell player

def checkWinner (b : MarkBoard) : Option Mark :=
  winningLines.findSome? fun line =>
    let a := b line.1
    let c := b line.2.1
    let d := b line.2.2
    if a ≠ .blank ∧ a = c ∧ c = d then some a else none

def isBoardFull (b : MarkBoard) : Bool := decide (∀ i, b i ≠ .blank)

/-! ### The Q-table -/

abbrev JsRow := Fin 9 → ℚ

/-- `Map<string, number[]>` -/
abbrev JsTable := AList fun _ : String => JsRow

/-- `getQValues(key)`: the row, and the table with it. -/
def getQValues (t : JsTable) (key : String) : JsRow × JsTable :=
  match t.lookup key with
  | some row => (row, t)
  | none => (fun _ => 0, t.insert key fun _ => 0)

/-- `if (row[i] > best) best = row[i]` -/
def better (row : JsRow) (best : WithBot ℚ) (i : Fin 9) : WithBot ℚ :=
  if best < row i then row i else best

/-- The loop of `maxQ`; `⊥` is `-Infinity`. -/
def bestOf (row : JsRow) : WithBot ℚ := (List.finRange 9).foldl (better row) ⊥

def maxQ (t : JsTable) (key : String) : ℚ × JsTable :=
  let (row, t) := getQValues t key
  ((bestOf row).unbotD 0, t)

/-- The terms of an update, for display. -/
structure QInfo where
  sKey : String
  a : Fin 9
  qBefore : ℚ
  r : ℚ
  maxQNext : ℚ
  target : ℚ
  delta : ℚ
  qAfter : ℚ
  isTerminal : Bool

def qUpdate (t : JsTable) (sKey : String) (a : Fin 9) (r : ℚ) (sNextKey : Option String) :
    QInfo × JsTable :=
  let (row, t) := getQValues t sKey
  let qBefore := row a
  let (maxQNext, t) := match sNextKey with
    | some key => maxQ t key
    | none => (0, t)
  let isTerminal := sNextKey.isNone
  let target := if isTerminal then r else r + GAMMA * maxQNext
  let delta := ALPHA * (target - qBefore)
  let qAfter := qBefore + delta
  (⟨sKey, a, qBefore, r, maxQNext, target, delta, qAfter, isTerminal⟩,
    t.insert sKey (Function.update row a qAfter))

/-! ### Replay -/

structure Snapshot where
  moveNum : ℕ
  player : Mark
  cell : Fin 9
  boardBefore : String
  boardAfter : String
  isTerminal : Bool
  winner : Option Mark
  isDraw : Bool
  qInfo : Option QInfo
  qValues : Option JsRow

/-- `pendingIdx`, `pendingS` and `pendingA` -/
structure Pending where
  idx : ℕ
  s : String
  a : Fin 9

/-- The state of the loop over the moves of an episode. -/
structure Replay where
  qTable : JsTable
  snapshots : List Snapshot
  board : MarkBoard
  pending : Option Pending

/-- The pending update, with its snapshot completed. -/
def Replay.settle (st : Replay) (p : Pending) (reward : ℚ) (sNext : Option String) : Replay :=
  let (info, t) := qUpdate st.qTable p.s p.a reward sNext
  let (row, t) := getQValues t p.s
  { st with
    qTable := t
    snapshots := st.snapshots.modify p.idx fun snap =>
      { snap with qInfo := some info, qValues := some row }
    pending := none }

/-- The move number `mi` of an episode. -/
def replayMove (st : Replay) (mi : ℕ) (cell : Fin 9) : Replay :=
  let player : Mark := if mi % 2 = 0 then .X else .O
  let boardBefore := boardKey st.board
  let newBoard := applyMove st.board cell player
  let boardAfter := boardKey newBoard
  let winner := checkWinner newBoard
  let isDraw := winner.isNone && isBoardFull newBoard
  let isTerminal := winner.isSome || isDraw
  let snapshot : Snapshot :=
    ⟨mi + 1, player, cell, boardBefore, boardAfter, isTerminal, winner, isDraw, none, none⟩
  let st := { st with snapshots := st.snapshots ++ [snapshot], board := newBoard }
  if player = .X then
    let p : Pending := ⟨st.snapshots.length - 1, boardBefore, cell⟩
    if isTerminal then st.settle p (if winner = some .X then 1 else 0) none
    else { st with pending := some p }
  else
    match st.pending with
    | some p =>
        if isTerminal then st.settle p (if winner = some .O then -1 else 0) none
        else st.settle p 0 (some boardAfter)
    | none => st

/-- The moves of an episode from the number `mi` on. -/
def replayMoves : ℕ → List (Fin 9) → Replay → Replay
  | _, [], st => st
  | mi, cell :: moves, st => replayMoves (mi + 1) moves (replayMove st mi cell)

structure Episode where
  label : String
  moves : List (Fin 9)

structure Chapter where
  title : String
  episodes : List Episode

structure EpisodeResult where
  label : String
  snapshots : List Snapshot

structure ChapterResult where
  title : String
  episodes : List EpisodeResult

def replayEpisode (t : JsTable) (ep : Episode) : EpisodeResult × JsTable :=
  let st := replayMoves 0 ep.moves ⟨t, [], emptyBoard, none⟩
  (⟨ep.label, st.snapshots⟩, st.qTable)

def replayEpisodes : JsTable → List Episode → List EpisodeResult × JsTable
  | t, [] => ([], t)
  | t, ep :: eps =>
      let (r, t) := replayEpisode t ep
      let (rs, t) := replayEpisodes t eps
      (r :: rs, t)

def replayChapters : JsTable → List Chapter → List ChapterResult × JsTable
  | t, [] => ([], t)
  | t, chapter :: chapters =>
      let (eps, t) := replayEpisodes t chapter.episodes
      let (rs, t) := replayChapters t chapters
      (⟨chapter.title, eps⟩ :: rs, t)

/-- The results, and the table that `initQTable` made new. -/
def replayAllEpisodes (chapters : List Chapter) : List ChapterResult × JsTable :=
  replayChapters ∅ chapters

/-- The chapters of the page. -/
def CHAPTERS : List Chapter :=
  [⟨"X Wins", [⟨"X center → O corner → X corner → O corner → X wins", [4, 0, 2, 8, 6]⟩]⟩,
    ⟨"X Loses",
      [⟨"X center → O corner → X edge → O edge → X corner → O wins", [4, 0, 3, 1, 8, 2]⟩]⟩]

end MyTests.RlTtt.QlDemo
