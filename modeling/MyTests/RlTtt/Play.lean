/-
MyTests/RlTtt/Play.lean

The other users of the Q-table: the interactive game of `rl_ttt/cli.py`, the
sanity print of `rl_ttt/viz.py`, and the logger of `scripts/log_qstate.py`.

The interactive game runs on a console, which holds the lines that the human
will type and the lines that have been printed.  Its board is absolute (`1` is
the human), and the agent is shown the board from its own side.  As an episode
does, the game records its plies, each with the board that the mover sees; for
the human that is the absolute board.  The built-ins of Python that work on text
(`int`, `str.strip`, `repr`, number formatting) are parameters.
-/
import MyTests.RlTtt.Train

namespace MyTests.RlTtt

open Lib

variable {ρ ξ : Type} (G : Generator ρ)

/-! ### The console -/

structure Console (ρ ξ : Type) where
  world : World ρ ξ
  /-- what the human will type; then end of file -/
  inputs : List String
  printed : List String

abbrev Terminal (ρ ξ α : Type) := Proc PyErr (Console ρ ξ) α

def onWorld {α : Type} (x : Session ρ ξ α) : Terminal ρ ξ α :=
  onPart Console.world (fun w c => { c with world := w }) x

def print (line : String) : Terminal ρ ξ Unit :=
  modify fun c => { c with printed := c.printed ++ [line] }

/-- `input(prompt)`; `none` for `EOFError` and `KeyboardInterrupt`. -/
def input (prompt : String) : Terminal ρ ξ (Option String) := do
  print prompt
  let c ← get
  match c.inputs with
  | [] => pure none
  | line :: lines => do
      modify fun c => { c with inputs := lines }
      pure (some line)

/-- Built-in functions on text. -/
structure TextBuiltins where
  /-- `int(raw)`; `none` for `ValueError` -/
  int : String → Option ℤ
  strip : String → String
  repr : String → String

/-! ### `_cmd_play` -/

/-- `_GLYPH_HUMAN`. -/
def glyphHuman (c : Cell) : String :=
  match c with
  | .zero => "."
  | .pos => "H"
  | .neg => "A"

/-- The index of row `r`, column `c`. -/
def cellAt (r c : Fin 3) : Fin 9 := ⟨r * 3 + c, by omega⟩

def renderHumanView (boardAbsolute : Board) : String :=
  let rows := (List.finRange 3).map fun r =>
    " ".intercalate ((List.finRange 3).map fun c => glyphHuman (boardAbsolute (cellAt r c)))
  "\n".intercalate rows ++ "\n"

/-- `str(legal)` of a list. -/
def listRepr (legal : List (Fin 9)) : String :=
  "[" ++ ", ".intercalate (legal.map fun i => toString (i : ℕ)) ++ "]"

/-- The agent's cell, on the absolute board. -/
def placeAgent (absolute : Board) (a : Fin 9) : Board := Function.update absolute a OPP

/-- `while True` of `_cmd_play`. -/
def playLoop (py : TextBuiltins) : ℕ → Board → (humanToMove : Bool) → Terminal ρ ξ Unit
  | 0, _, _ => throw .outOfFuel
  | fuel + 1, absolute, humanToMove => do
      print (renderHumanView absolute)
      let w := winner absolute
      let legal := legalMoves absolute
      if w = 1 then print "You win!"
      else if w = -1 then print "Agent wins!"
      else if legal = [] then print "Draw."
      else if humanToMove then do
        let line ← input "Your move (0-8): "
        match line with
        | none => print "\nbye"
        | some line =>
            let raw := py.strip line
            match py.int raw with
            | none => do
                let shown := py.repr raw
                print s!"  not a number: {shown}"
                playLoop py fuel absolute true
            | some a =>
                match legal.find? fun i : Fin 9 => ((i : ℕ) : ℤ) = a with
                | none => do
                    let shown := listRepr legal
                    print s!"  illegal move (legal: {shown})"
                    playLoop py fuel absolute true
                | some i => do
                    onWorld (record (.ply false false absolute (i : ℕ)))
                    playLoop py fuel (place absolute i) false
      else do
        let agentView := flipPerspective absolute
        let a ← onWorld (onHost (selectAction G agentView))
        onWorld (record (.ply false true agentView (a : ℕ)))
        print s!"Agent plays cell {a}."
        playLoop py fuel (placeAgent absolute a) true

/-- Every round takes a line or is a move of the agent, which a round of the
human follows. -/
def playFuel (c : Console ρ ξ) : ℕ := 2 * c.inputs.length + 3

/-- `_cmd_play`, on the agent that `load` returned; `rng` is a generator of its
own. -/
def cmdPlay (py : TextBuiltins) (rng : GenId) : Terminal ρ ξ Unit := do
  modify fun c => { c with world := c.world.setEpsilon 0 }
  print "Interactive tic-tac-toe vs the trained agent."
  print "Cells are indexed 0..8 (row-major):"
  print "  0 1 2"
  print "  3 4 5"
  print "  6 7 8"
  print "You are H (human); agent is A. Empty cells shown as '.'."
  print "Ctrl-C to exit."
  print ""
  let humanFirst ← onWorld (onHost (coinFlip G rng))
  print (if humanFirst then "You go first." else "Agent go first.")
  print ""
  let c ← get
  playLoop G py (playFuel c) initialBoard humanFirst

/-! ### `format_q_sanity` -/

/-- `format_q_sanity(agent)`, where `fmt` is the format `6.2f`. -/
def formatQSanity (fmt : Option ℚ → String) : Method ρ ξ String := do
  let q ← qValues initialBoard
  let h ← get
  let rows := (List.finRange 3).map fun r =>
    let cells := (List.finRange 3).map fun c => fmt (q (cellAt r c))
    let line := "  " ++ "  ".intercalate cells
    if r = 1 then line ++ "    [center=4]" else line
  let seen := h.agent.qTable.keys.length
  pure ("\n".intercalate (["Empty-board Q-values (first-mover's perspective):"] ++ rows
    ++ [s!"States seen: {seen}"]))

/-! ### `_CaseLogger` -/

/-- `_q_array_to_json(q)`; NaN becomes null. -/
def qArrayToJson (q : Row) : List (Option ℚ) := List.ofFn q

structure Snapshot where
  ep : ℕ
  q : List (Option ℚ)
deriving DecidableEq

structure CaseLogger where
  state : Board
  snapshots : List Snapshot
  lastQ : Option (List (Option ℚ))

/-- `logger.record(global_ep, agent)`; the logger as it is afterwards. -/
def CaseLogger.record (logger : CaseLogger) (globalEp : ℕ) : Method ρ ξ CaseLogger := do
  let seen ← hasState logger.state
  if seen = false then pure logger
  else do
    let q ← qValues logger.state
    let qList := qArrayToJson q
    if logger.lastQ = none ∨ some qList ≠ logger.lastQ then
      pure { logger with
        lastQ := some qList
        snapshots := logger.snapshots ++ [⟨globalEp, qList⟩] }
    else pure logger

end MyTests.RlTtt
