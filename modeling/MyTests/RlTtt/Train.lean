/-
MyTests/RlTtt/Train.lean

The loops of `rl_ttt/train.py`: one episode, the evaluation, and the two
training phases.

The loops run on a `World`: the host and a record of what happened.  The record
is written by the episode alone.  The agent and the opponents run on the host
and cannot see it (`onHost`), so a statement about the record is a statement
about the episode, whatever the opponent does.

`while True` is a recursion on a number of plies left, which is never used up
(`episodeLoop_total`).  The progress bar of the training loop is left out.
-/
import MyTests.RlTtt.Opponents

namespace MyTests.RlTtt

open Lib

variable {ρ ξ : Type} (G : Generator ρ)

/-! ### The record of a session -/

/-- What an episode records: its first mover, its plies (each with the board
that the mover saw), and its calls of `agent.update`. -/
inductive Event
  | start (train traineeFirst : Bool)
  | ply (train byTrainee : Bool) (board : Board) (action : ℤ)
  | update (s : Board) (a : Fin 9) (reward : ℚ) (sNext : Option Board)

structure World (ρ ξ : Type) where
  host : Host ρ ξ
  trace : List Event

/-- A function of `train.py`. -/
abbrev Session (ρ ξ α : Type) := Proc PyErr (World ρ ξ) α

def onHost {α : Type} (x : Method ρ ξ α) : Session ρ ξ α :=
  onPart World.host (fun h w => { w with host := h }) x

def record (e : Event) : Session ρ ξ Unit :=
  modify fun w => { w with trace := w.trace ++ [e] }

/-- `agent.update(s, a, reward, s_next)` of an episode. -/
def agentUpdate (s : Board) (a : Fin 9) (reward : ℚ) (sNext : Option Board) :
    Session ρ ξ Unit := do
  record (.update s a reward sNext)
  onHost (update s a reward sNext)

/-! ### One episode -/

/-- `bool(rng.integers(2))`. -/
def coinFlip (rng : GenId) : Method ρ ξ Bool := pick G.integers rng [false, true] (by simp)

/-- `if train and last_s is not None: agent.update(last_s, last_a, ...)`. -/
def updateLast (train : Bool) (last : Option (Board × Fin 9)) (reward : ℚ)
    (sNext : Option Board) : Session ρ ξ Unit :=
  match train, last with
  | true, some (lastS, lastA) => agentUpdate lastS lastA reward sNext
  | _, _ => pure ()

/-- `while True` of `_run_episode`; `last` is the buffered pair of `last_s` and
`last_a`. -/
def episodeLoop (opponent : Player ρ ξ) (rng : GenId) (train : Bool) :
    ℕ → Bool → Board → Option (Board × Fin 9) → Session ρ ξ ℤ
  | 0, _, _, _ => throw .outOfFuel
  | fuel + 1, true, board, _ => do
      let a ← onHost (selectAction G board)
      let newBoard ← orRaise (applyMove board (a : ℕ))
      record (.ply train true board (a : ℕ))
      let done := (isTerminal newBoard).1
      let reward := (isTerminal newBoard).2
      if done then
        updateLast train (some (board, a)) reward none
        pure reward
      else episodeLoop opponent rng train fuel false (flipPerspective newBoard) (some (board, a))
  | fuel + 1, false, board, last => do
      let aOpp ← onHost (opponent board (some rng))
      let newBoard ← orRaise (applyMove board aOpp)
      record (.ply train false board aOpp)
      let done := (isTerminal newBoard).1
      let rewardForOpp := (isTerminal newBoard).2
      if done then
        let traineeReward := -rewardForOpp
        updateLast train last traineeReward none
        pure traineeReward
      else
        let traineeNextBoard := flipPerspective newBoard
        updateLast train last 0 (some traineeNextBoard)
        episodeLoop opponent rng train fuel true traineeNextBoard last

/-- `_run_episode(agent, opponent, rng, train)`. -/
def runEpisode (opponent : Player ρ ξ) (rng : GenId) (train : Bool) : Session ρ ξ ℤ := do
  let traineeToMove ← onHost (coinFlip G rng)
  record (.start train traineeToMove)
  episodeLoop G opponent rng train 9 traineeToMove initialBoard none

/-! ### Evaluation -/

structure EvalResult where
  win : ℚ
  draw : ℚ
  loss : ℚ

/-- The counters of `evaluate`. -/
structure Tally where
  win : ℕ
  draw : ℕ
  loss : ℕ

def Tally.count (c : Tally) (r : ℤ) : Tally :=
  if r > 0 then { c with win := c.win + 1 }
  else if r < 0 then { c with loss := c.loss + 1 }
  else { c with draw := c.draw + 1 }

/-- `for _ in range(n_games)`. -/
def evalGames (opponent : Player ρ ξ) (rng : GenId) : ℕ → Tally → Session ρ ξ Tally
  | 0, c => pure c
  | n + 1, c => do
      let r ← runEpisode G opponent rng false
      evalGames opponent rng n (c.count r)

def World.setEpsilon (w : World ρ ξ) (eps : ℚ) : World ρ ξ :=
  { w with host := { w.host with agent := { w.host.agent with epsilon := eps } } }

def evaluate (opponent : Player ρ ξ) (nGames : ℕ) (rng : GenId) : Session ρ ξ EvalResult := do
  let w ← get
  let originalEps := w.host.agent.epsilon
  modify fun w => w.setEpsilon 0
  let c ← andFinally (evalGames G opponent rng nGames ⟨0, 0, 0⟩) fun w => w.setEpsilon originalEps
  if nGames = 0 then throw (.zeroDivisionError "float division by zero")
  else pure ⟨c.win / nGames, c.draw / nGames, c.loss / nGames⟩

/-- A row of the history. -/
structure EvalRow where
  episode : ℕ
  epsilon : ℚ
  qtableSize : ℕ
  vsRandom : EvalResult
  vsMinimax : EvalResult

/-- `_eval_cycle`. -/
def evalCycle (episode nGames : ℕ) (rng : GenId) : Session ρ ξ EvalRow := do
  let vsRandom ← evaluate G (randomPlayer G) nGames rng
  let vsMinimax ← evaluate G minimaxPlayer nGames rng
  let w ← get
  pure ⟨episode, w.host.agent.epsilon, w.host.agent.qTable.keys.length, vsRandom, vsMinimax⟩

/-! ### Training -/

structure TrainConfig where
  episodes : ℕ
  alpha : ℚ
  gamma : ℚ
  epsStart : ℚ
  epsEnd : ℚ
  epsDecayEpisodes : ℤ
  evalEvery : ℕ
  evalGamesPerOpponent : ℕ
  /-- not negative: of a negative seed `np.random.default_rng` makes no generator -/
  seed : ℤ

def epsilonSchedule (episode : ℕ) (epsStart epsEnd : ℚ) (decayEpisodes : ℤ) : ℚ :=
  if decayEpisodes ≤ 0 ∨ episode ≥ decayEpisodes then epsEnd
  else epsStart + (epsEnd - epsStart) * (episode / decayEpisodes)

/-- `per_episode_callback`. -/
abbrev Callback (ρ ξ : Type) := ℕ → Method ρ ξ Unit

/-- `if per_episode_callback is not None: per_episode_callback(ep, agent)`. -/
def runCallback : Option (Callback ρ ξ) → ℕ → Session ρ ξ Unit
  | some cb, ep => onHost (cb ep)
  | none, _ => pure ()

/-- A training episode with its epsilon and its callback. -/
def trainOne (opponent : Player ρ ξ) (cfg : TrainConfig) (rng : GenId)
    (callback : Option (Callback ρ ξ)) (ep : ℕ) : Session ρ ξ Unit := do
  modify fun w =>
    w.setEpsilon (epsilonSchedule ep cfg.epsStart cfg.epsEnd cfg.epsDecayEpisodes)
  let _ ← runEpisode G opponent rng true
  runCallback callback ep

/-- `if (ep + 1) % cfg.eval_every == 0: history.append(...)`. -/
def evalIfDue (cfg : TrainConfig) (evalRng : GenId) (ep : ℕ) (history : List EvalRow) :
    Session ρ ξ (List EvalRow) := do
  if cfg.evalEvery = 0 then throw (.zeroDivisionError "integer modulo by zero")
  else if (ep + 1) % cfg.evalEvery = 0 then
    let row ← evalCycle G (ep + 1) cfg.evalGamesPerOpponent evalRng
    pure (history ++ [row])
  else pure history

/-- `for ep in iterator`: the episodes `ep`, ..., `ep + n - 1`. -/
def trainEpisodes (opponent : Player ρ ξ) (cfg : TrainConfig) (rng evalRng : GenId)
    (callback : Option (Callback ρ ξ)) : ℕ → ℕ → List EvalRow → Session ρ ξ (List EvalRow)
  | 0, _, history => pure history
  | n + 1, ep, history => do
      trainOne G opponent cfg rng callback ep
      let history ← evalIfDue G cfg evalRng ep history
      trainEpisodes opponent cfg rng evalRng callback n (ep + 1) history

/-- `_training_loop`. -/
def trainingLoop (opponent : Player ρ ξ) (cfg : TrainConfig) (rng evalRng : GenId)
    (callback : Option (Callback ρ ξ)) : Session ρ ξ (List EvalRow) := do
  let history ← trainEpisodes G opponent cfg rng evalRng callback cfg.episodes 0 []
  if (history.getLast?.map EvalRow.episode) ≠ some cfg.episodes then
    let row ← evalCycle G cfg.episodes cfg.evalGamesPerOpponent evalRng
    pure (history ++ [row])
  else pure history

/-- The generator object of training, which `train_phase_1a` and
`train_phase_1b` also give to the agent. -/
def trainRng : GenId := 0

/-- The generator object `eval_rng`. -/
def evalRng : GenId := 1

/-- The two calls of `np.random.default_rng`, and the agent that trains. -/
def World.setUp (w : World ρ ξ) (defaultRng : ℤ → ρ) (cfg : TrainConfig) (table : QTable) :
    World ρ ξ :=
  { w with
    host :=
      { w.host with
        agent := ⟨cfg.alpha, cfg.gamma, cfg.epsStart, trainRng, table⟩
        gens := Function.update (Function.update w.host.gens trainRng (defaultRng cfg.seed))
          evalRng (defaultRng (cfg.seed + 10000)) } }

def trainPhase1a (defaultRng : ℤ → ρ) (cfg : TrainConfig) (callback : Option (Callback ρ ξ)) :
    Session ρ ξ (List EvalRow) := do
  modify fun w => w.setUp defaultRng cfg ∅
  trainingLoop G (randomPlayer G) cfg trainRng evalRng callback

/-- `train_phase_1b`; of a warm start only the table is kept. -/
def trainPhase1b (defaultRng : ℤ → ρ) (cfg : TrainConfig) (warmStart : Option QLearningAgent)
    (callback : Option (Callback ρ ξ)) : Session ρ ξ (List EvalRow) := do
  modify fun w => w.setUp defaultRng cfg (warmStart.elim ∅ QLearningAgent.qTable)
  trainingLoop G (selfPlayOpponent G) cfg trainRng evalRng callback

end MyTests.RlTtt
