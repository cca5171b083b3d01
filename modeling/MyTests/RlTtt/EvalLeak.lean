/-
MyTests/RlTtt/EvalLeak.lean

Evaluation steers training.

The greedy moves of an evaluation draw from the agent's generator, which is the
generator of training.  `countingGen` makes that visible: it counts the greedy
choices on the empty board, of which every evaluation game in which the trainee
opens has one, and shows the count in the coins that open later episodes.  The
coins of a training run with this generator are computed (`trainingLoop_coins`)
and tell apart any two schedules that do not play equally many evaluation games
before each training episode.
-/
import MyTests.RlTtt.Schedule
import MyTests.RlTtt.Minimax

namespace MyTests.RlTtt

open Lib

variable {ξ : Type}

/-! ### A generator that counts -/

/-- The first component of the state counts the choices among nine, the second
all draws.  An integer is the largest possible as long as the count is at most
`limit`, and 0 from then on. -/
def countingGen (limit : ℕ) : Generator (ℕ × ℕ) where
  random g := (0, (g.1, g.2 + 1))
  integers n hn g :=
    (if g.1 ≤ limit then ⟨n - 1, Nat.pred_lt_self hn⟩ else ⟨0, hn⟩, (g.1, g.2 + 1))
  choice n hn g := (⟨0, hn⟩, (if n = 9 then g.1 + 1 else g.1, g.2 + 1))
  random_nonneg _ := le_rfl
  random_lt_one _ := zero_lt_one

/-- An agent that does not learn, with `c` choices counted on its generator. -/
structure Counts (c : ℕ) (eps : ℚ) (h : Host (ℕ × ℕ) ξ) : Prop where
  alpha : h.agent.alpha = 0
  epsilon : h.agent.epsilon = eps
  rng : h.agent.rng = trainRng
  rows : ∀ b, h.row b = freshRow b
  seen : (h.gens trainRng).1 = c
  evalSeen : (h.gens evalRng).1 = 0

variable {limit c : ℕ} {eps : ℚ} {h : Host (ℕ × ℕ) ξ} {b : Board}

theorem Counts.playable (hh : Counts c eps h) : h.Playable := by
  intro b q hq
  have hrow : q = freshRow b := by
    rw [← hh.rows b]
    simp [Host.row, QTable.row, hq]
  subst hrow
  exact ⟨fun i hi => freshRow_eq_none.mpr hi, rowMax_freshRow⟩

theorem Counts.touch (hh : Counts c eps h) (b : Board) : Counts c eps (h.touch b) where
  alpha := hh.alpha
  epsilon := hh.epsilon
  rng := hh.rng
  rows b' := QTable.row_touch.trans (hh.rows b')
  seen := hh.seen
  evalSeen := hh.evalSeen

/-- A draw of training. -/
theorem Counts.setGen_train (hh : Counts c eps h) {c' : ℕ} {g : ℕ × ℕ} (hg : g.1 = c') :
    Counts c' eps (h.setGen trainRng g) where
  alpha := hh.alpha
  epsilon := hh.epsilon
  rng := hh.rng
  rows := hh.rows
  seen := by simp [Host.setGen, hg]
  evalSeen := by simpa [Host.setGen, evalRng, trainRng] using hh.evalSeen

/-- A draw of evaluation. -/
theorem Counts.setGen_eval (hh : Counts c eps h) {g : ℕ × ℕ} (hg : g.1 = 0) :
    Counts c eps (h.setGen evalRng g) where
  alpha := hh.alpha
  epsilon := hh.epsilon
  rng := hh.rng
  rows := hh.rows
  seen := by simpa [Host.setGen, evalRng, trainRng] using hh.seen
  evalSeen := by simp [Host.setGen, hg]

/-! ### What each part of an episode draws -/

/-- Exploring counts nothing. -/
theorem selectAction_explores :
    Keeps (Counts c 1 : Host (ℕ × ℕ) ξ → Prop) (selectAction (countingGen limit) b) := by
  intro h hh
  simp only [selectAction]
  split
  · exact hh
  · rw [exec_bind_ok (exec_get h), exec_bind_ok (exec_drawRandom _)]
    have hlt : ((countingGen limit).random (h.gens h.agent.rng)).1 < h.agent.epsilon := by
      rw [hh.epsilon]
      exact zero_lt_one
    rw [if_pos hlt, exec_pick, hh.rng]
    have hdrawn : Counts c 1 (h.setGen trainRng ((countingGen limit).random (h.gens trainRng)).2) :=
      hh.setGen_train hh.seen
    exact hdrawn.setGen_train hdrawn.seen

theorem length_candidates_freshRow (hb : b ≠ initialBoard) (m : Option ℚ) :
    (candidates (freshRow b) m).length ≠ 9 := by
  obtain ⟨i, hi⟩ : ∃ i, b i ≠ 0 := by
    by_contra hall
    push Not at hall
    exact hb (funext hall)
  have hlt : (candidates (freshRow b) m).length < (List.finRange 9).length :=
    List.length_filter_lt_length_iff_exists.mpr ⟨i, List.mem_finRange i, by
      simp [freshRow_eq_none.mpr hi]⟩
  rw [List.length_finRange] at hlt
  exact hlt.ne

theorem length_candidates_initialBoard :
    (candidates (freshRow initialBoard) (rowMax (freshRow initialBoard))).length = 9 := by
  decide +kernel

/-- A greedy move is counted on the empty board, and nowhere else. -/
theorem selectAction_exploits (hb : legalMoves b ≠ []) :
    Returns (Counts c 0 : Host (ℕ × ℕ) ξ → Prop) (selectAction (countingGen limit) b)
      fun a h => Counts (if b = initialBoard then c + 1 else c) 0 h ∧ b a = 0 := by
  intro h hh
  simp only [selectAction, dif_neg hb]
  rw [exec_bind_ok (exec_get h), exec_bind_ok (exec_drawRandom _)]
  have hlt : ¬ ((countingGen limit).random (h.gens h.agent.rng)).1 < h.agent.epsilon := by
    rw [hh.epsilon]
    exact lt_irrefl 0
  rw [if_neg hlt, exec_bind_ok exec_qValues, exec_bind_ok exec_nanmax]
  have hrow : (h.setGen h.agent.rng ((countingGen limit).random (h.gens h.agent.rng)).2).row b
      = freshRow b := hh.rows b
  rw [hrow, if_neg (rowMax_freshRow hb)]
  have hcs : candidates (freshRow b) (rowMax (freshRow b)) ≠ [] :=
    fun hnil => rowMax_freshRow hb (candidates_eq_nil.mp hnil)
  rw [dif_neg hcs, exec_pick, hh.rng]
  have hdrawn := (hh.setGen_train (g := ((countingGen limit).random (h.gens trainRng)).2) hh.seen).touch b
  refine ⟨hdrawn.setGen_train ?_, ?_⟩
  · show (if _ = 9 then (_ : ℕ × ℕ).1 + 1 else (_ : ℕ × ℕ).1) = _
    rw [hdrawn.seen]
    by_cases hinit : b = initialBoard
    · subst hinit
      rw [if_pos length_candidates_initialBoard, if_pos rfl]
    · rw [if_neg (length_candidates_freshRow hinit _), if_neg hinit]
  · by_contra hocc
    exact (mem_candidates.mp (List.get_mem _ _)).1 (freshRow_eq_none.mpr hocc)

theorem randomPlayer_train :
    Keeps (Counts c eps : Host (ℕ × ℕ) ξ → Prop) (randomPlayer (countingGen limit) b (some trainRng)) :=
  randomPlayer_keeps b trainRng fun _ _ _ hh => hh.setGen_train hh.seen

theorem randomPlayer_eval :
    Keeps (Counts c eps : Host (ℕ × ℕ) ξ → Prop) (randomPlayer (countingGen limit) b (some evalRng)) :=
  randomPlayer_keeps b evalRng fun _ _ _ hh => hh.setGen_eval hh.evalSeen

/-- Without a learning rate an update moves nothing. -/
theorem update_counts {s : Board} {a : Fin 9} {reward : ℚ} {sNext : Option Board} (ha : s a = 0)
    (hnext : ∀ s', sNext = some s' → legalMoves s' ≠ []) :
    Keeps (Counts c eps : Host (ℕ × ℕ) ξ → Prop) (update s a reward sNext) := by
  refine Sat.of_forall fun h hh => (update_sat h s a reward sNext).weaken (fun _ hs => hs) ?_
    fun _ _ he => he.elim
  intro _ k hu
  have hagent := hu.agent
  have hself : tdRow h s a reward sNext = freshRow s := by
    obtain ⟨x, hx⟩ := Option.ne_none_iff_exists'.mp (tdTarget_ne_none hh.playable hnext)
    have hva : freshRow s a = some 0 := by simp [freshRow, ha]
    rw [tdRow, hh.rows, hva, hx, hh.alpha]
    exact Function.update_eq_self_iff.mpr (by simp [hva])
  refine ⟨?_, ?_, ?_, fun b => ?_, ?_, ?_⟩
  · rw [hagent]; exact hh.alpha
  · rw [hagent]; exact hh.epsilon
  · rw [hagent]; exact hh.rng
  · by_cases hbs : b = s
    · subst hbs
      rw [Host.row, QTable.row, hu.lookup_self, hself, Option.getD_some]
    · rcases hu.lookup_of_ne b hbs with e | ⟨-, e⟩
      · rw [Host.row, QTable.row, e]
        exact hh.rows b
      · rw [Host.row, QTable.row, e, Option.getD_some]
        exact hh.rows b
  · rw [hu.gens]; exact hh.seen
  · rw [hu.gens]; exact hh.evalSeen

/-! ### The coins of the training episodes -/

def Event.coin? : Event → Option Bool
  | .start true first => some first
  | _ => none

/-- Which training episodes the trainee opened. -/
def World.coins (w : World (ℕ × ℕ) ξ) : List Bool := w.trace.filterMap Event.coin?

theorem coins_eq_trainingTrace (w : World (ℕ × ℕ) ξ) :
    w.coins = w.trainingTrace.filterMap Event.coin? := by
  have hcoin : ∀ e, Event.coin? e = none ∨ Event.training e = true := by
    rintro (⟨_ | _, _⟩ | _ | _)
    all_goals first | exact Or.inl rfl | exact Or.inr rfl
  unfold World.coins World.trainingTrace
  induction w.trace with
  | nil => rfl
  | cons e tr ih =>
      rcases hcoin e with he | he
      · cases ht : e.training
        · rw [List.filterMap_cons_none he, List.filter_cons_of_neg (by simp [ht]), ih]
        · rw [List.filterMap_cons_none he, List.filter_cons_of_pos ht, List.filterMap_cons_none he, ih]
      · rw [List.filter_cons_of_pos he, List.filterMap_cons, List.filterMap_cons, ih]

/-- The world of a run with `c` choices counted and the given coins. -/
def CountsWith (c : ℕ) (eps : ℚ) (coins : List Bool) (w : World (ℕ × ℕ) ξ) : Prop :=
  Counts c eps w.host ∧ w.coins = coins

variable {coins : List Bool} {w : World (ℕ × ℕ) ξ}

theorem onHost_counts {α : Type} {x : Method (ℕ × ℕ) ξ α} (hx : Keeps (Counts c eps) x) :
    Keeps (CountsWith c eps coins) (onHost x) := by
  refine Sat.onPart fun w hw => hx.weaken (fun s hs => hs ▸ hw.1) ?_ ?_
  · exact fun _ _ hs => ⟨hs, hw.2⟩
  · exact fun _ _ hs => ⟨hs, hw.2⟩

theorem record_counts {e : Event} (he : e.coin? = none) :
    Keeps (CountsWith c eps coins : World (ℕ × ℕ) ξ → Prop) (record e) := by
  refine Sat.modify fun w hw => ⟨hw.1, ?_⟩
  show (w.trace ++ [e]).filterMap Event.coin? = coins
  rw [List.filterMap_append, List.filterMap_cons_none he, List.filterMap_nil, List.append_nil]
  exact hw.2

theorem agentUpdate_counts {s : Board} {a : Fin 9} {reward : ℚ} {sNext : Option Board}
    (ha : s a = 0) (hnext : ∀ s', sNext = some s' → legalMoves s' ≠ []) :
    Keeps (CountsWith c eps coins : World (ℕ × ℕ) ξ → Prop) (agentUpdate s a reward sNext) :=
  Keeps.bind (record_counts rfl) fun _ => onHost_counts (update_counts ha hnext)

/-! ### Episodes -/

theorem goOn_closed : MoveClosed fun b => isTerminal b = (false, 0) :=
  fun _ _ hgo ha hdone => isTerminal_flip_go (isTerminal_place_go hgo ha hdone)

/-- The boards of a game after its first move. -/
def Opened (b : Board) : Prop := isTerminal b = (false, 0) ∧ b ≠ initialBoard

theorem flip_place_ne_initialBoard (b : Board) (i : Fin 9) :
    flipPerspective (place b i) ≠ initialBoard := by
  intro h
  have hi : (-1 : Cell) = 0 := by simpa [initialBoard] using congrFun h i
  cases hi

theorem opened_closed : MoveClosed Opened :=
  fun b i hb ha hdone => ⟨goOn_closed b i hb.1 ha hdone, flip_place_ne_initialBoard b i⟩

/-- The parts of a training episode count nothing. -/
theorem trainLoopRule : LoopRule (countingGen limit) (CountsWith (ξ := ξ) c 1 coins)
    (fun b => isTerminal b = (false, 0)) true (randomPlayer (countingGen limit)) trainRng where
  closed := goOn_closed
  select _ _ := onHost_counts selectAction_explores
  player _ _ := onHost_counts randomPlayer_train
  ply _ _ _ := record_counts rfl
  update _ s a reward sNext hargs := by
    obtain ⟨-, ha, hargs⟩ := hargs
    refine agentUpdate_counts ha fun s' hs' => ?_
    rcases hargs with ⟨hnone, -⟩ | ⟨-, s'', hs'', hB⟩
    · rw [hnone] at hs'
      cases hs'
    · rw [hs''] at hs'
      obtain rfl := Option.some.inj hs'
      exact (isTerminal_eq_false.mp hB).2

/-- After the first move an evaluation game counts nothing. -/
theorem evalLoopRule {opponent : Player (ℕ × ℕ) ξ}
    (hopp : ∀ b, Keeps (Counts c 0) (opponent b (some evalRng))) :
    LoopRule (countingGen limit) (CountsWith c 0 coins) Opened false opponent evalRng where
  closed := opened_closed
  select b hb := onHost_counts <|
    (selectAction_exploits (isTerminal_eq_false.mp hb.1).2).weaken (fun _ hs => hs)
      (fun _ _ hs => by
        have hcount := hs.1
        rwa [if_neg hb.2] at hcount)
      fun _ _ he => he.elim
  player b _ := onHost_counts (hopp b)
  ply _ _ _ := record_counts rfl
  update h := by cases h

theorem exec_coinFlip (id : GenId) : exec (coinFlip (countingGen limit) id) h
    = (.ok (decide ((h.gens id).1 ≤ limit)), h.setGen id ((h.gens id).1, (h.gens id).2 + 1)) := by
  unfold coinFlip
  rw [exec_pick]
  by_cases hle : (h.gens id).1 ≤ limit <;> simp [countingGen, hle]

/-- **A training episode shows the count in its coin.** -/
theorem trainEpisode_counts : Returns (CountsWith (ξ := ξ) c 1 coins)
    (runEpisode (countingGen limit) (randomPlayer (countingGen limit)) trainRng true)
    fun _ => CountsWith c 1 (coins ++ [decide (c ≤ limit)]) := by
  intro w hw
  unfold runEpisode
  rw [exec_bind_ok (exec_onHost (exec_coinFlip _)), exec_bind_ok (exec_record _)]
  refine Keeps.returns (trainLoopRule.episodeLoop 9 _ initialBoard none isTerminal_initialBoard
    (by simp)) (episodeLoop_total (randomPlayer_legal _ _) 9 _ initialBoard none
    isTerminal_initialBoard (by simp) empties_initialBoard.le) (fun _ h => h.1.playable) _ ⟨?_, ?_⟩
  · exact hw.1.setGen_train hw.1.seen
  · show (w.trace ++ [_]).filterMap Event.coin? = _
    rw [List.filterMap_append, hw.1.seen]
    exact congrArg (· ++ _) hw.2

/-- **An evaluation game is counted once.** -/
theorem evalGame_counts {opponent : Player (ℕ × ℕ) ξ}
    (hopp : ∀ c b, Keeps (Counts c 0) (opponent b (some evalRng)))
    (hlegal : LegalPlayer opponent evalRng) :
    Returns (CountsWith c 0 coins) (runEpisode (countingGen limit) opponent evalRng false)
      fun _ => CountsWith (c + 1) 0 coins := by
  intro w hw
  unfold runEpisode
  rw [exec_bind_ok (exec_onHost (exec_coinFlip _)), exec_bind_ok (exec_record _)]
  have hfirst : decide ((w.host.gens evalRng).1 ≤ limit) = true := by
    simp [hw.1.evalSeen]
  rw [hfirst]
  -- the trainee opens
  obtain ⟨a, k, hselect, hk, ha⟩ := (selectAction_exploits (b := initialBoard)
    (isTerminal_eq_false.mp isTerminal_initialBoard).2).exists
    (hw.1.setGen_eval (g := ((w.host.gens evalRng).1, (w.host.gens evalRng).2 + 1)) hw.1.evalSeen)
  rw [if_pos rfl] at hk
  have hdone : ∀ a, isTerminal (place initialBoard a) = (false, 0) := by
    decide
  have hopened : Opened (flipPerspective (place initialBoard a)) :=
    ⟨isTerminal_flip_go (hdone a), flip_place_ne_initialBoard _ _⟩
  unfold episodeLoop
  rw [exec_bind_ok (exec_onHost hselect), applyMove_of_legal ha, exec_bind_ok (exec_orRaise _ _),
    exec_bind_ok (exec_record _)]
  simp only [hdone, Bool.false_eq_true, if_false]
  refine Keeps.returns ((evalLoopRule (hopp (c + 1))).episodeLoop 8 false _ (some (initialBoard, a))
    hopened fun h => absurd h Bool.false_ne_true)
    (episodeLoop_total hlegal 8 false _ (some (initialBoard, a)) hopened.1 (by simpa using ha) ?_)
    (fun _ h => h.1.playable) _ ⟨hk, ?_⟩
  · have hless := empties_flip_place ha
    rw [empties_initialBoard] at hless
    omega
  · show ((w.trace ++ [_]) ++ [_]).filterMap Event.coin? = coins
    rw [List.append_assoc, List.filterMap_append]
    exact (List.append_nil _).trans hw.2

/-! ### Evaluation -/

variable {opponent : Player (ℕ × ℕ) ξ}

theorem evalGames_counts (hopp : ∀ c b, Keeps (Counts c 0) (opponent b (some evalRng)))
    (hlegal : LegalPlayer opponent evalRng) (n : ℕ) (tally : Tally) :
    Returns (CountsWith c 0 coins) (evalGames (countingGen limit) opponent evalRng n tally)
      fun _ => CountsWith (c + n) 0 coins := by
  induction n generalizing c tally with
  | zero => exact Sat.pure fun _ hw => hw
  | succ n ih =>
      refine Sat.bind (evalGame_counts hopp hlegal) fun r => ?_
      rw [show c + (n + 1) = c + 1 + n by omega]
      exact ih _

theorem CountsWith.setEpsilon (hw : CountsWith c eps coins w) (eps' : ℚ) :
    CountsWith c eps' coins (w.setEpsilon eps') :=
  ⟨⟨hw.1.alpha, rfl, hw.1.rng, hw.1.rows, hw.1.seen, hw.1.evalSeen⟩, hw.2⟩

theorem evaluate_counts (hopp : ∀ c b, Keeps (Counts c 0) (opponent b (some evalRng)))
    (hlegal : LegalPlayer opponent evalRng) {n : ℕ} (hn : 1 ≤ n) :
    Returns (CountsWith c eps coins) (evaluate (countingGen limit) opponent n evalRng)
      fun _ => CountsWith (c + n) eps coins := by
  intro w hw
  unfold evaluate
  rw [exec_bind_ok (exec_get w), exec_bind_ok (exec_modify _ w)]
  obtain ⟨tally, w', hexec, hw'⟩ :=
    (evalGames_counts hopp hlegal n ⟨0, 0, 0⟩).exists (hw.setEpsilon 0)
  have hfinally : exec (andFinally (evalGames (countingGen limit) opponent evalRng n ⟨0, 0, 0⟩)
      fun v => v.setEpsilon w.host.agent.epsilon) (w.setEpsilon 0)
      = (.ok tally, w'.setEpsilon w.host.agent.epsilon) := by
    rw [exec_andFinally, hexec]
  rw [exec_bind_ok hfinally, if_neg (by omega), hw.1.epsilon]
  exact hw'.setEpsilon eps

theorem minimaxPlayer_legal (id : GenId) : LegalPlayer (minimaxPlayer : Player (ℕ × ℕ) ξ) id := by
  intro b hgo h hh
  rw [exec_minimaxPlayer hgo]
  exact ⟨hh, bestMove b, mem_legalMoves.mp (bestMove_optimal b (outcome_eq_none.mpr hgo)).1, rfl⟩

/-- An evaluation cycle is counted once for every game. -/
theorem evalCycle_counts (ep : ℕ) {n : ℕ} (hn : 1 ≤ n) :
    Returns (CountsWith (ξ := ξ) c eps coins) (evalCycle (countingGen limit) ep n evalRng)
      fun _ => CountsWith (c + 2 * n) eps coins := by
  refine Sat.bind (evaluate_counts (fun _ _ => randomPlayer_eval) (randomPlayer_legal _ _) hn)
    fun vsRandom => ?_
  refine Sat.bind (evaluate_counts (fun _ _ => minimaxPlayer_keeps _ _) (minimaxPlayer_legal _) hn)
    fun vsMinimax => ?_
  refine Sat.bind (Sat.get (Q := fun _ => CountsWith (c + n + n) eps coins) fun _ hw => hw) fun _ => ?_
  exact Sat.pure fun _ hw => by rwa [show c + 2 * n = c + n + n by omega]

/-! ### Training runs -/

/-- An agent that always explores and does not learn. -/
def exploringConfig (episodes evalEvery evalGamesPerOpponent : ℕ) : TrainConfig where
  episodes := episodes
  alpha := 0
  gamma := 1
  epsStart := 1
  epsEnd := 1
  epsDecayEpisodes := 0
  evalEvery := evalEvery
  evalGamesPerOpponent := evalGamesPerOpponent
  seed := 0

variable {episodes e g : ℕ}

theorem trainOne_counts (ep : ℕ) :
    Returns (CountsWith (ξ := ξ) c 1 coins)
      (trainOne (countingGen limit) (randomPlayer (countingGen limit)) (exploringConfig episodes e g)
        trainRng none ep)
      fun _ => CountsWith c 1 (coins ++ [decide (c ≤ limit)]) := by
  refine Sat.bind (Sat.modify fun w hw => ?_) fun _ => Sat.bind trainEpisode_counts fun _ =>
    Sat.pure fun _ hw => hw
  have heps : epsilonSchedule ep 1 1 0 = 1 := by simp [epsilonSchedule]
  show CountsWith c 1 coins (w.setEpsilon (epsilonSchedule ep 1 1 0))
  rw [heps]
  exact hw.setEpsilon 1

/-- The evaluation games before episode `ep`. -/
def gamesBefore (e g ep : ℕ) : ℕ := 2 * g * (ep / e)

theorem evalIfDue_counts (hg : 1 ≤ g) (he : 1 ≤ e) (ep : ℕ) (history : List EvalRow) :
    Returns (CountsWith (ξ := ξ) (gamesBefore e g ep) 1 coins)
      (evalIfDue (countingGen limit) (exploringConfig episodes e g) evalRng ep history)
      fun _ => CountsWith (gamesBefore e g (ep + 1)) 1 coins := by
  unfold evalIfDue
  have hnext : (ep + 1) / e = ep / e + if (ep + 1) % e = 0 then 1 else 0 := by
    rw [Nat.succ_div]
    simp only [Nat.dvd_iff_mod_eq_zero]
  have hpos : ¬ (exploringConfig episodes e g).evalEvery = 0 := Nat.pos_iff_ne_zero.mp he
  rw [if_neg hpos, gamesBefore, gamesBefore, hnext]
  split
  · rename_i hdue
    have hdue' : (ep + 1) % e = 0 := hdue
    rw [if_pos hdue', Nat.mul_add, Nat.mul_one]
    exact Sat.bind (evalCycle_counts (ep + 1) hg) fun row => Sat.pure fun _ hw => hw
  · rename_i hdue
    have hdue' : ¬ (ep + 1) % e = 0 := hdue
    rw [if_neg hdue', Nat.add_zero]
    exact Sat.pure fun _ hw => hw

/-- The coins of episodes `ep`, ..., `ep + n - 1`. -/
def coinsFrom (limit e g ep n : ℕ) : List Bool :=
  (List.range' ep n).map fun q => decide (gamesBefore e g q ≤ limit)

theorem trainEpisodes_counts (hg : 1 ≤ g) (he : 1 ≤ e) (n : ℕ) :
    ∀ (ep : ℕ) (history : List EvalRow) (coins : List Bool),
      Returns (CountsWith (ξ := ξ) (gamesBefore e g ep) 1 coins)
        (trainEpisodes (countingGen limit) (randomPlayer (countingGen limit))
          (exploringConfig episodes e g) trainRng evalRng none n ep history)
        fun _ => CountsWith (gamesBefore e g (ep + n)) 1 (coins ++ coinsFrom limit e g ep n) := by
  induction n with
  | zero => exact fun ep history coins => Sat.pure fun _ hw => by simpa [coinsFrom] using hw
  | succ n ih =>
      intro ep history coins
      refine Sat.bind (trainOne_counts ep) fun _ => Sat.bind (evalIfDue_counts hg he ep history)
        fun history => ?_
      have hrest : coins ++ coinsFrom limit e g ep (n + 1)
          = coins ++ [decide (gamesBefore e g ep ≤ limit)] ++ coinsFrom limit e g (ep + 1) n := by
        simp [coinsFrom, List.range'_succ]
      rw [hrest, show ep + (n + 1) = ep + 1 + n by omega]
      exact ih (ep + 1) history _

/-- **The coins of a training run** tell how many evaluation games each episode
follows. -/
theorem trainingLoop_coins (hg : 1 ≤ g) (he : 1 ≤ e) (hw : CountsWith 0 1 [] w) :
    (exec (trainingLoop (countingGen limit) (randomPlayer (countingGen limit))
      (exploringConfig episodes e g) trainRng evalRng none) w).2.coins
      = coinsFrom limit e g 0 episodes := by
  have hrun : Returns (CountsWith (ξ := ξ) (gamesBefore e g 0) 1 [])
      (trainingLoop (countingGen limit) (randomPlayer (countingGen limit))
        (exploringConfig episodes e g) trainRng evalRng none)
      fun _ w => w.coins = coinsFrom limit e g 0 episodes := by
    refine Sat.bind (trainEpisodes_counts hg he _ 0 [] []) fun history => ?_
    split
    · exact Sat.bind (evalCycle_counts _ hg) fun row => Sat.pure fun _ hw => hw.2
    · exact Sat.pure fun _ hw => hw.2
  obtain ⟨_, w', hexec, hcoins⟩ := hrun.exists (by simpa [gamesBefore] using hw)
  rw [hexec]
  exact hcoins

/-! ### When the schedule is invisible -/

/-- A world before training. -/
def startWorld : World (ℕ × ℕ) Unit := ⟨⟨⟨0, 1, 1, 0, ∅⟩, fun _ => (0, 0), [], ()⟩, []⟩

theorem phase1a_coins (limit : ℕ) (hg : 1 ≤ g) (he : 1 ≤ e) :
    (exec (Phase.phase1a.run (countingGen limit) (fun _ => (0, 0)) (exploringConfig episodes e g)
      none) startWorld).2.coins = coinsFrom limit e g 0 episodes := by
  show (exec (trainPhase1a _ _ _ _) startWorld).2.coins = _
  unfold trainPhase1a
  rw [exec_bind_ok (exec_modify _ _)]
  refine trainingLoop_coins hg he ⟨⟨rfl, rfl, rfl, fun b => ?_, ?_, ?_⟩, rfl⟩
  · show (AList.lookup b (∅ : QTable)).getD (freshRow b) = freshRow b
    rw [AList.lookup_empty, Option.getD_none]
  · rfl
  · rfl

/-- Where the schedule makes no difference, each episode follows equally many
evaluation games. -/
theorem SameTraining.gamesBefore_eq {e₁ g₁ e₂ g₂ : ℕ} (h : SameTraining episodes e₁ g₁ e₂ g₂)
    (he₁ : 1 ≤ e₁) (hg₁ : 1 ≤ g₁) (he₂ : 1 ≤ e₂) (hg₂ : 1 ≤ g₂) {q : ℕ} (hq : q < episodes) :
    gamesBefore e₁ g₁ q = gamesBefore e₂ g₂ q := by
  have hcoins : ∀ limit, coinsFrom limit e₁ g₁ 0 episodes = coinsFrom limit e₂ g₂ 0 episodes := by
    intro limit
    have hsame := (h (ℕ × ℕ) Unit (countingGen limit) (fun _ => (0, 0)) .phase1a
      (exploringConfig episodes 1 1) none startWorld rfl).1
    rw [← phase1a_coins limit hg₁ he₁, ← phase1a_coins limit hg₂ he₂, coins_eq_trainingTrace,
      coins_eq_trainingTrace]
    exact congrArg (List.filterMap Event.coin?) hsame.symm
  have hle : ∀ limit, gamesBefore e₁ g₁ q ≤ limit ↔ gamesBefore e₂ g₂ q ≤ limit := by
    intro limit
    have hmem : q ∈ List.range' 0 episodes := List.mem_range'_1.mpr ⟨Nat.zero_le q, by omega⟩
    exact decide_eq_decide.mp (List.map_inj_left.mp (hcoins limit) q hmem)
  exact le_antisymm ((hle _).mpr le_rfl) ((hle _).mp le_rfl)

/-- Equally many games before every episode: no games at all, or one schedule. -/
theorem schedules_of_gamesBefore {e₁ g₁ e₂ g₂ : ℕ} (he₁ : 1 ≤ e₁) (hg₁ : 1 ≤ g₁) (he₂ : 1 ≤ e₂)
    (hg₂ : 1 ≤ g₂) (h : ∀ q < episodes, gamesBefore e₁ g₁ q = gamesBefore e₂ g₂ q) :
    (episodes ≤ e₁ ∧ episodes ≤ e₂) ∨ (e₁ = e₂ ∧ g₁ = g₂) := by
  -- the first evaluation of one schedule is at the same time one of the other
  have hfirst : ∀ e g e' g', 1 ≤ e → 1 ≤ g → e < episodes →
      (∀ q < episodes, gamesBefore e g q = gamesBefore e' g' q) → e' ≤ e := by
    intro e g e' g' he hg hlt hq
    have hat := hq e hlt
    rw [gamesBefore, gamesBefore, Nat.div_self he] at hat
    by_contra hgt
    rw [Nat.div_eq_of_lt (by omega)] at hat
    omega
  by_cases h₁ : episodes ≤ e₁
  · by_cases h₂ : episodes ≤ e₂
    · exact Or.inl ⟨h₁, h₂⟩
    · have hle := hfirst e₂ g₂ e₁ g₁ he₂ hg₂ (by omega) fun q hq => (h q hq).symm
      omega
  · have hle : e₂ ≤ e₁ := hfirst e₁ g₁ e₂ g₂ he₁ hg₁ (by omega) h
    have hge : e₁ ≤ e₂ := hfirst e₂ g₂ e₁ g₁ he₂ hg₂ (by omega) fun q hq => (h q hq).symm
    obtain rfl : e₁ = e₂ := le_antisymm hge hle
    have hat := h e₁ (by omega)
    rw [gamesBefore, gamesBefore, Nat.div_self he₁] at hat
    exact Or.inr ⟨rfl, by omega⟩

/-- **When evaluation does not influence training.**  Two evaluation schedules
make no difference, whatever the generators, the phase and the configuration,
exactly if no evaluation comes before the last episode or the schedules are the
same. -/
theorem sameTraining_iff (episodes e₁ g₁ e₂ g₂ : ℕ) (he₁ : 1 ≤ e₁) (hg₁ : 1 ≤ g₁) (he₂ : 1 ≤ e₂)
    (hg₂ : 1 ≤ g₂) :
    SameTraining episodes e₁ g₁ e₂ g₂
      ↔ (episodes ≤ e₁ ∧ episodes ≤ e₂) ∨ (e₁ = e₂ ∧ g₁ = g₂) := by
  constructor
  · exact fun h => schedules_of_gamesBefore he₁ hg₁ he₂ hg₂ fun q hq =>
      h.gamesBefore_eq he₁ hg₁ he₂ hg₂ hq
  · rintro (⟨h₁, h₂⟩ | ⟨rfl, rfl⟩)
    · exact sameTraining_of_late h₁ h₂
    · exact fun _ _ _ _ _ _ _ _ _ => SameLearning.refl _

theorem sameTraining_iff_late : SameTraining 100 100 200 1000 50 :=
  (sameTraining_iff 100 100 200 1000 50 (by decide) (by decide) (by decide) (by decide)).mpr
    (Or.inl ⟨le_rfl, by decide⟩)

/-- Two episodes against the random player, evaluated after each of them or
only after the second: the second episode opens differently. -/
theorem evaluation_steers_training :
    ¬ SameLearning
      (exec (Phase.phase1a.run (countingGen 1) (fun _ => (0, 0)) (exploringConfig 2 1 1) none)
        startWorld).2
      (exec (Phase.phase1a.run (countingGen 1) (fun _ => (0, 0)) (exploringConfig 2 2 1) none)
        startWorld).2 := by
  intro h
  have hcoins := congrArg (List.filterMap Event.coin?) h.1
  rw [← coins_eq_trainingTrace, ← coins_eq_trainingTrace, phase1a_coins 1 le_rfl one_le_two,
    phase1a_coins 1 le_rfl le_rfl] at hcoins
  exact absurd hcoins (by decide)

end MyTests.RlTtt
