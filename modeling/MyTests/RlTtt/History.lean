/-
MyTests/RlTtt/History.lean

The history of a training run, and how `scripts/combine_runs.py` joins those of
the two phases.

The rows of a run are the evaluations that fell due, and one at the end
(`mem_evalEpisodes`); each row has the epsilon of the episode before it.  The
table never loses a row, so its size cannot fall from one row to the next, and
a warm start carries this over from one phase to the other.

The text of the CSV files is left out: the rows are those of the dictionaries
with their numbers as numbers.
-/
import MyTests.RlTtt.TrainingPlan

namespace MyTests.RlTtt

open Lib

variable {ρ ξ : Type} {G : Generator ρ} {opponent : Player ρ ξ} {rng evalRng : GenId}
  {cfg : TrainConfig} {callback : Option (Callback ρ ξ)}

/-! ### The episodes of the rows -/

/-- The episodes up to `ep` after which an evaluation is due. -/
def dueEpisodes (every ep : ℕ) : List ℕ := ((List.range ep).map (· + 1)).filter (every ∣ ·)

/-- The episodes of the rows: those that are due, and the last one. -/
def evalEpisodes (cfg : TrainConfig) : List ℕ :=
  if (dueEpisodes cfg.evalEvery cfg.episodes).getLast? = some cfg.episodes then
    dueEpisodes cfg.evalEvery cfg.episodes
  else dueEpisodes cfg.evalEvery cfg.episodes ++ [cfg.episodes]

/-- The epsilon that an agent has after `ep` episodes. -/
def epsilonAt (cfg : TrainConfig) : ℕ → ℚ
  | 0 => cfg.epsStart
  | ep + 1 => epsilonSchedule ep cfg.epsStart cfg.epsEnd cfg.epsDecayEpisodes

theorem mem_dueEpisodes {every ep e : ℕ} :
    e ∈ dueEpisodes every ep ↔ 0 < e ∧ e ≤ ep ∧ every ∣ e := by
  simp only [dueEpisodes, List.mem_filter, List.mem_map, List.mem_range, decide_eq_true_eq]
  constructor
  · rintro ⟨⟨k, hk, rfl⟩, hd⟩
    exact ⟨Nat.succ_pos k, hk, hd⟩
  · rintro ⟨hpos, hle, hd⟩
    exact ⟨⟨e - 1, by omega, by omega⟩, hd⟩

theorem dueEpisodes_succ (every ep : ℕ) : dueEpisodes every (ep + 1)
    = if every ∣ ep + 1 then dueEpisodes every ep ++ [ep + 1] else dueEpisodes every ep := by
  unfold dueEpisodes
  rw [List.range_succ, List.map_append, List.filter_append]
  split
  · rw [List.map_singleton, List.filter_singleton, decide_eq_true ‹_›]
    rfl
  · rw [List.map_singleton, List.filter_singleton, decide_eq_false ‹_›]
    exact List.append_nil _

theorem pairwise_dueEpisodes (every ep : ℕ) : (dueEpisodes every ep).Pairwise (· < ·) := by
  refine List.Pairwise.filter _ (List.pairwise_map.mpr ?_)
  exact List.pairwise_lt_range.imp fun h => Nat.succ_lt_succ h

theorem mem_evalEpisodes {e : ℕ} : e ∈ evalEpisodes cfg
    ↔ e = cfg.episodes ∨ 0 < e ∧ e ≤ cfg.episodes ∧ cfg.evalEvery ∣ e := by
  unfold evalEpisodes
  split
  · rename_i hlast
    have hmem := mem_dueEpisodes.mp (List.mem_of_getLast? hlast)
    rw [mem_dueEpisodes]
    constructor
    · exact .inr
    · rintro (rfl | he)
      · exact hmem
      · exact he
  · rw [List.mem_append, List.mem_singleton, mem_dueEpisodes, or_comm]

theorem pairwise_evalEpisodes : (evalEpisodes cfg).Pairwise (· < ·) := by
  unfold evalEpisodes
  split
  · exact pairwise_dueEpisodes _ _
  · rename_i hlast
    refine List.pairwise_append.mpr
      ⟨pairwise_dueEpisodes _ _, List.pairwise_singleton _ _, fun e he e' he' => ?_⟩
    obtain rfl := List.mem_singleton.mp he'
    obtain ⟨hpos, hle, hd⟩ := mem_dueEpisodes.mp he
    -- were the last episode due, it would be the last of the list
    refine lt_of_le_of_ne hle fun heq => hlast ?_
    obtain ⟨k, hk⟩ : ∃ k, cfg.episodes = k + 1 := ⟨cfg.episodes - 1, by omega⟩
    rw [hk, dueEpisodes_succ, if_pos (by rw [← hk, ← heq]; exact hd), List.getLast?_concat]

theorem getLast?_evalEpisodes : (evalEpisodes cfg).getLast? = some cfg.episodes := by
  unfold evalEpisodes
  split
  · assumption
  · exact List.getLast?_concat

/-! ### The invariant of the run -/

/-- What is known with `ep` episodes done and rows for the episodes of `rows`, in a run that
started with `n₀` states. -/
structure HistoryAt (cfg : TrainConfig) (n₀ : ℕ) (rows : List ℕ) (ep : ℕ) (history : List EvalRow)
    (w : World ρ ξ) : Prop where
  playable : w.Playable
  current : w.host.agent.epsilon = epsilonAt cfg ep
  episodes : history.map EvalRow.episode = rows
  epsilon : ∀ row ∈ history, row.epsilon = epsilonAt cfg row.episode
  fractions : ∀ row ∈ history, row.vsRandom.Fractions ∧ row.vsMinimax.Fractions
  growing : history.Pairwise fun a b => a.qtableSize ≤ b.qtableSize
  since : ∀ row ∈ history, n₀ ≤ row.qtableSize
  size : ∀ row ∈ history, row.qtableSize ≤ w.host.agent.qTable.keys.length
  start : n₀ ≤ w.host.agent.qTable.keys.length

/-- The part of the invariant that is about the table. -/
def Sizes (n₀ : ℕ) (history : List EvalRow) (w : World ρ ξ) : Prop :=
  n₀ ≤ w.host.agent.qTable.keys.length
    ∧ ∀ row ∈ history, row.qtableSize ≤ w.host.agent.qTable.keys.length

theorem sizes_growthStable (n₀ : ℕ) (history : List EvalRow) :
    GrowthStable (Sizes n₀ history : World ρ ξ → Prop) :=
  fun _ _ hgrow hw => ⟨hw.1.trans hgrow.length_keys,
    fun row hrow => (hw.2 row hrow).trans hgrow.length_keys⟩

theorem sizes_epsilonFree (n₀ : ℕ) (history : List EvalRow) :
    EpsilonFree (Sizes n₀ history : World ρ ξ → Prop) :=
  fun _ _ hw => hw

/-- A callback that returns and leaves the agent alone. -/
def QuietCallback (callback : Option (Callback ρ ξ)) : Prop :=
  ∀ cb, callback = some cb → ∀ ep h, ∃ k, exec (cb ep) h = (.ok (), k) ∧ k.agent = h.agent

theorem quietCallback_none : QuietCallback (none : Option (Callback ρ ξ)) :=
  fun _ h => absurd h (by simp)

theorem runCallback_quiet (hquiet : QuietCallback callback) (ep : ℕ) (w : World ρ ξ) :
    ∃ k, exec (runCallback callback ep) w = (.ok (), { w with host := k })
      ∧ k.agent = w.host.agent := by
  cases callback with
  | none => exact ⟨w.host, rfl, rfl⟩
  | some cb =>
      obtain ⟨k, hexec, hagent⟩ := hquiet cb rfl ep w.host
      exact ⟨k, exec_onHost hexec, hagent⟩

variable {n₀ ep : ℕ} {rows : List ℕ} {history : List EvalRow}

/-- A training episode adds no row. -/
theorem trainOne_history (hopp : Partner opponent rng) (hquiet : QuietCallback callback) :
    Returns (HistoryAt cfg n₀ rows ep history) (trainOne G opponent cfg rng callback ep)
      fun _ => HistoryAt cfg n₀ rows (ep + 1) history := by
  intro w hw
  -- an episode only adds rows to the table, and leaves epsilon alone
  have hstable : GrowthStable fun v : World ρ ξ =>
      Sizes n₀ history v ∧ v.host.agent.epsilon = epsilonAt cfg (ep + 1) :=
    fun v v' hgrow hv => ⟨sizes_growthStable n₀ history v v' hgrow hv.1,
      hgrow.epsilon.trans hv.2⟩
  obtain ⟨r, w', hexec, hplay, hsizes, heps⟩ :=
    (runEpisode_stable (G := G) hstable hopp true).exists
      (show (w.setEpsilon (epsilonAt cfg (ep + 1))).Playable ∧ _ from
        ⟨hw.playable, ⟨hw.start, hw.size⟩, rfl⟩)
  obtain ⟨k, hcallback, hagent⟩ := runCallback_quiet hquiet ep w'
  have hset : exec (modify (fun v : World ρ ξ => v.setEpsilon
      (epsilonSchedule ep cfg.epsStart cfg.epsEnd cfg.epsDecayEpisodes)) : Session ρ ξ PUnit) w
      = (.ok ⟨⟩, w.setEpsilon (epsilonAt cfg (ep + 1))) := exec_modify _ w
  unfold trainOne
  rw [exec_bind_ok hset, exec_bind_ok hexec, hcallback]
  refine ⟨?_, ?_, hw.episodes, hw.epsilon, hw.fractions, hw.growing, hw.since, ?_, ?_⟩
  · show k.agent.qTable.Playable
    rw [hagent]
    exact hplay
  · show k.agent.epsilon = _
    rw [hagent]
    exact heps
  · show ∀ row ∈ history, row.qtableSize ≤ k.agent.qTable.keys.length
    rw [hagent]
    exact hsizes.2
  · show n₀ ≤ k.agent.qTable.keys.length
    rw [hagent]
    exact hsizes.1

/-- An evaluation adds its row. -/
theorem evalCycle_history {n : ℕ} (hn : 0 < n) :
    Returns (HistoryAt (ρ := ρ) (ξ := ξ) cfg n₀ rows ep history) (evalCycle G ep n rng)
      fun row => HistoryAt cfg n₀ (rows ++ [ep]) ep (history ++ [row]) := by
  intro w hw
  obtain ⟨row, w', hexec, ⟨⟨hplay, hsizes⟩, heps⟩, hrow⟩ :=
    (evalCycle_returns (G := G) (sizes_growthStable n₀ history) (sizes_epsilonFree n₀ history) ep
      hn _).exists ⟨⟨hw.playable, hw.start, hw.size⟩, rfl⟩
  -- what is asked of every row is asked of the new one apart
  have hall : ∀ {P : EvalRow → Prop}, (∀ r ∈ history, P r) → P row →
      ∀ r ∈ history ++ [row], P r := by
    intro P hold hnew r hr
    rcases List.mem_append.mp hr with hr | hr
    · exact hold r hr
    · rwa [List.mem_singleton.mp hr]
  rw [hexec]
  refine ⟨hplay, heps.trans hw.current, ?_, hall hw.epsilon ?_,
    hall hw.fractions ⟨hrow.vsRandom, hrow.vsMinimax⟩, ?_, hall hw.since ?_, hall hsizes.2 ?_,
    hsizes.1⟩
  · rw [List.map_append, hw.episodes, List.map_singleton, hrow.episode]
  · rw [hrow.epsilon, hrow.episode, hw.current]
  · refine List.pairwise_append.mpr
      ⟨hw.growing, List.pairwise_singleton _ _, fun a ha b hb => ?_⟩
    rw [List.mem_singleton.mp hb, hrow.qtableSize]
    exact hsizes.2 a ha
  · rw [hrow.qtableSize]
    exact hsizes.1
  · exact hrow.qtableSize.le

/-- The plan of a run: rows for the episodes that were due. -/
theorem historyPlan (hopp : Partner opponent rng) (hquiet : QuietCallback callback)
    (hgames : 0 < cfg.evalGamesPerOpponent) :
    TrainingPlan G opponent cfg rng evalRng callback
      (fun ep => HistoryAt cfg n₀ (dueEpisodes cfg.evalEvery ep) ep)
      (fun ep => HistoryAt cfg n₀ (dueEpisodes cfg.evalEvery (ep - 1)) ep) where
  one _ _ := trainOne_history hopp hquiet
  due ep history hd hpos := by
    obtain ⟨k, rfl⟩ : ∃ k, ep = k + 1 := ⟨ep - 1, by omega⟩
    rw [dueEpisodes_succ, if_pos hd]
    exact evalCycle_history hgames
  notDue ep history w hd hw := by
    cases ep with
    | zero => exact absurd (Nat.dvd_zero _) hd
    | succ k =>
        rw [dueEpisodes_succ, if_neg hd]
        exact hw

theorem trainingLoop_history (hopp : Partner opponent rng) (hquiet : QuietCallback callback)
    (hevery : 0 < cfg.evalEvery) (hgames : 0 < cfg.evalGamesPerOpponent) :
    Returns (HistoryAt cfg n₀ [] 0 []) (trainingLoop G opponent cfg rng evalRng callback)
      fun history => HistoryAt cfg n₀ (evalEpisodes cfg) cfg.episodes history := by
  have hlast : ∀ {history : List EvalRow} {rows : List ℕ}, history.map EvalRow.episode = rows →
      history.getLast?.map EvalRow.episode = rows.getLast? := by
    rintro history rows rfl
    exact (List.getLast?_map ..).symm
  refine (historyPlan hopp hquiet hgames).trainingLoop hevery
    (fun history hne => ?_) fun history w heq hw => ?_
  · intro w hw
    rw [hlast hw.episodes] at hne
    rw [evalEpisodes, if_neg hne]
    exact evalCycle_history hgames w hw
  · rw [hlast hw.episodes] at heq
    rw [evalEpisodes, if_pos heq]
    exact hw

/-! ### The two phases -/

/-- The table that a phase starts from. -/
def Phase.startTable : Phase → QTable
  | .phase1a => ∅
  | .phase1b warmStart => warmStart.elim ∅ QLearningAgent.qTable

/-- What a run of a phase returns: a row for each evaluation, in order, with its epsilon. -/
structure HistoryOf (cfg : TrainConfig) (n₀ n : ℕ) (history : List EvalRow) : Prop where
  episodes : history.map EvalRow.episode = evalEpisodes cfg
  epsilon : ∀ row ∈ history, row.epsilon = epsilonAt cfg row.episode
  fractions : ∀ row ∈ history, row.vsRandom.Fractions ∧ row.vsMinimax.Fractions
  growing : history.Pairwise fun a b => a.qtableSize ≤ b.qtableSize
  between : ∀ row ∈ history, n₀ ≤ row.qtableSize ∧ row.qtableSize ≤ n

/-- **A training run returns its history**: one row for each multiple of `eval_every` and one for
the last episode, each with the epsilon of the episode before it and with fractions that sum to
one, and the size of the table never falls. -/
theorem phase_history (G : Generator ρ) (defaultRng : ℤ → ρ) (phase : Phase) (cfg : TrainConfig)
    {callback : Option (Callback ρ ξ)} (hquiet : QuietCallback callback)
    (htable : phase.startTable.Playable) (hevery : 0 < cfg.evalEvery)
    (hgames : 0 < cfg.evalGamesPerOpponent) (w : World ρ ξ) :
    ∃ history w', exec (phase.run G defaultRng cfg callback) w = (.ok history, w')
      ∧ w'.Playable
      ∧ HistoryOf cfg phase.startTable.keys.length w'.host.agent.qTable.keys.length history := by
  have hstart : HistoryAt cfg phase.startTable.keys.length [] 0 []
      (w.setUp defaultRng cfg phase.startTable) :=
    ⟨htable, rfl, rfl, by simp, by simp, .nil, by simp, by simp, le_rfl⟩
  have hrun : ∀ {opponent : Player ρ ξ}, Partner opponent trainRng →
      ∃ history w', exec (trainingLoop G opponent cfg trainRng evalRng callback)
        (w.setUp defaultRng cfg phase.startTable) = (.ok history, w')
      ∧ HistoryAt cfg phase.startTable.keys.length (evalEpisodes cfg) cfg.episodes history w' :=
    fun hopp => (trainingLoop_history hopp hquiet hevery hgames).exists hstart
  have hof : ∀ {history : List EvalRow} {w' : World ρ ξ},
      HistoryAt cfg phase.startTable.keys.length (evalEpisodes cfg) cfg.episodes history w' →
      HistoryOf cfg phase.startTable.keys.length w'.host.agent.qTable.keys.length history :=
    fun h => ⟨h.episodes, h.epsilon, h.fractions, h.growing,
      fun row hrow => ⟨h.since row hrow, h.size row hrow⟩⟩
  cases phase with
  | phase1a =>
      obtain ⟨history, w', hexec, hw'⟩ := hrun (randomPlayer_partner trainRng)
      exact ⟨history, w', hexec, hw'.playable, hof hw'⟩
  | phase1b warmStart =>
      obtain ⟨history, w', hexec, hw'⟩ := hrun (selfPlayOpponent_partner trainRng)
      exact ⟨history, w', hexec, hw'.playable, hof hw'⟩

/-- Three episodes, evaluated every second one. -/
def sampleRun : TrainConfig := ⟨3, 1 / 2, 1, 1, 0, 2, 2, 1, 0⟩

theorem phase_history_sample : ∃ history w',
    exec (Phase.phase1a.run lastGen (fun _ => ()) sampleRun none) (greedyWorld ∅)
      = (.ok history, w') ∧ history.map EvalRow.episode = [2, 3] := by
  obtain ⟨history, w', hexec, -, h⟩ := phase_history lastGen (fun _ => ()) .phase1a sampleRun
    quietCallback_none (fun b q hq => by simp [Phase.startTable] at hq)
    (by decide) (by decide) (greedyWorld ∅)
  exact ⟨history, w', hexec, h.episodes.trans (by decide)⟩

/-! ### `combine_runs` -/

/-- `r["episode"] = str(int(r["episode"]) + b_offset)` -/
def EvalRow.shift (bOffset : ℕ) (r : EvalRow) : EvalRow :=
  { r with episode := r.episode + bOffset }

/-- `rows_a + rows_b` of `main`, each row with its `phase`; on an empty `rows_a` there is no last
row, an index error. -/
def combine (rowsA rowsB : List EvalRow) : Option (List (String × EvalRow)) := do
  let last ← rowsA.getLast?
  let bOffset := last.episode
  pure (rowsA.map (fun r => ("1a", r)) ++ rowsB.map fun r => ("1b", r.shift bOffset))

/-- **The two phases in one file.**  After a run of phase 1a and one of phase 1b that is warm
started with its agent, the rows combine: their episodes increase strictly, up to the number
of all episodes, those of phase 1a first, and the size of the table never falls. -/
theorem combine_phases (G : Generator ρ) (defaultRng : ℤ → ρ) (cfgA cfgB : TrainConfig)
    (heveryA : 0 < cfgA.evalEvery) (hgamesA : 0 < cfgA.evalGamesPerOpponent)
    (heveryB : 0 < cfgB.evalEvery) (hgamesB : 0 < cfgB.evalGamesPerOpponent)
    (hB : 0 < cfgB.episodes) (w v : World ρ ξ) :
    ∃ rowsA w' rowsB v' rows,
      exec (trainPhase1a G defaultRng cfgA none) w = (.ok rowsA, w')
      ∧ exec (trainPhase1b G defaultRng cfgB (some w'.host.agent) none) v = (.ok rowsB, v')
      ∧ combine rowsA rowsB = some rows
      ∧ rows.map (fun r => r.2.episode)
        = evalEpisodes cfgA ++ (evalEpisodes cfgB).map (· + cfgA.episodes)
      ∧ (rows.map fun r => r.2.episode).Pairwise (· < ·)
      ∧ (rows.map fun r => r.2.episode).getLast? = some (cfgA.episodes + cfgB.episodes)
      ∧ rows.Pairwise fun a b => a.2.qtableSize ≤ b.2.qtableSize := by
  obtain ⟨rowsA, w', hexecA, hplay, hA⟩ := phase_history G defaultRng .phase1a cfgA quietCallback_none
    (fun b q hq => by simp [Phase.startTable] at hq) heveryA hgamesA w
  obtain ⟨rowsB, v', hexecB, -, hB'⟩ := phase_history G defaultRng (.phase1b (some w'.host.agent))
    cfgB quietCallback_none hplay heveryB hgamesB v
  have hlastA : rowsA.getLast?.map EvalRow.episode = some cfgA.episodes := by
    rw [← List.getLast?_map, hA.episodes, getLast?_evalEpisodes]
  obtain ⟨last, hlast, hep⟩ := Option.map_eq_some_iff.mp hlastA
  -- the episodes of 1b are shifted by the last one of 1a
  have hrows : (rowsA.map (fun r => ("1a", r)) ++ rowsB.map fun r =>
      ("1b", r.shift last.episode)).map (fun r : String × EvalRow => r.2.episode)
      = evalEpisodes cfgA ++ (evalEpisodes cfgB).map (· + cfgA.episodes) := by
    rw [List.map_append, List.map_map, List.map_map, ← hA.episodes, ← hB'.episodes, List.map_map,
      hep]
    rfl
  refine ⟨rowsA, w', rowsB, v', _, hexecA, hexecB, ?_, hrows, ?_, ?_, ?_⟩
  · rw [combine, hlast]
    rfl
  · rw [hrows]
    refine List.pairwise_append.mpr ⟨pairwise_evalEpisodes, ?_, fun e he e' he' => ?_⟩
    · exact List.pairwise_map.mpr (pairwise_evalEpisodes.imp fun h => Nat.add_lt_add_right h _)
    · obtain ⟨k, hk, rfl⟩ := List.mem_map.mp he'
      -- every row of 1b comes after the last of 1a
      have hle := mem_evalEpisodes.mp he
      have hpos := mem_evalEpisodes.mp hk
      omega
  · rw [hrows, List.getLast?_append, List.getLast?_map, getLast?_evalEpisodes]
    exact congrArg some (Nat.add_comm _ _)
  · refine List.pairwise_append.mpr ⟨?_, ?_, fun a ha b hb => ?_⟩
    · exact List.pairwise_map.mpr hA.growing
    · exact List.pairwise_map.mpr hB'.growing
    -- phase 1b starts with the table with which 1a has ended
    · obtain ⟨rowA, hrowA, rfl⟩ := List.mem_map.mp ha
      obtain ⟨rowB, hrowB, rfl⟩ := List.mem_map.mp hb
      exact (hA.between rowA hrowA).2.trans (hB'.between rowB hrowB).1

theorem combine_phases_sample : ∃ rowsA rowsB rows, combine rowsA rowsB = some rows
    ∧ rows.map (fun r => r.2.episode) = [2, 3, 5, 6] := by
  obtain ⟨rowsA, -, rowsB, -, rows, -, -, hrows, hep, -⟩ := combine_phases lastGen (fun _ => ())
    sampleRun sampleRun (by decide) (by decide) (by decide) (by decide)
    (by decide) (greedyWorld ∅) (greedyWorld ∅)
  exact ⟨rowsA, rowsB, rows, hrows, hep.trans (by decide)⟩

end MyTests.RlTtt
