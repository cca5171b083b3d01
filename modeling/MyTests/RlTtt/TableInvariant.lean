/-
MyTests/RlTtt/TableInvariant.lean

The invariant of the Q-table.

Every key is a board on which the side to move of a legal game may find itself
(`LegalPosition`), every row has its numbers on the empty cells, and the
numbers stay in [-1, 1] (`SoundRow`).  Whatever the repository does with an
agent keeps this (`AgentStep.sound`): episodes through `EpisodeRule`, whose
boards are the legal positions, and the interactive game through an invariant
of its absolute board.
-/
import MyTests.RlTtt.LoopRules
import MyTests.RlTtt.Schedule
import MyTests.RlTtt.Play

namespace MyTests.RlTtt

open Lib

variable {ρ ξ : Type} {G : Generator ρ} {b : Board} {i : Fin 9}

/-! ### Legal positions -/

/-- The cells that hold `c`. -/
def cells (b : Board) (c : Cell) : Finset (Fin 9) := Finset.univ.filter fun i => b i = c

/-- How many pieces the side to move is ahead. -/
def balance (b : Board) : ℤ := (cells b ME).card - (cells b OPP).card

/-- A board on which the side to move of a legal game chooses. -/
structure LegalPosition (b : Board) : Prop where
  noLine : ¬ HasLine b ME ∧ ¬ HasLine b OPP
  empty : ∃ i, b i = EMPTY
  turn : balance b = 0 ∨ balance b = -1

theorem LegalPosition.isTerminal (hb : LegalPosition b) : isTerminal b = (false, 0) := by
  obtain ⟨i, hi⟩ := hb.empty
  exact isTerminal_eq_false.mpr ⟨winner_eq_zero.mpr hb.noLine,
    List.ne_nil_of_mem (mem_legalMoves.mpr hi)⟩

theorem LegalPosition.moves (hb : LegalPosition b) : legalMoves b ≠ [] :=
  (isTerminal_eq_false.mp hb.isTerminal).2

theorem balance_flipPerspective (b : Board) : balance (flipPerspective b) = -balance b := by
  have hcells : ∀ c, cells (flipPerspective b) c = cells b (-c) := by
    intro c
    simp [cells, neg_eq_iff_eq_neg]
  simp [balance, hcells]

theorem balance_place (hi : b i = 0) : balance (place b i) = balance b + 1 := by
  have hme : cells (place b i) ME = insert i (cells b ME) := by
    ext j
    by_cases hj : j = i
    · subst hj
      simp [cells]
    · simp [cells, place_of_ne hj, hj]
  have hopp : cells (place b i) OPP = cells b OPP := by
    ext j
    by_cases hj : j = i
    · subst hj
      simp [cells, hi]
    · simp [cells, place_of_ne hj]
  have hnew : i ∉ cells b ME := by simp [cells, hi]
  rw [balance, balance, hme, hopp, Finset.card_insert_of_notMem hnew]
  push_cast
  ring

/-- Moves keep the turns in order. -/
theorem turn_child (hb : balance b = 0 ∨ balance b = -1) (hi : b i = 0) :
    balance (flipPerspective (place b i)) = 0 ∨ balance (flipPerspective (place b i)) = -1 := by
  rw [balance_flipPerspective, balance_place hi]
  omega

theorem legalPosition_of_turn (hgo : RlTtt.isTerminal b = (false, 0))
    (hb : balance b = 0 ∨ balance b = -1) : LegalPosition b where
  noLine := winner_eq_zero.mp (isTerminal_eq_false.mp hgo).1
  empty := by
    obtain ⟨i, hi⟩ := List.exists_mem_of_ne_nil _ (isTerminal_eq_false.mp hgo).2
    exact ⟨i, mem_legalMoves.mp hi⟩
  turn := hb

theorem legalPosition_closed : MoveClosed LegalPosition :=
  fun _ _ hb hi hdone => legalPosition_of_turn
    (isTerminal_flip_go (isTerminal_place_go hb.isTerminal hi hdone)) (turn_child hb.turn hi)

theorem balance_initialBoard : balance initialBoard = 0 := by
  decide

theorem legalPosition_initialBoard : LegalPosition initialBoard :=
  legalPosition_of_turn isTerminal_initialBoard (Or.inl balance_initialBoard)

/-! ### Sound rows -/

/-- A row as it should be: numbers in [-1, 1] on the empty cells of a legal
position, NaN elsewhere. -/
structure SoundRow (b : Board) (q : Row) : Prop where
  position : LegalPosition b
  nan : ∀ i, q i = none ↔ b i ≠ EMPTY
  bounded : ∀ i v, q i = some v → -1 ≤ v ∧ v ≤ 1

theorem freshRow_bounded {v : ℚ} (h : freshRow b i = some v) : -1 ≤ v ∧ v ≤ 1 := by
  unfold freshRow at h
  split at h
  · obtain rfl : 0 = v := by simpa using h
    constructor <;> norm_num
  · cases h

/-- The agent's rates and table are as they should be, and numpy has not
warned. -/
structure Sound (h : Host ρ ξ) : Prop where
  alpha : 0 ≤ h.agent.alpha ∧ h.agent.alpha ≤ 1
  gamma : 0 ≤ h.agent.gamma ∧ h.agent.gamma ≤ 1
  table : ∀ b q, h.agent.qTable.lookup b = some q → SoundRow b q
  warnings : h.warnings = []

variable {h k : Host ρ ξ}

/-- A row that one reads has its numbers on the empty cells, also if it is not
stored. -/
theorem Sound.row_eq_none (hh : Sound h) (b : Board) (i : Fin 9) : h.row b i = none ↔ b i ≠ EMPTY := by
  unfold Host.row QTable.row
  cases hb : h.agent.qTable.lookup b with
  | some q => exact (hh.table b q hb).nan i
  | none => exact freshRow_eq_none

theorem Sound.row_bounded (hh : Sound h) {v : ℚ} (hv : h.row b i = some v) : -1 ≤ v ∧ v ≤ 1 := by
  unfold Host.row QTable.row at hv
  cases hb : h.agent.qTable.lookup b with
  | some q => exact (hh.table b q hb).bounded i v (by simpa [hb] using hv)
  | none => exact freshRow_bounded (b := b) (i := i) (by simpa [hb] using hv)

theorem Sound.row (hh : Sound h) (hb : LegalPosition b) : SoundRow b (h.row b) where
  position := hb
  nan := hh.row_eq_none b
  bounded _ _ := hh.row_bounded

/-- On a board that is not full, the maximum is over a non-empty set. -/
theorem Sound.rowMax (hh : Sound h) (hb : legalMoves b ≠ []) : rowMax (h.row b) ≠ none := by
  obtain ⟨i, hi⟩ := List.exists_mem_of_ne_nil _ hb
  refine rowMax_ne_none (i := i) fun hnan => ?_
  exact (hh.row_eq_none b i).mp hnan (mem_legalMoves.mp hi)

theorem Sound.playable (hh : Sound h) : h.Playable := by
  intro b q hq
  have hrow : h.row b = q := by simp [Host.row, QTable.row, hq]
  exact ⟨fun i hi => ((hh.table b q hq).nan i).mpr hi, fun hb => hrow ▸ hh.rowMax hb⟩

/-! ### What the agent does keeps it sound -/

theorem Sound.touch (hh : Sound h) (hb : LegalPosition b) : Sound (h.touch b) where
  alpha := hh.alpha
  gamma := hh.gamma
  table b' q hq := by
    by_cases hbb : b' = b
    · subst hbb
      have hrow : q = h.row b' := by
        have hself := (QTable.lookup_touch_self (t := h.agent.qTable) (b := b')).symm.trans hq
        exact (Option.some.inj hself).symm
      rw [hrow]
      exact hh.row hb
    · exact hh.table b' q ((QTable.lookup_touch_of_ne hbb).symm.trans hq)
  warnings := hh.warnings

theorem Selects.sound (hs : Selects h b k) (hh : Sound h) (hb : LegalPosition b) : Sound k := by
  have hagent : Sound { h with agent := k.agent } := by
    rcases hs.table with e | e <;> rw [e]
    · exact ⟨hh.alpha, hh.gamma, hh.table, hh.warnings⟩
    · exact hh.touch hb
  have hwarn : k.warnings = [] := by
    rcases hs.warnings with e | e
    · exact e.trans hh.warnings
    · exact absurd e (hh.rowMax hb.moves)
  exact ⟨hagent.alpha, hagent.gamma, hagent.table, hwarn⟩

/-- At a legal position the agent answers with a legal move. -/
theorem selectAction_sound (hb : LegalPosition b) :
    Returns (Sound : Host ρ ξ → Prop) (selectAction G b) fun a h => Sound h ∧ b a = 0 := by
  refine Sat.of_forall fun h hh =>
    (selectAction_returns hh.playable hb.moves).weaken (fun _ hs => hs) ?_ fun _ _ he => he
  exact fun a s hs => ⟨hs.1.sound hh hb, hs.2⟩

/-- A step from `v` towards `t` by a part `α` stays between them. -/
theorem between_bounds {α v t : ℚ} (hα : 0 ≤ α ∧ α ≤ 1) (hv : -1 ≤ v ∧ v ≤ 1)
    (ht : -1 ≤ t ∧ t ≤ 1) : -1 ≤ v + α * (t - v) ∧ v + α * (t - v) ≤ 1 := by
  have hmix : v + α * (t - v) = (1 - α) * v + α * t := by ring
  rw [hmix]
  constructor
  · nlinarith [mul_nonneg (sub_nonneg.mpr hα.2) (by linarith : 0 ≤ v + 1), mul_nonneg hα.1 (by linarith : 0 ≤ t + 1)]
  · nlinarith [mul_nonneg (sub_nonneg.mpr hα.2) (by linarith : 0 ≤ 1 - v), mul_nonneg hα.1 (by linarith : 0 ≤ 1 - t)]

theorem tdTarget_bounded (hh : Sound h) {reward t : ℚ} {sNext : Option Board} {a : Fin 9}
    (hargs : UpdateArgs LegalPosition b a reward sNext) (ht : tdTarget h reward sNext = some t) :
    -1 ≤ t ∧ t ≤ 1 := by
  obtain ⟨-, -, ⟨rfl, hr⟩ | ⟨rfl, s', rfl, -⟩⟩ := hargs
  · obtain rfl : reward = t := by simpa [tdTarget] using ht
    rcases hr with rfl | rfl | rfl <;> constructor <;> norm_num
  · obtain ⟨m, hm, rfl⟩ : ∃ m, RlTtt.rowMax (h.row s') = some m ∧ 0 + h.agent.gamma * m = t := by
      simpa [tdTarget] using ht
    obtain ⟨⟨i, hi⟩, -⟩ := rowMax_eq_some.mp hm
    obtain ⟨hlo, hhi⟩ := hh.row_bounded hi
    obtain ⟨hγ0, hγ1⟩ := hh.gamma
    constructor <;> nlinarith

theorem update_sound {s : Board} {a : Fin 9} {reward : ℚ} {sNext : Option Board}
    (hargs : UpdateArgs LegalPosition s a reward sNext) :
    Keeps (Sound : Host ρ ξ → Prop) (update s a reward sNext) := by
  refine Sat.of_forall fun h hh => (update_sat h s a reward sNext).weaken (fun _ hs => hs) ?_
    fun _ _ he => he.elim
  intro _ k hu
  have hnext : ∀ s', sNext = some s' → LegalPosition s' := by
    intro s' hs'
    obtain ⟨-, -, ⟨hnone, -⟩ | ⟨-, s'', hs'', hB⟩⟩ := hargs
    · rw [hnone] at hs'
      cases hs'
    · rw [hs''] at hs'
      exact Option.some.inj hs' ▸ hB
  -- the new entry lies between the old one and the target
  have hself : SoundRow s (tdRow h s a reward sNext) := by
    have hs := hargs.1
    have ha := hargs.2.1
    obtain ⟨t, ht⟩ : ∃ t, tdTarget h reward sNext = some t :=
      Option.ne_none_iff_exists'.mp (tdTarget_ne_none hh.playable fun s' hs' => (hnext s' hs').moves)
    obtain ⟨v, hv⟩ := Option.ne_none_iff_exists'.mp
      (fun hnan => (hh.row_eq_none s a).mp hnan ha : h.row s a ≠ none)
    refine ⟨hs, fun i => ?_, fun i x hx => ?_⟩
    · by_cases hia : i = a
      · subst hia
        simp [tdRow, ht, hv, ha]
      · rw [tdRow, Function.update_of_ne hia]
        exact hh.row_eq_none s i
    · by_cases hia : i = a
      · subst hia
        obtain rfl : v + h.agent.alpha * (t - v) = x := by simpa [tdRow, ht, hv] using hx
        exact between_bounds hh.alpha (hh.row_bounded hv) (tdTarget_bounded hh hargs ht)
      · rw [tdRow, Function.update_of_ne hia] at hx
        exact hh.row_bounded hx
  have hagent := hu.agent
  refine ⟨?_, ?_, fun b q hq => ?_, ?_⟩
  · rw [hagent]; exact hh.alpha
  · rw [hagent]; exact hh.gamma
  · -- the row of `s` is the updated one, that of `s_next` may have been added
    by_cases hbs : b = s
    · subst hbs
      rw [hu.lookup_self] at hq
      exact Option.some.inj hq ▸ hself
    · rcases hu.lookup_of_ne b hbs with e | ⟨hs', e⟩
      · exact hh.table b q (e ▸ hq)
      · rw [e] at hq
        exact Option.some.inj hq ▸ hh.row (hnext b hs')
  · rcases hu.warnings with e | ⟨s', hs', hmax⟩
    · exact e.trans hh.warnings
    · exact absurd hmax (hh.rowMax (hnext s' hs').moves)

/-! ### Episodes, evaluation and training -/

theorem onHost_sound {α : Type} {x : Method ρ ξ α} (hx : Keeps Sound x) :
    Keeps (fun w : World ρ ξ => Sound w.host) (onHost x) := by
  refine Sat.onPart fun w hw => hx.weaken (fun s hs => hs ▸ hw) ?_ ?_
  · exact fun _ _ hs => hs
  · exact fun _ _ hs => hs

theorem Sound.setGen (hh : Sound h) (id : GenId) (g : ρ) : Sound (h.setGen id g) :=
  ⟨hh.alpha, hh.gamma, hh.table, hh.warnings⟩

theorem coinFlip_sound (id : GenId) : Keeps (Sound : Host ρ ξ → Prop) (coinFlip G id) :=
  fun _ hh => hh.setGen _ _

theorem selectAction_keeps_sound (hb : LegalPosition b) :
    Keeps (Sound : Host ρ ξ → Prop) (selectAction G b) :=
  (selectAction_sound hb).weaken (fun _ hs => hs) (fun _ _ hs => hs.1) fun _ _ he => he.elim

/-- Players that keep the agent sound when they are shown a legal position. -/
def SoundPlayer (opponent : Player ρ ξ) (rng : GenId) : Prop :=
  ∀ b, LegalPosition b → Keeps Sound (opponent b (some rng))

theorem randomPlayer_sound (rng : GenId) : SoundPlayer (randomPlayer G : Player ρ ξ) rng :=
  fun b _ => randomPlayer_keeps b rng fun _ _ _ hh => hh.setGen _ _

theorem minimaxPlayer_sound (rng : GenId) : SoundPlayer (minimaxPlayer : Player ρ ξ) rng :=
  fun b _ => minimaxPlayer_keeps b _

theorem selfPlayOpponent_sound (rng : GenId) : SoundPlayer (selfPlayOpponent G : Player ρ ξ) rng :=
  fun _ hb => Keeps.bind (selectAction_keeps_sound hb) fun _ => Keeps.pure

theorem soundEpisode {opponent : Player ρ ξ} {rng : GenId} (hopp : SoundPlayer opponent rng)
    (train : Bool) :
    EpisodeRule G (fun w => Sound w.host) LegalPosition train opponent rng where
  closed := legalPosition_closed
  select _ hb := onHost_sound (selectAction_keeps_sound hb)
  player b hb := onHost_sound (hopp b hb)
  ply _ _ _ := Sat.modify fun _ hw => hw
  update _ _ _ _ _ hargs :=
    Keeps.bind (Sat.modify fun _ hw => hw) fun _ => onHost_sound (update_sound hargs)
  initial := legalPosition_initialBoard
  coin := onHost_sound (coinFlip_sound rng)
  start _ := Sat.modify fun _ hw => hw

theorem sound_epsilonFree : EpsilonFree fun w : World ρ ξ => Sound w.host :=
  fun _ _ hw => ⟨hw.alpha, hw.gamma, hw.table, hw.warnings⟩

theorem evalCycle_sound (ep n : ℕ) (rng : GenId) :
    Keeps (fun w : World ρ ξ => Sound w.host) (evalCycle G ep n rng) :=
  evalCycle_keeps (soundEpisode (randomPlayer_sound rng) false)
    (soundEpisode (minimaxPlayer_sound rng) false) sound_epsilonFree ep n

/-! ### Prints, logs and interactive games -/

theorem formatQSanity_sound (fmt : Option ℚ → String) :
    Keeps (Sound : Host ρ ξ → Prop) (formatQSanity fmt) := by
  have hread : Keeps (Sound : Host ρ ξ → Prop) (qValues initialBoard) := by
    intro h hh
    rw [exec_qValues]
    exact hh.touch legalPosition_initialBoard
  refine Keeps.bind hread fun q => ?_
  exact Sat.bind (Sat.get (Q := fun _ h => Sound h) fun _ hh => hh) fun _ => Keeps.pure

/-- The logger reads rows that are stored, and so stores none. -/
theorem exec_record_logger (logger : CaseLogger) (globalEp : ℕ) (h : Host ρ ξ) :
    (exec (logger.record globalEp) h).2 = h := by
  unfold CaseLogger.record
  rw [exec_bind_ok exec_hasState]
  cases hseen : h.agent.qTable.lookup logger.state with
  | none => rfl
  | some q =>
      have htouch : h.touch logger.state = h := by
        simp [Host.touch, Host.setQTable, QTable.touch, hseen]
      simp only [Option.isSome_some, Bool.true_eq_false, if_false]
      rw [exec_bind_ok exec_qValues, htouch]
      split <;> rfl

/-- The absolute board, as the side to move sees it. -/
def view (humanToMove : Bool) (absolute : Board) : Board :=
  if humanToMove then absolute else flipPerspective absolute

theorem view_agent_move (absolute : Board) (a : Fin 9) :
    view true (placeAgent absolute a) = flipPerspective (place (flipPerspective absolute) a) := by
  funext j
  by_cases hj : j = a
  · subst hj
    simp [view, placeAgent]
  · simp [view, placeAgent, hj, place_of_ne hj]

def SoundConsole (c : Console ρ ξ) : Prop := Sound c.world.host

theorem onWorld_sound {α : Type} {x : Session ρ ξ α} (hx : Keeps (fun w => Sound w.host) x) :
    Keeps SoundConsole (onWorld x) := by
  refine Sat.onPart fun c hc => hx.weaken (fun s hs => hs ▸ hc) ?_ ?_
  · exact fun _ _ hs => hs
  · exact fun _ _ hs => hs

theorem print_sound (line : String) : Keeps (SoundConsole : Console ρ ξ → Prop) (print line) :=
  Sat.modify fun _ hc => hc

theorem input_sound (prompt : String) : Keeps (SoundConsole : Console ρ ξ → Prop) (input prompt) := by
  refine Keeps.bind (print_sound prompt) fun _ => ?_
  refine Sat.bind (Sat.get (Q := fun _ c => SoundConsole c) fun _ hc => hc) fun c => ?_
  split
  · exact Keeps.pure
  · exact Keeps.bind (Sat.modify fun _ hc => hc) fun _ => Keeps.pure

/-- **The interactive game shows the agent legal positions only.** -/
theorem playLoop_sound (py : TextBuiltins) (fuel : ℕ) :
    ∀ absolute humanToMove,
      (balance (view humanToMove absolute) = 0 ∨ balance (view humanToMove absolute) = -1) →
      Keeps (SoundConsole : Console ρ ξ → Prop) (playLoop G py fuel absolute humanToMove) := by
  induction fuel with
  | zero => exact fun _ _ _ => Keeps.throw
  | succ fuel ih =>
      intro absolute humanToMove hturn
      refine Keeps.bind (print_sound _) fun _ => ?_
      dsimp only
      split
      · exact print_sound _
      · split
        · exact print_sound _
        · split
          · exact print_sound _
          · -- nobody has won and a move is left
            rename_i hw1 hw2 hmoves
            have hw : winner absolute = 0 := by
              rcases winner_cases absolute with e | e | e
              · exact e
              · exact absurd e hw1
              · exact absurd e hw2
            cases humanToMove with
            | true =>
                refine Keeps.bind (input_sound _) fun line => ?_
                split
                · exact print_sound _
                · split
                  · exact Keeps.bind (print_sound _) fun _ => ih absolute true hturn
                  · split
                    · exact Keeps.bind (print_sound _) fun _ => ih absolute true hturn
                    · rename_i i hi
                      have hlegal := mem_legalMoves.mp (List.mem_of_find?_eq_some hi)
                      refine Keeps.bind (onWorld_sound (Sat.modify fun _ hw => hw)) fun _ => ?_
                      exact ih (place absolute i) false (turn_child hturn hlegal)
            | false =>
                -- the agent sees the board from its side
                have hgo : isTerminal (flipPerspective absolute) = (false, 0) :=
                  isTerminal_flip_go (isTerminal_eq_false.mpr ⟨hw, hmoves⟩)
                have hview := legalPosition_of_turn hgo hturn
                have hselect : Returns (SoundConsole : Console ρ ξ → Prop)
                    (onWorld (onHost (selectAction G (flipPerspective absolute))))
                    fun a c => SoundConsole c ∧ flipPerspective absolute a = 0 :=
                  Sat.onPart fun c hc => (onHost_returns (selectAction_sound hview)).weaken
                    (fun s hs => hs ▸ hc) (fun _ _ hs => hs) fun _ _ he => he
                simp only [Bool.false_eq_true, if_false]
                refine Sat.bind (hselect.weaken (fun _ hc => hc) (fun _ _ hs => hs)
                  fun _ _ he => he.elim) fun a => Sat.of_and fun ha => ?_
                refine Keeps.bind (onWorld_sound (Sat.modify fun _ hw => hw)) fun _ => ?_
                refine Keeps.bind (print_sound _) fun _ => ih (placeAgent absolute a) true ?_
                rw [view_agent_move]
                exact turn_child hturn ha

theorem cmdPlay_sound (py : TextBuiltins) (rng : GenId) :
    Keeps (SoundConsole : Console ρ ξ → Prop) (cmdPlay G py rng) := by
  unfold cmdPlay
  refine Keeps.bind (Sat.modify fun c hc => ⟨hc.alpha, hc.gamma, hc.table, hc.warnings⟩) fun _ => ?_
  iterate 8 refine Keeps.bind (print_sound _) fun _ => ?_
  refine Keeps.bind (onWorld_sound (onHost_sound (coinFlip_sound rng))) fun humanFirst => ?_
  refine Keeps.bind (print_sound _) fun _ => Keeps.bind (print_sound _) fun _ => ?_
  refine Sat.bind (Sat.get (Q := fun _ c => SoundConsole c) fun _ hc => hc) fun c => ?_
  refine playLoop_sound py _ initialBoard humanFirst (Or.inl ?_)
  cases humanFirst
  · exact (balance_flipPerspective _).trans (by rw [balance_initialBoard]; rfl)
  · exact balance_initialBoard

/-! ### Runs -/

/-- What the repository does with an agent: the caller sets its parameters, and
episodes, evaluations, prints, log records and interactive games follow in any
order, whether they return or raise. -/
inductive AgentStep (G : Generator ρ) : Host ρ ξ → Host ρ ξ → Prop
  | parameters (h : Host ρ ξ) (alpha gamma epsilon : ℚ) (rng : GenId) (gens : GenId → ρ) :
      0 ≤ alpha ∧ alpha ≤ 1 → 0 ≤ gamma ∧ gamma ≤ 1 →
      AgentStep G h { h with agent := ⟨alpha, gamma, epsilon, rng, h.agent.qTable⟩, gens := gens }
  | episode (w : World ρ ξ) (opponent : Player ρ ξ) (rng : GenId) :
      opponent = randomPlayer G ∨ opponent = selfPlayOpponent G →
      AgentStep G w.host (exec (runEpisode G opponent rng true) w).2.host
  | evalCycle (w : World ρ ξ) (episode nGames : ℕ) (rng : GenId) :
      AgentStep G w.host (exec (evalCycle G episode nGames rng) w).2.host
  | qSanity (h : Host ρ ξ) (fmt : Option ℚ → String) : AgentStep G h (exec (formatQSanity fmt) h).2
  | record (h : Host ρ ξ) (logger : CaseLogger) (globalEp : ℕ) :
      AgentStep G h (exec (logger.record globalEp) h).2
  | play (c : Console ρ ξ) (py : TextBuiltins) (rng : GenId) :
      AgentStep G c.world.host (exec (cmdPlay G py rng) c).2.world.host

/-- **Every step keeps the agent sound.** -/
theorem AgentStep.sound (hstep : AgentStep G h k) (hh : Sound h) : Sound k := by
  cases hstep with
  | parameters _ alpha gamma epsilon rng gens hα hγ => exact ⟨hα, hγ, hh.table, hh.warnings⟩
  | episode w opponent rng hopp =>
      have hsound : SoundPlayer opponent rng := by
        rcases hopp with rfl | rfl
        · exact randomPlayer_sound rng
        · exact selfPlayOpponent_sound rng
      exact (soundEpisode hsound true).runEpisode.state (s := w) hh
  | evalCycle w episode nGames rng => exact (evalCycle_sound episode nGames rng).state (s := w) hh
  | qSanity _ fmt => exact (formatQSanity_sound fmt).state hh
  | record _ logger globalEp => rwa [exec_record_logger]
  | play c py rng => exact (cmdPlay_sound py rng).state (s := c) hh

/-- **The invariant of the Q-table.**  From an empty table and rates in [0, 1],
whatever is done with the agent, every key is a legal position, its row is NaN
exactly on the occupied cells and stays in [-1, 1] elsewhere; numpy is never
asked for the maximum of NaNs, and greedy choices exist and are legal. -/
theorem qTable_invariant {h₀ h : Host ρ ξ} (hempty : h₀.agent.qTable = ∅)
    (hα : 0 ≤ h₀.agent.alpha ∧ h₀.agent.alpha ≤ 1) (hγ : 0 ≤ h₀.agent.gamma ∧ h₀.agent.gamma ≤ 1)
    (hwarn : h₀.warnings = []) (hrun : Relation.ReflTransGen (AgentStep G) h₀ h) :
    (∀ b q, h.agent.qTable.lookup b = some q →
      (¬ HasLine b ME ∧ ¬ HasLine b OPP) ∧ (∃ i, b i = EMPTY) ∧
        (((cells b ME).card : ℤ) - (cells b OPP).card = 0 ∨
          ((cells b ME).card : ℤ) - (cells b OPP).card = -1) ∧
        (∀ i, q i = none ↔ b i ≠ EMPTY) ∧ ∀ i v, q i = some v → -1 ≤ v ∧ v ≤ 1) ∧
      h.warnings = [] ∧
      ∀ b, legalMoves b ≠ [] → RlTtt.rowMax (h.row b) ≠ none ∧
        candidates (h.row b) (RlTtt.rowMax (h.row b)) ≠ [] ∧
        ∀ a ∈ candidates (h.row b) (RlTtt.rowMax (h.row b)), a ∈ legalMoves b := by
  -- the induction is on the sequence of what is done with the agent
  have hsound : Sound h := by
    induction hrun with
    | refl => exact ⟨hα, hγ, fun b q hq => by simp [hempty] at hq, hwarn⟩
    | tail _ hstep ih => exact hstep.sound ih
  refine ⟨fun b q hq => ?_, hsound.warnings, fun b hb => ⟨hsound.rowMax hb, ?_, fun a ha => ?_⟩⟩
  · obtain ⟨⟨hline, hemp, hturn⟩, hnan, hbound⟩ := hsound.table b q hq
    exact ⟨hline, hemp, hturn, hnan, hbound⟩
  · exact fun hnil => hsound.rowMax hb (candidates_eq_nil.mp hnil)
  · exact mem_legalMoves.mpr (Eligible.legal hsound.playable (Or.inr ha))

theorem qTable_invariant_episode :
    (exec (runEpisode lastGen (selfPlayOpponent lastGen) 0 true) (greedyWorld ∅)).2.host.warnings
      = [] :=
  (qTable_invariant rfl ⟨by decide, by decide⟩ ⟨by decide, by decide⟩ rfl
    (Relation.ReflTransGen.single (AgentStep.episode (greedyWorld ∅) _ 0 (Or.inr rfl)))).2.1

end MyTests.RlTtt
