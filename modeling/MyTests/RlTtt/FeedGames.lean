/-
MyTests/RlTtt/FeedGames.lean

Finished games fed through `_run_episode` with the first player as the trainee.

`feedLoop` is the loop of `_run_episode` with the moves read off a list instead
of chosen.  On a complete game it makes the updates of `gameUpdates`, and these
are the ones that an episode of training makes when it plays the same game
(`gameUpdates_eq_credit`).  What the agent then reads off its table is what the
general learner of `Lib/Bootstrap.lean` has learned, with the largest value of
an empty cell as its estimate of a board.
-/
import MyTests.Lib.Bootstrap
import MyTests.RlTtt.TableInvariant

namespace MyTests.RlTtt

open Lib

variable {ρ ξ : Type}

/-! ### Games as lists of moves -/

/-- The moves are legal from `board` on and end with the game.  Each mover sees
the board from its own side. -/
def CompleteGame (board : Board) : List (Fin 9) → Prop
  | [] => (isTerminal board).1 = true
  | a :: moves => isTerminal board = (false, 0) ∧ board a = EMPTY ∧
      CompleteGame (flipPerspective (place board a)) moves

instance decidableCompleteGame : (board : Board) → (moves : List (Fin 9)) →
    Decidable (CompleteGame board moves)
  | board, [] => inferInstanceAs (Decidable ((isTerminal board).1 = true))
  | board, a :: moves =>
      @instDecidableAnd _ _ _ (@instDecidableAnd _ _ _
        (decidableCompleteGame (flipPerspective (place board a)) moves))

/-- `while True` of `_run_episode` in training, with the next move of the list
for that of a player. -/
def feedLoop : List (Fin 9) → Bool → Board → Option (Board × Fin 9) → Session ρ ξ Unit
  | [], _, _, _ => pure ()
  | a :: moves, true, board, _ => do
      let newBoard ← orRaise (applyMove board (a : ℕ))
      let done := (isTerminal newBoard).1
      let reward := (isTerminal newBoard).2
      if done then updateLast true (some (board, a)) reward none
      else feedLoop moves false (flipPerspective newBoard) (some (board, a))
  | aOpp :: moves, false, board, last => do
      let newBoard ← orRaise (applyMove board (aOpp : ℕ))
      let done := (isTerminal newBoard).1
      let rewardForOpp := (isTerminal newBoard).2
      if done then
        let traineeReward := -rewardForOpp
        updateLast true last traineeReward none
      else
        let traineeNextBoard := flipPerspective newBoard
        updateLast true last 0 (some traineeNextBoard)
        feedLoop moves true traineeNextBoard last

/-- The games one after another, with the trainee first. -/
def feedGames : List (List (Fin 9)) → Session ρ ξ Unit
  | [] => pure ()
  | moves :: games => do
      feedLoop moves true initialBoard none
      feedGames games

/-! ### The updates of a game -/

/-- The updates that `feedLoop` makes. -/
def updatesFrom : List (Fin 9) → Bool → Board → Option (Board × Fin 9) → List UpdateCall
  | [], _, _, _ => []
  | a :: moves, true, board, _ =>
      let newBoard := place board a
      if (isTerminal newBoard).1 then [⟨board, a, (isTerminal newBoard).2, none⟩]
      else updatesFrom moves false (flipPerspective newBoard) (some (board, a))
  | aOpp :: moves, false, board, last =>
      let newBoard := place board aOpp
      if (isTerminal newBoard).1 then
        last.toList.map fun sa => ⟨sa.1, sa.2, -(isTerminal newBoard).2, none⟩
      else last.toList.map (fun sa => ⟨sa.1, sa.2, 0, some (flipPerspective newBoard)⟩) ++
        updatesFrom moves true (flipPerspective newBoard) last

def gameUpdates (moves : List (Fin 9)) : List UpdateCall := updatesFrom moves true initialBoard none

section

variable {a : Fin 9} {moves : List (Fin 9)} {board : Board} {last : Option (Board × Fin 9)}

theorem updatesFrom_trainee_end (hdone : (isTerminal (place board a)).1 = true) :
    updatesFrom (a :: moves) true board last
      = [⟨board, a, (isTerminal (place board a)).2, none⟩] := if_pos hdone

theorem updatesFrom_trainee_go (hdone : (isTerminal (place board a)).1 = false) :
    updatesFrom (a :: moves) true board last
      = updatesFrom moves false (flipPerspective (place board a)) (some (board, a)) :=
  if_neg (by rw [hdone]; exact Bool.false_ne_true)

theorem updatesFrom_opponent_end (hdone : (isTerminal (place board a)).1 = true) :
    updatesFrom (a :: moves) false board last
      = last.toList.map fun sa => ⟨sa.1, sa.2, -(isTerminal (place board a)).2, none⟩ :=
  if_pos hdone

theorem updatesFrom_opponent_go (hdone : (isTerminal (place board a)).1 = false) :
    updatesFrom (a :: moves) false board last
      = last.toList.map (fun sa => ⟨sa.1, sa.2, 0, some (flipPerspective (place board a))⟩) ++
        updatesFrom moves true (flipPerspective (place board a)) last :=
  if_neg (by rw [hdone]; exact Bool.false_ne_true)

end

/-- The host after the calls `us` of `agent.update`. -/
def Host.afterUpdates (h : Host ρ ξ) (us : List UpdateCall) : Host ρ ξ :=
  us.foldl (fun h u => (exec (update u.s u.a u.reward u.sNext) h).2) h

def UpdateCall.event (u : UpdateCall) : Event := .update u.s u.a u.reward u.sNext

variable {h : Host ρ ξ} {w : World ρ ξ} {board : Board} {last : Option (Board × Fin 9)}
  {moves : List (Fin 9)} {us : List UpdateCall}

theorem exec_update (h : Host ρ ξ) (u : UpdateCall) :
    exec (update u.s u.a u.reward u.sNext) h = (.ok (), h.afterUpdates [u]) := by
  obtain ⟨⟨⟩, k, hk, -⟩ := (update_sat h u.s u.a u.reward u.sNext).exists rfl
  show _ = (Except.ok (), (exec (update u.s u.a u.reward u.sNext) h).2)
  rw [hk]

theorem updates_afterUpdates (h : Host ρ ξ) (u : UpdateCall) :
    Updates h u.s u.a u.reward u.sNext (h.afterUpdates [u]) := by
  obtain ⟨⟨⟩, k, hk, hu⟩ := (update_sat h u.s u.a u.reward u.sNext).exists rfl
  rw [exec_update] at hk
  obtain rfl := (Prod.mk.inj hk).2
  exact hu

/-- What `updateLast` does is what the calls do. -/
theorem exec_updateLast_calls (w : World ρ ξ) (last : Option (Board × Fin 9)) (reward : ℚ)
    (sNext : Option Board) :
    exec (updateLast true last reward sNext) w
      = (.ok (), ⟨w.host.afterUpdates (last.toList.map fun sa => ⟨sa.1, sa.2, reward, sNext⟩),
          w.trace ++ (last.toList.map fun sa => ⟨sa.1, sa.2, reward, sNext⟩).map
            UpdateCall.event⟩) := by
  cases last with
  | none => simp [updateLast, Host.afterUpdates]
  | some sa =>
      show exec (agentUpdate sa.1 sa.2 reward sNext) w = _
      unfold agentUpdate
      rw [exec_bind_ok (exec_record _)]
      exact exec_onHost (exec_update w.host ⟨sa.1, sa.2, reward, sNext⟩)

/-- **The loop makes the updates of the game.** -/
theorem exec_feedLoop (moves : List (Fin 9)) (turn : Bool) (board : Board)
    (last : Option (Board × Fin 9)) (w : World ρ ξ) (hgame : CompleteGame board moves) :
    exec (feedLoop moves turn board last) w
      = (.ok (), ⟨w.host.afterUpdates (updatesFrom moves turn board last),
          w.trace ++ (updatesFrom moves turn board last).map UpdateCall.event⟩) := by
  induction moves generalizing turn board last w with
  | nil => simp [feedLoop, updatesFrom, Host.afterUpdates]
  | cons a moves ih =>
      obtain ⟨-, ha, hrest⟩ := hgame
      -- every move of the list is legal, so `apply_move` never raises
      cases turn with
      | true =>
          unfold feedLoop
          rw [applyMove_of_legal ha, exec_bind_ok (exec_orRaise _ _)]
          dsimp only
          cases hdone : (isTerminal (place board a)).1 with
          | true =>
              rw [if_pos rfl, updatesFrom_trainee_end hdone]
              exact exec_updateLast_calls w (some (board, a)) _ none
          | false =>
              rw [if_neg Bool.false_ne_true, updatesFrom_trainee_go hdone]
              exact ih false _ _ w hrest
      | false =>
          unfold feedLoop
          rw [applyMove_of_legal ha, exec_bind_ok (exec_orRaise _ _)]
          dsimp only
          cases hdone : (isTerminal (place board a)).1 with
          | true =>
              rw [if_pos rfl, updatesFrom_opponent_end hdone, exec_updateLast_calls]
              push_cast
              rfl
          | false =>
              rw [if_neg Bool.false_ne_true, updatesFrom_opponent_go hdone,
                exec_bind_ok (exec_updateLast_calls w last 0 _), ih true _ _ _ hrest]
              simp [Host.afterUpdates]

theorem exec_feedGames (games : List (List (Fin 9))) (w : World ρ ξ)
    (hgames : ∀ moves ∈ games, CompleteGame initialBoard moves) :
    exec (feedGames games) w
      = (.ok (), ⟨w.host.afterUpdates (games.flatMap gameUpdates),
          w.trace ++ (games.flatMap gameUpdates).map UpdateCall.event⟩) := by
  induction games generalizing w with
  | nil => simp [feedGames, Host.afterUpdates]
  | cons moves games ih =>
      unfold feedGames
      rw [exec_bind_ok (exec_feedLoop moves true initialBoard none w (hgames _ List.mem_cons_self)),
        ih _ fun moves hmoves => hgames _ (List.mem_cons_of_mem _ hmoves)]
      simp [Host.afterUpdates, gameUpdates]

/-! ### The updates of an episode that plays the game -/

theorem isTerminal_place_end {a : Fin 9} (hgo : isTerminal board = (false, 0)) (ha : board a = 0)
    (hend : HasLine (place board a) ME ∨ legalMoves (place board a) = []) :
    isTerminal (place board a) = (true, if HasLine (place board a) ME then 1 else 0) := by
  rw [isTerminal_place (isTerminal_eq_false.mp hgo).1 ha]
  by_cases hline : HasLine (place board a) ME
  · rw [if_pos hline, if_pos hline]
  · have hfull : empties (place board a) = 0 := by
      rw [empties, hend.resolve_left hline, List.length_nil]
    have hone := empties_place ha
    rw [if_neg hline, if_neg hline, if_pos (by omega)]

/-- **The updates are those of training.**  `runEpisode_credit` says that an
episode of training makes the updates `credit` of its plies; on the moves of
these plies `updatesFrom` gives the same. -/
theorem LegalGame.updatesFrom_eq {turn : Bool} {ps : List Ply} {r : ℤ}
    (h : LegalGame turn board ps r) (last : Option (Board × Fin 9)) :
    updatesFrom (ps.map Ply.action) turn board last
      = credit (pendingPair turn last ++ traineeMoves ps) r := by
  induction ps generalizing turn board last with
  | nil => exact h.elim
  | cons p ps ih =>
      obtain ⟨rfl, rfl, ha, hgo, h⟩ := h
      obtain ⟨turn, board, a⟩ := p
      by_cases hps : ps = []
      · subst hps
        rw [if_pos rfl] at h
        obtain ⟨hend, rfl⟩ := h
        have hterm := isTerminal_place_end hgo ha hend
        have hdone : (isTerminal (place board a)).1 = true := congrArg Prod.fst hterm
        cases turn with
        | true =>
            rw [List.map_cons, updatesFrom_trainee_end hdone, hterm]
            rfl
        | false =>
            rw [List.map_cons, updatesFrom_opponent_end hdone, hterm]
            cases last with
            | none => rfl
            | some sa =>
                simp only [Option.toList_some, List.map_cons, List.map_nil, Ply.value, Ply.result]
                by_cases hline : HasLine (place board a) ME <;> simp [hline, pendingPair,
                  traineeMoves, credit]
      · rw [if_neg hps] at h
        obtain ⟨hgo', h⟩ := h
        have hnot : (isTerminal (place board a)).1 = false := congrArg Prod.fst hgo'
        cases turn with
        | true =>
            rw [List.map_cons, updatesFrom_trainee_go hnot]
            exact ih h (some (board, a))
        | false =>
            have hrest : updatesFrom (ps.map Ply.action) true (flipPerspective (place board a)) last
                = credit (traineeMoves ps) r := ih h last
            rw [List.map_cons, updatesFrom_opponent_go hnot, hrest]
            -- the next ply is the trainee's, on the board that the update names
            obtain ⟨p', ps', rfl⟩ := List.exists_cons_of_ne_nil hps
            obtain ⟨turn', board', a'⟩ := p'
            obtain ⟨rfl, rfl, -⟩ := h
            cases last <;> rfl

theorem LegalGame.complete {turn : Bool} {ps : List Ply} {r : ℤ} (h : LegalGame turn board ps r) :
    CompleteGame board (ps.map Ply.action) := by
  induction ps generalizing turn board with
  | nil => exact h.elim
  | cons p ps ih =>
      obtain ⟨-, rfl, ha, hgo, h⟩ := h
      refine ⟨hgo, ha, ?_⟩
      by_cases hps : ps = []
      · subst hps
        rw [if_pos rfl] at h
        show (isTerminal (flipPerspective (place p.board p.action))).1 = true
        rw [isTerminal_flipPerspective, isTerminal_place_end hgo ha h.1]
      · rw [if_neg hps] at h
        exact ih h.2

/-! ### Legal updates -/

/-- An update in a game that the trainee opened: of a move on an empty cell, with
the trainee to move on a board that is neither empty nor full afterwards. -/
structure UpdateCall.InGame (u : UpdateCall) : Prop where
  turn : balance u.s = 0
  empty : u.s u.a = EMPTY
  next : ∀ s', u.sNext = some s' → legalMoves s' ≠ [] ∧ ∃ i, s' i ≠ EMPTY

theorem updatesFrom_inGame (moves : List (Fin 9)) (turn : Bool) (board : Board)
    (last : Option (Board × Fin 9)) (hgame : CompleteGame board moves)
    (hturn : balance board = if turn then 0 else -1)
    (hlast : ∀ sa, last = some sa → balance sa.1 = 0 ∧ sa.1 sa.2 = EMPTY) :
    ∀ u ∈ updatesFrom moves turn board last, u.InGame := by
  induction moves generalizing turn board last with
  | nil => exact nofun
  | cons a moves ih =>
      obtain ⟨hgo, ha, hrest⟩ := hgame
      -- the trainee moves on balanced boards, the opponent with a piece less on its side
      have hbalance : balance (flipPerspective (place board a)) = -(balance board + 1) := by
        rw [balance_flipPerspective, balance_place ha]
      cases turn with
      | true =>
          have hboard : balance board = 0 := hturn
          cases hdone : (isTerminal (place board a)).1 with
          | true =>
              rw [updatesFrom_trainee_end hdone]
              intro u hu
              obtain rfl := List.mem_singleton.mp hu
              exact ⟨hboard, ha, nofun⟩
          | false =>
              rw [updatesFrom_trainee_go hdone]
              refine ih false _ _ hrest (by rw [hbalance, hboard]; rfl) ?_
              rintro sa ⟨⟩
              exact ⟨hboard, ha⟩
      | false =>
          have hboard : balance board = -1 := hturn
          cases hdone : (isTerminal (place board a)).1 with
          | true =>
              rw [updatesFrom_opponent_end hdone]
              intro u hu
              obtain ⟨sa, hsa, rfl⟩ := List.mem_map.mp hu
              obtain ⟨hbal, hempty⟩ := hlast sa (Option.mem_toList.mp hsa)
              exact ⟨hbal, hempty, nofun⟩
          | false =>
              have hgo' := isTerminal_place_go hgo ha hdone
              rw [updatesFrom_opponent_go hdone]
              intro u hu
              rcases List.mem_append.mp hu with hu | hu
              · -- the next board has an empty cell, and the piece just placed
                obtain ⟨sa, hsa, rfl⟩ := List.mem_map.mp hu
                obtain ⟨hbal, hempty⟩ := hlast sa (Option.mem_toList.mp hsa)
                refine ⟨hbal, hempty, ?_⟩
                rintro s' ⟨⟩
                refine ⟨?_, a, by simp⟩
                rw [legalMoves_flipPerspective]
                exact (isTerminal_eq_false.mp hgo').2
              · exact ih true _ _ hrest (by rw [hbalance, hboard]; rfl) hlast u hu

theorem gameUpdates_inGame {games : List (List (Fin 9))}
    (hgames : ∀ moves ∈ games, CompleteGame initialBoard moves) :
    ∀ u ∈ games.flatMap gameUpdates, u.InGame := by
  intro u hu
  obtain ⟨moves, hmoves, hu⟩ := List.mem_flatMap.mp hu
  exact updatesFrom_inGame moves true initialBoard none (hgames moves hmoves) balance_initialBoard
    nofun u hu

/-! ### What the agent learns -/

/-- The value of a cell; 0 for NaN. -/
def Host.value (h : Host ρ ξ) (b : Board) (i : Fin 9) : ℚ := (h.row b i).getD 0

/-- The rows are NaN on the occupied cells and only there. -/
def Host.Masked (h : Host ρ ξ) : Prop := ∀ b i, h.row b i = none ↔ b i ≠ EMPTY

/-- The largest value of an empty cell. -/
def bestEmpty (V : Board → Fin 9 → ℚ) (b : Board) : ℚ :=
  (rowMax fun i => if b i = EMPTY then some (V b i) else none).getD 0

def UpdateCall.td (u : UpdateCall) : TdUpdate Board (Fin 9) ℚ := ⟨u.s, u.a, u.reward, u.sNext⟩

variable {k : Host ρ ξ} {u : UpdateCall}

theorem Host.Masked.row_of_empty (hm : h.Masked) {b : Board} {i : Fin 9} (hi : b i = EMPTY) :
    h.row b i = some (h.value b i) := by
  obtain ⟨v, hv⟩ := Option.ne_none_iff_exists'.mp fun hnone => (hm b i).mp hnone hi
  rw [Host.value, hv]
  rfl

theorem Host.Masked.row_eq (hm : h.Masked) (b : Board) :
    h.row b = fun i => if b i = EMPTY then some (h.value b i) else none := by
  funext i
  split
  · rename_i hi
    exact hm.row_of_empty hi
  · rename_i hi
    exact (hm b i).mpr hi

/-- `np.nanmax` of a row that has a number. -/
theorem Host.Masked.rowMax_eq (hm : h.Masked) {b : Board} (hb : legalMoves b ≠ []) :
    rowMax (h.row b) = some (bestEmpty h.value b) := by
  obtain ⟨i, hi⟩ := List.exists_mem_of_ne_nil _ hb
  have hmax : rowMax (h.row b) ≠ none :=
    rowMax_ne_none fun hnone => (hm b i).mp hnone (mem_legalMoves.mp hi)
  obtain ⟨m, hmax⟩ := Option.ne_none_iff_exists'.mp hmax
  rw [bestEmpty, ← hm.row_eq b, hmax]
  rfl

/-- The target is the one of the learner. -/
theorem Host.Masked.tdTarget_eq (hm : h.Masked) (hin : u.InGame) :
    tdTarget h u.reward u.sNext = some (bootTarget h.agent.gamma bestEmpty h.value u.td) := by
  unfold tdTarget bootTarget UpdateCall.td
  cases hnext : u.sNext with
  | none => rfl
  | some s' => simp only [hm.rowMax_eq (hin.next s' hnext).1, Option.map_some]

/-- The row of the board that is updated. -/
theorem Host.Masked.tdRow_eq (hm : h.Masked) (hin : u.InGame) (i : Fin 9) :
    tdRow h u.s u.a u.reward u.sNext i = if u.s i = EMPTY then
      some (learn h.agent.alpha h.agent.gamma bestEmpty h.value u.td u.s i) else none := by
  unfold tdRow
  by_cases hi : i = u.a
  · subst hi
    rw [Function.update_self, hm.row_of_empty hin.empty, hm.tdTarget_eq hin, if_pos hin.empty]
    exact congrArg some (learn_self (u := u.td)).symm
  · rw [Function.update_of_ne hi, hm.row_eq]
    dsimp only
    rw [learn_of_ne fun e => hi e.2]

/-- **An update is a step of the learner.** -/
theorem Updates.learned (hu : Updates h u.s u.a u.reward u.sNext k) (hm : h.Masked)
    (hin : u.InGame) :
    k.Masked ∧ k.value = learn h.agent.alpha h.agent.gamma bestEmpty h.value u.td := by
  have hrow : ∀ b i, k.row b i = if b i = EMPTY then
      some (learn h.agent.alpha h.agent.gamma bestEmpty h.value u.td b i) else none := by
    intro b i
    by_cases hb : b = u.s
    · subst hb
      rw [hu.row_self]
      exact hm.tdRow_eq hin i
    · rw [hu.row_of_ne hb, hm.row_eq, learn_of_ne fun e => hb e.1]
  refine ⟨fun b i => ?_, ?_⟩
  · rw [hrow]
    simp
  · funext b i
    rw [Host.value, hrow]
    split
    · rfl
    · rename_i hi
      -- an occupied cell keeps the value 0
      have hne : ¬ (b = u.s ∧ i = u.a) := by
        rintro ⟨rfl, rfl⟩
        exact hi hin.empty
      have hne' : ¬ (b = u.td.s ∧ i = u.td.a) := hne
      rw [learn_of_ne hne', Host.value, (hm b i).mpr hi]

theorem Host.Masked.afterUpdates (hm : h.Masked) (hin : ∀ u ∈ us, u.InGame) :
    (h.afterUpdates us).Masked ∧ (h.afterUpdates us).value
      = learnAll h.agent.alpha h.agent.gamma bestEmpty h.value (us.map UpdateCall.td) := by
  induction us generalizing h with
  | nil => exact ⟨hm, rfl⟩
  | cons u us ih =>
      have hu := updates_afterUpdates h u
      obtain ⟨hm', hvalue⟩ := hu.learned hm (hin u List.mem_cons_self)
      have hrates : (h.afterUpdates [u]).agent.alpha = h.agent.alpha ∧
          (h.afterUpdates [u]).agent.gamma = h.agent.gamma := by
        rw [hu.agent]
        exact ⟨rfl, rfl⟩
      obtain ⟨hmasked, hall⟩ := ih hm' fun u' hu' => hin u' (List.mem_cons_of_mem _ hu')
      refine ⟨hmasked, ?_⟩
      rw [hvalue, hrates.1, hrates.2] at hall
      exact hall

/-- `QLearningAgent(alpha=0.1, gamma=1.0)`, with an empty table. -/
def freshWorld : World Unit Unit :=
  ⟨⟨⟨1 / 10, 1, 1 / 10, trainRng, ∅⟩, fun _ => (), [], ()⟩, []⟩

theorem masked_freshWorld : freshWorld.host.Masked := fun _ _ => freshRow_eq_none

theorem value_freshWorld : freshWorld.host.value = fun _ _ => 0 := by
  funext b i
  show (freshRow b i).getD 0 = 0
  unfold freshRow
  split <;> rfl

/-- The largest value of an empty cell is one, and none is larger. -/
theorem bestEmpty_spec (V : Board → Fin 9 → ℚ) {b : Board} (hb : legalMoves b ≠ []) :
    (∃ i, b i = EMPTY ∧ bestEmpty V b = V b i) ∧ ∀ i, b i = EMPTY → V b i ≤ bestEmpty V b := by
  set q : Row := fun i => if b i = EMPTY then some (V b i) else none with hq
  have hval : ∀ i, b i = EMPTY → q i = some (V b i) := fun i hi => if_pos hi
  obtain ⟨i, hi⟩ := List.exists_mem_of_ne_nil _ hb
  obtain ⟨m, hmax⟩ := Option.ne_none_iff_exists'.mp
    (rowMax_ne_none (q := q) (i := i) (by rw [hval i (mem_legalMoves.mp hi)]; simp))
  have hbest : bestEmpty V b = m := by
    rw [bestEmpty, ← hq, hmax]
    rfl
  obtain ⟨⟨j, hj⟩, hle⟩ := rowMax_eq_some.mp hmax
  rw [hbest]
  refine ⟨⟨j, ?_⟩, fun k hk => hle k _ (hval k hk)⟩
  rw [hq] at hj
  dsimp only at hj
  split at hj
  · rename_i hempty
    exact ⟨hempty, (Option.some.inj hj).symm⟩
  · cases hj

end MyTests.RlTtt
