/-
MyTests/RlTtt/Episode.lean

Credit assignment in `_run_episode`.

The record of an episode has two readings: the plies, which form a legal game
(`LegalGame`), and the calls of `agent.update`.  The calls that a game should
cause are a function of the trainee's moves and of the returned value
(`credit`), and the theorem says that the calls made are exactly those.

The loop buffers the trainee's last pair.  When the opponent is to move the
pair still waits for its update, when the trainee is to move it has had it, and
this is what the induction over the plies carries (`pendingPair`).
-/
import MyTests.RlTtt.Train

namespace MyTests.RlTtt

open Lib

variable {ρ ξ : Type} {G : Generator ρ}

/-! ### Games -/

/-- A ply, with the board that its mover sees. -/
structure Ply where
  byTrainee : Bool
  board : Board
  action : Fin 9

/-- The board after a ply, still seen by the mover. -/
def Ply.result (p : Ply) : Board := place p.board p.action

/-- The value of a game that ends with ply `p`, for the trainee. -/
def Ply.value (p : Ply) : ℤ :=
  if HasLine p.result ME then (if p.byTrainee then 1 else -1) else 0

/-- The plies `ps` are a game from `board` to its end, with value `r`: the
players alternate, each sees the board from its own side and makes a legal
move, no move is made after a line or a full board. -/
def LegalGame (traineeToMove : Bool) (board : Board) : List Ply → ℤ → Prop
  | [], _ => False
  | p :: ps, r =>
      p.byTrainee = traineeToMove ∧ p.board = board ∧ board p.action = 0 ∧
        isTerminal board = (false, 0) ∧
        if ps = [] then (HasLine p.result ME ∨ legalMoves p.result = []) ∧ r = p.value
        else isTerminal p.result = (false, 0) ∧
          LegalGame (!traineeToMove) (flipPerspective p.result) ps r

/-- The pairs of board and action of the trainee. -/
def traineeMoves (ps : List Ply) : List (Board × Fin 9) :=
  ps.filterMap fun p => if p.byTrainee then some (p.board, p.action) else none

/-- A call of `agent.update`. -/
structure UpdateCall where
  s : Board
  a : Fin 9
  reward : ℚ
  sNext : Option Board

/-- The updates that the moves of a game should cause: every move is followed
by the board of the next one, without reward, and the last one by the end of
the game with the reward. -/
def credit : List (Board × Fin 9) → ℤ → List UpdateCall
  | [], _ => []
  | [(s, a)], r => [⟨s, a, r, none⟩]
  | (s, a) :: (s', a') :: moves, r => ⟨s, a, 0, some s'⟩ :: credit ((s', a') :: moves) r

/-! ### The two readings of a record -/

def Event.isPly : Event → Bool
  | .ply _ _ _ _ => true
  | _ => false

def Event.update? : Event → Option UpdateCall
  | .update s a reward sNext => some ⟨s, a, reward, sNext⟩
  | _ => none

/-- The event that records a ply. -/
def Ply.event (train : Bool) (p : Ply) : Event := .ply train p.byTrainee p.board (p.action : ℕ)

/-! ### Tables that the agent can play with -/

/-- Rows are NaN on occupied cells, and not throughout where a move is left. -/
def QTable.Playable (t : QTable) : Prop :=
  ∀ b q, t.lookup b = some q → (∀ i, b i ≠ 0 → q i = none) ∧ (legalMoves b ≠ [] → rowMax q ≠ none)

def Host.Playable (h : Host ρ ξ) : Prop := h.agent.qTable.Playable

variable {h k : Host ρ ξ} {b : Board} {t : QTable}

theorem freshRow_eq_none {i : Fin 9} : freshRow b i = none ↔ b i ≠ 0 := by
  simp [freshRow]

theorem rowMax_ne_none {q : Row} {i : Fin 9} (hi : q i ≠ none) : rowMax q ≠ none :=
  fun hmax => hi (rowMax_eq_none.mp hmax i)

theorem rowMax_freshRow (hb : legalMoves b ≠ []) : rowMax (freshRow b) ≠ none := by
  obtain ⟨i, hi⟩ := List.exists_mem_of_ne_nil _ hb
  exact rowMax_ne_none (i := i) (by simpa [freshRow_eq_none] using hi)

/-- Rows that one reads are as good as rows that are stored. -/
theorem QTable.Playable.row (ht : t.Playable) (b : Board) :
    (∀ i, b i ≠ 0 → t.row b i = none) ∧ (legalMoves b ≠ [] → rowMax (t.row b) ≠ none) := by
  unfold QTable.row
  cases hb : t.lookup b with
  | some q => exact ht b q hb
  | none => exact ⟨fun i hi => freshRow_eq_none.mpr hi, rowMax_freshRow⟩

theorem QTable.Playable.insert (ht : t.Playable) {q : Row} (hq : ∀ i, b i ≠ 0 → q i = none)
    (hmax : legalMoves b ≠ [] → rowMax q ≠ none) : QTable.Playable (t.insert b q) := by
  intro b' q' hb'
  by_cases hbb : b' = b
  · subst hbb
    obtain rfl : q = q' := by simpa using hb'
    exact ⟨hq, hmax⟩
  · exact ht b' q' (by rwa [AList.lookup_insert_ne hbb] at hb')

theorem QTable.Playable.touch (ht : t.Playable) (b : Board) : (t.touch b).Playable := by
  unfold QTable.touch
  split
  · exact ht
  · exact ht.insert (fun i hi => freshRow_eq_none.mpr hi) rowMax_freshRow

theorem Selects.playable (hs : Selects h b k) (hh : h.Playable) : k.Playable := by
  unfold Host.Playable
  rcases hs.table with e | e <;> rw [e]
  · exact hh
  · exact QTable.Playable.touch hh b

/-- Greedy choices are legal. -/
theorem Eligible.legal (hh : h.Playable) {a : Fin 9} (ha : Eligible h b a) : b a = 0 := by
  rcases ha with ha | ha
  · exact mem_legalMoves.mp ha
  · by_contra hocc
    exact (mem_candidates.mp ha).1 ((QTable.Playable.row hh b).1 a hocc)

theorem selectAction_returns (hh : h.Playable) (hb : legalMoves b ≠ []) :
    Returns (fun s => s = h) (selectAction G b) fun a s => Selects h b s ∧ b a = 0 := by
  refine (selectAction_sat G h b).weaken (fun s hs => hs) (fun a s hs => ⟨hs.1, hs.2.legal hh⟩) ?_
  rintro e s ⟨-, hl | hmax⟩
  · exact hb hl
  · exact (QTable.Playable.row hh b).2 hb hmax

/-- The agent answers every board that is not full with a legal move. -/
theorem selectAction_legal (hb : legalMoves b ≠ []) :
    Returns (Host.Playable : Host ρ ξ → Prop) (selectAction G b) fun a s => s.Playable ∧ b a = 0 := by
  refine Sat.of_forall fun h hh => (selectAction_returns hh hb).weaken (fun _ hs => hs) ?_ ?_
  · exact fun a s hs => ⟨hs.1.playable hh, hs.2⟩
  · exact fun _ _ he => he

theorem tdTarget_ne_none (hh : h.Playable) {reward : ℚ} {sNext : Option Board}
    (hnext : ∀ s', sNext = some s' → legalMoves s' ≠ []) : tdTarget h reward sNext ≠ none := by
  cases sNext with
  | none => simp [tdTarget]
  | some s' =>
      have hmax : rowMax (h.row s') ≠ none := (QTable.Playable.row hh s').2 (hnext s' rfl)
      simpa [tdTarget] using hmax

/-- An update with a target moves no number of the row to NaN. -/
theorem tdRow_ne_none {s : Board} {a i : Fin 9} {reward : ℚ} {sNext : Option Board}
    (htarget : tdTarget h reward sNext ≠ none) (hi : h.row s i ≠ none) :
    tdRow h s a reward sNext i ≠ none := by
  obtain ⟨x, hx⟩ := Option.ne_none_iff_exists'.mp htarget
  obtain ⟨v, hv⟩ := Option.ne_none_iff_exists'.mp hi
  by_cases hia : i = a
  · subst hia
    simp [tdRow, hx, hv]
  · simp [tdRow, hia, hv]

/-- An update with a board that is not full as successor keeps the table
playable. -/
theorem Updates.playable {s : Board} {a : Fin 9} {reward : ℚ} {sNext : Option Board}
    (hu : Updates h s a reward sNext k) (hh : h.Playable) (ha : s a = 0)
    (hnext : ∀ s', sNext = some s' → legalMoves s' ≠ []) : k.Playable := by
  have hrow := QTable.Playable.row hh
  intro b q hq
  by_cases hbs : b = s
  · subst hbs
    obtain rfl : tdRow h b a reward sNext = q := by simpa [hu.lookup_self] using hq
    refine ⟨fun i hi => ?_, fun hb => ?_⟩
    · have hia : i ≠ a := fun e => hi (e ▸ ha)
      rw [tdRow, Function.update_of_ne hia]
      exact (hrow b).1 i hi
    · obtain ⟨j, hj⟩ : ∃ j, h.row b j ≠ none := by
        by_contra hnone
        push Not at hnone
        exact (hrow b).2 hb (rowMax_eq_none.mpr hnone)
      exact rowMax_ne_none (tdRow_ne_none (tdTarget_ne_none hh hnext) hj)
  · rcases hu.lookup_of_ne b hbs with e | ⟨hs', e⟩
    · exact hh b q (e ▸ hq)
    · obtain rfl : h.row b = q := by simpa [e] using hq
      exact hrow b

/-! ### The episode loop -/

/-- The opponent answers every board on which the game goes on with a legal
move, and leaves the agent able to play. -/
def LegalPlayer (opponent : Player ρ ξ) (rng : GenId) : Prop :=
  ∀ b, isTerminal b = (false, 0) →
    Returns Host.Playable (opponent b (some rng)) fun a h => h.Playable ∧ ∃ i, b i = 0 ∧ a = (i : ℕ)

/-- The buffered pair, as long as it waits for its update. -/
def pendingPair (traineeToMove : Bool) (last : Option (Board × Fin 9)) : List (Board × Fin 9) :=
  if traineeToMove then [] else last.toList

/-- What the loop leaves behind: `tr` is its record, `ps` the game it plays. -/
structure Credited (traineeToMove : Bool) (board : Board) (last : Option (Board × Fin 9)) (r : ℤ)
    (tr : List Event) (ps : List Ply) : Prop where
  plies : tr.filter Event.isPly = ps.map (Ply.event true)
  length : ps.length ≤ empties board
  legal : LegalGame traineeToMove board ps r
  credited : tr.filterMap Event.update?
    = credit (pendingPair traineeToMove last ++ traineeMoves ps) r

/-- The postcondition of the loop from the world `w`. -/
def LoopPost (traineeToMove : Bool) (board : Board) (last : Option (Board × Fin 9))
    (w : World ρ ξ) (r : ℤ) (w' : World ρ ξ) : Prop :=
  w'.host.Playable ∧ ∃ tr ps, w'.trace = w.trace ++ tr ∧ Credited traineeToMove board last r tr ps

variable {w : World ρ ξ} {board : Board} {last : Option (Board × Fin 9)} {r : ℤ}
  {opponent : Player ρ ξ} {rng : GenId}

theorem exec_record (e : Event) :
    exec (record e : Session ρ ξ Unit) w = (.ok (), { w with trace := w.trace ++ [e] }) := rfl

theorem exec_onHost {α : Type} {x : Method ρ ξ α} {k : Host ρ ξ} {a : α}
    (hx : exec x w.host = (.ok a, k)) : exec (onHost x) w = (.ok a, { w with host := k }) := by
  rw [onHost, exec_onPart, hx]

/-- The record of `updateLast`. -/
def lastUpdate (last : Option (Board × Fin 9)) (reward : ℚ) (sNext : Option Board) : List Event :=
  last.toList.map fun sa => .update sa.1 sa.2 reward sNext

theorem exec_updateLast (w : World ρ ξ) (last : Option (Board × Fin 9)) (reward : ℚ)
    (sNext : Option Board) (hw : w.host.Playable)
    (hlast : ∀ sa, last = some sa → sa.1 sa.2 = 0)
    (hnext : ∀ s', sNext = some s' → legalMoves s' ≠ []) :
    ∃ k : Host ρ ξ, k.Playable ∧ exec (updateLast true last reward sNext) w
      = (.ok (), ⟨k, w.trace ++ lastUpdate last reward sNext⟩) := by
  cases last with
  | none => exact ⟨w.host, hw, by simp [updateLast, lastUpdate]⟩
  | some sa =>
      obtain ⟨s, a⟩ := sa
      obtain ⟨⟨⟩, k, hk, hu⟩ := (update_sat w.host s a reward sNext).exists rfl
      refine ⟨k, hu.playable hw (hlast _ rfl) hnext, ?_⟩
      show exec (agentUpdate s a reward sNext) w = _
      unfold agentUpdate
      rw [exec_bind_ok (exec_record _)]
      exact exec_onHost hk

/-- A ply of the trainee. -/
theorem exec_episodeLoop_trainee {k : Host ρ ξ} {a : Fin 9} (train : Bool) (fuel : ℕ)
    (hselect : exec (selectAction G board) w.host = (.ok a, k)) (ha : board a = 0) :
    exec (episodeLoop G opponent rng train (fuel + 1) true board last) w
      = exec (if (isTerminal (place board a)).1 then do
            updateLast train (some (board, a)) ((isTerminal (place board a)).2 : ℤ) none
            pure (isTerminal (place board a)).2
          else episodeLoop G opponent rng train fuel false (flipPerspective (place board a))
            (some (board, a)))
        ⟨k, w.trace ++ [.ply train true board (a : ℕ)]⟩ := by
  conv_lhs => unfold episodeLoop
  rw [exec_bind_ok (exec_onHost hselect), applyMove_of_legal ha, exec_bind_ok (exec_orRaise _ _),
    exec_bind_ok (exec_record _)]

/-- A ply of the opponent. -/
theorem exec_episodeLoop_opponent {k : Host ρ ξ} {a : Fin 9} (train : Bool) (fuel : ℕ)
    (hmove : exec (opponent board (some rng)) w.host = (.ok ((a : ℕ) : ℤ), k)) (ha : board a = 0) :
    exec (episodeLoop G opponent rng train (fuel + 1) false board last) w
      = exec (if (isTerminal (place board a)).1 then do
            updateLast train last (-(isTerminal (place board a)).2 : ℤ) none
            pure (-(isTerminal (place board a)).2)
          else do
            updateLast train last 0 (some (flipPerspective (place board a)))
            episodeLoop G opponent rng train fuel true (flipPerspective (place board a)) last)
        ⟨k, w.trace ++ [.ply train false board (a : ℕ)]⟩ := by
  conv_lhs => unfold episodeLoop
  rw [exec_bind_ok (exec_onHost hmove), applyMove_of_legal ha, exec_bind_ok (exec_orRaise _ _),
    exec_bind_ok (exec_record _)]

/-! The four ways in which a ply continues or ends the game. -/

theorem Credited.end_trainee {a : Fin 9} (ha : board a = 0) (hgo : isTerminal board = (false, 0))
    (hend : HasLine (place board a) ME ∨ legalMoves (place board a) = [])
    (hr : r = Ply.value ⟨true, board, a⟩) :
    Credited true board last r (.ply true true board (a : ℕ) :: lastUpdate (some (board, a)) r none)
      [⟨true, board, a⟩] where
  plies := rfl
  length := List.length_pos_of_mem (mem_legalMoves.mpr ha)
  legal := ⟨rfl, rfl, ha, hgo, by rw [if_pos rfl]; exact ⟨hend, hr⟩⟩
  credited := rfl

theorem Credited.end_opponent {a : Fin 9} (ha : board a = 0) (hgo : isTerminal board = (false, 0))
    (hend : HasLine (place board a) ME ∨ legalMoves (place board a) = [])
    (hr : r = Ply.value ⟨false, board, a⟩) :
    Credited false board last r (.ply true false board (a : ℕ) :: lastUpdate last r none)
      [⟨false, board, a⟩] where
  plies := by cases last <;> rfl
  length := List.length_pos_of_mem (mem_legalMoves.mpr ha)
  legal := ⟨rfl, rfl, ha, hgo, by rw [if_pos rfl]; exact ⟨hend, hr⟩⟩
  credited := by cases last <;> rfl

theorem LegalGame.ne_nil {turn : Bool} {ps : List Ply} (h : LegalGame turn board ps r) : ps ≠ [] := by
  rintro rfl
  exact h

variable {tr : List Event} {ps : List Ply}

theorem Credited.cons_trainee {a : Fin 9} (ha : board a = 0)
    (hgo : isTerminal board = (false, 0)) (hgo' : isTerminal (place board a) = (false, 0))
    (h : Credited false (flipPerspective (place board a)) (some (board, a)) r tr ps) :
    Credited true board last r (.ply true true board (a : ℕ) :: tr) (⟨true, board, a⟩ :: ps) where
  plies := congrArg _ h.plies
  length := by
    rw [← empties_flip_place ha]
    exact Nat.succ_le_succ h.length
  legal := ⟨rfl, rfl, ha, hgo, by rw [if_neg h.legal.ne_nil]; exact ⟨hgo', h.legal⟩⟩
  credited := h.credited

theorem Credited.cons_opponent {a : Fin 9} (ha : board a = 0)
    (hgo : isTerminal board = (false, 0)) (hgo' : isTerminal (place board a) = (false, 0))
    (h : Credited true (flipPerspective (place board a)) last r tr ps) :
    Credited false board last r
      (.ply true false board (a : ℕ) ::
        (lastUpdate last 0 (some (flipPerspective (place board a))) ++ tr))
      (⟨false, board, a⟩ :: ps) where
  plies := by
    have hp : (lastUpdate last 0 (some (flipPerspective (place board a)))).filter Event.isPly = [] := by
      cases last <;> rfl
    refine congrArg (List.cons _) ?_
    rw [List.filter_append, hp, List.nil_append]
    exact h.plies
  length := by
    rw [← empties_flip_place ha]
    exact Nat.succ_le_succ h.length
  legal := ⟨rfl, rfl, ha, hgo, by rw [if_neg h.legal.ne_nil]; exact ⟨hgo', h.legal⟩⟩
  credited := by
    -- the next ply is the trainee's, on the board that the update names
    obtain ⟨p, ps', rfl⟩ := List.exists_cons_of_ne_nil h.legal.ne_nil
    obtain ⟨hp, hb, -⟩ := h.legal
    have hmoves : traineeMoves (p :: ps')
        = (flipPerspective (place board a), p.action) :: traineeMoves ps' := by
      simp [traineeMoves, hp, hb]
    have hc : tr.filterMap Event.update? = credit (traineeMoves (p :: ps')) r := h.credited
    cases last with
    | none => exact hc
    | some sa =>
        show (⟨sa.1, sa.2, 0, some (flipPerspective (place board a))⟩ : UpdateCall)
          :: tr.filterMap Event.update? = credit (sa :: traineeMoves (p :: ps')) r
        rw [hc, hmoves]
        rfl

/-- A ply after which the game is over. -/
theorem isTerminal_place_done {a : Fin 9} (hgo : isTerminal board = (false, 0)) (ha : board a = 0)
    (hdone : (isTerminal (place board a)).1 = true) (t : Bool) :
    (HasLine (place board a) ME ∨ legalMoves (place board a) = []) ∧
      (if t then 1 else -1) * (isTerminal (place board a)).2 = Ply.value ⟨t, board, a⟩ := by
  have hw := (isTerminal_eq_false.mp hgo).1
  have hp := isTerminal_place hw ha
  by_cases hline : HasLine (place board a) ME
  · rw [if_pos hline] at hp
    refine ⟨Or.inl hline, ?_⟩
    cases t <;> simp [hp, Ply.value, Ply.result, hline]
  · rw [if_neg hline] at hp
    -- without a line the game is over because the board is full
    by_cases he : empties board = 1
    · rw [if_pos he] at hp
      have hfull : legalMoves (place board a) = [] := by
        have hplace := empties_place ha
        exact List.length_eq_zero_iff.mp (by unfold empties at hplace he; omega)
      exact ⟨Or.inr hfull, by simp [hp, Ply.value, Ply.result, hline]⟩
    · rw [if_neg he] at hp
      simp [hp] at hdone

/-- **The loop credits every move of the trainee.** -/
theorem episodeLoop_returns (hopp : LegalPlayer opponent rng) (fuel : ℕ) :
    ∀ turn board last (w : World ρ ξ), w.host.Playable → isTerminal board = (false, 0) →
      (∀ sa, last = some sa → sa.1 sa.2 = 0) → empties board ≤ fuel →
      ∃ r w', exec (episodeLoop G opponent rng true fuel turn board last) w = (.ok r, w') ∧
        LoopPost turn board last w r w' := by
  induction fuel with
  | zero =>
      intro turn board last w _ hgo _ hfuel
      exact absurd (Nat.le_zero.mp hfuel) (empties_ne_zero hgo)
  | succ fuel ih =>
      intro turn board last w hw hgo hlast hfuel
      have hmoves := (isTerminal_eq_false.mp hgo).2
      -- the fuel lasts, since every ply takes an empty cell
      have hlt : ∀ a, board a = 0 → empties (flipPerspective (place board a)) ≤ fuel := by
        intro a ha
        have hless := empties_flip_place ha
        omega
      cases turn with
      | true =>
          obtain ⟨a, k, hsel, hk, ha⟩ := (selectAction_returns (G := G) hw hmoves).exists rfl
          have hkp := hk.playable hw
          rw [exec_episodeLoop_trainee true fuel hsel ha]
          cases hdone : (isTerminal (place board a)).1 with
          | true =>
              -- the trainee ends the game, and its move is credited with the result
              obtain ⟨hend, hval⟩ := isTerminal_place_done hgo ha hdone true
              obtain ⟨k', hk', hupd⟩ := exec_updateLast
                ⟨k, w.trace ++ [.ply true true board (a : ℕ)]⟩ (some (board, a))
                (isTerminal (place board a)).2 none hkp (by simpa using ha) (by simp)
              simp only [if_true]
              rw [exec_bind_ok hupd]
              refine ⟨_, _, rfl, hk', _, [⟨true, board, a⟩], List.append_assoc _ _ _, ?_⟩
              exact Credited.end_trainee ha hgo hend (by simpa using hval)
          | false =>
              -- no update yet: the move is buffered until the opponent has answered
              have hgo' := isTerminal_place_go hgo ha hdone
              simp only [Bool.false_eq_true, if_false]
              obtain ⟨r, w', hexec, hpost, tr, ps, htr, hc⟩ := ih false
                (flipPerspective (place board a)) (some (board, a))
                ⟨k, w.trace ++ [.ply true true board (a : ℕ)]⟩ hkp (isTerminal_flip_go hgo')
                (by simpa using ha) (hlt a ha)
              refine ⟨r, w', hexec, hpost, _, _, ?_, hc.cons_trainee ha hgo hgo'⟩
              rw [htr]
              exact List.append_assoc _ _ _
      | false =>
          obtain ⟨_, k, hsel, hkp, a, ha, rfl⟩ := (hopp board hgo).exists hw
          rw [exec_episodeLoop_opponent true fuel hsel ha]
          cases hdone : (isTerminal (place board a)).1 with
          | true =>
              -- the opponent ends the game, and the buffered move gets its negated reward
              obtain ⟨hend, hval⟩ := isTerminal_place_done hgo ha hdone false
              obtain ⟨k', hk', hupd⟩ := exec_updateLast
                ⟨k, w.trace ++ [.ply true false board (a : ℕ)]⟩ last
                (-(isTerminal (place board a)).2 : ℤ) none hkp hlast (by simp)
              simp only [if_true]
              rw [exec_bind_ok hupd]
              refine ⟨_, _, rfl, hk', _, [⟨false, board, a⟩], List.append_assoc _ _ _, ?_⟩
              exact Credited.end_opponent ha hgo hend (by simpa using hval)
          | false =>
              have hgo' := isTerminal_place_go hgo ha hdone
              have hgof := isTerminal_flip_go hgo'
              -- the buffered move is credited with 0 and the board that the trainee sees next
              obtain ⟨k', hk', hupd⟩ := exec_updateLast
                ⟨k, w.trace ++ [.ply true false board (a : ℕ)]⟩ last 0
                (some (flipPerspective (place board a))) hkp hlast
                (by rintro s' ⟨⟩; exact (isTerminal_eq_false.mp hgof).2)
              simp only [Bool.false_eq_true, if_false]
              rw [exec_bind_ok hupd]
              obtain ⟨r, w', hexec, hpost, tr, ps, htr, hc⟩ := ih true
                (flipPerspective (place board a)) last
                ⟨k', (w.trace ++ [.ply true false board (a : ℕ)]) ++
                  lastUpdate last 0 (some (flipPerspective (place board a)))⟩ hk' hgof hlast (hlt a ha)
              refine ⟨r, w', hexec, hpost, _, _, ?_, hc.cons_opponent ha hgo hgo'⟩
              rw [htr]
              simp

/-! ### The players of the repository are legal -/

theorem randomPlayer_legal (G : Generator ρ) (rng : GenId) :
    LegalPlayer (randomPlayer G : Player ρ ξ) rng := by
  intro b hgo h hh
  obtain ⟨i, g, hi, hexec⟩ := exec_randomPlayer G (isTerminal_eq_false.mp hgo).2 rng h
  rw [hexec]
  exact ⟨hh, i, hi, rfl⟩

/-- The agent itself, in self-play. -/
theorem selfPlayOpponent_legal (G : Generator ρ) (rng : GenId) :
    LegalPlayer (selfPlayOpponent G : Player ρ ξ) rng := by
  intro b hgo h hh
  obtain ⟨a, s, hsel, hs, ha⟩ :=
    (selectAction_legal (G := G) (isTerminal_eq_false.mp hgo).2).exists hh
  unfold selfPlayOpponent
  rw [exec_bind_ok hsel]
  exact ⟨hs, a, ha, rfl⟩

/-! ### Outcomes -/

/-- The outcome of a legal game is the value of its last ply; no earlier ply
completes a line or fills the board. -/
theorem LegalGame.outcome {turn : Bool} (h : LegalGame turn board ps r) :
    (r = 1 ↔ ∃ p ∈ ps, p.byTrainee = true ∧ HasLine p.result ME) ∧
      (r = -1 ↔ ∃ p ∈ ps, p.byTrainee = false ∧ HasLine p.result ME) ∧
      (r = 0 ↔ (∀ p ∈ ps, ¬ HasLine p.result ME) ∧ ∃ p ∈ ps, legalMoves p.result = []) := by
  induction ps generalizing turn board with
  | nil => exact h.elim
  | cons p ps ih =>
      obtain ⟨-, -, -, -, h⟩ := h
      by_cases hps : ps = []
      · rw [if_pos hps] at h
        obtain ⟨hend, rfl⟩ := h
        subst hps
        by_cases hline : HasLine p.result ME
        · cases hp : p.byTrainee <;> simp [Ply.value, hline, hp]
        · simp [Ply.value, hline, hend.resolve_left hline]
      -- the game goes on after this ply, which has neither a line nor filled the board
      · rw [if_neg hps] at h
        obtain ⟨hgo, hrest⟩ := h
        obtain ⟨hw, hmoves⟩ := isTerminal_eq_false.mp hgo
        have hline := (winner_eq_zero.mp hw).1
        obtain ⟨h1, h2, h3⟩ := ih hrest
        refine ⟨h1.trans ?_, h2.trans ?_, h3.trans ?_⟩ <;> simp [hline, hmoves]

/-- The boards of the trainee's moves have that move. -/
theorem LegalGame.trainee_legal {turn : Bool} (h : LegalGame turn board ps r) :
    ∀ sa ∈ traineeMoves ps, sa.1 sa.2 = 0 := by
  induction ps generalizing turn board with
  | nil => exact h.elim
  | cons p ps ih =>
      obtain ⟨-, rfl, ha, -, h⟩ := h
      have hrest : ∀ sa ∈ traineeMoves ps, sa.1 sa.2 = 0 := by
        by_cases hps : ps = []
        · simp [hps, traineeMoves]
        · rw [if_neg hps] at h
          exact ih h.2
      intro sa hsa
      unfold traineeMoves at hsa
      rw [List.filterMap_cons] at hsa
      cases hp : p.byTrainee <;> simp only [hp, if_true, Bool.false_eq_true, if_false] at hsa
      · exact hrest sa hsa
      · rcases List.mem_cons.mp hsa with rfl | hsa
        · exact ha
        · exact hrest sa hsa

/-- The successor of a credited move is the board of the next move. -/
theorem mem_credit_sNext {moves : List (Board × Fin 9)} {u : UpdateCall} {s' : Board}
    (hu : u ∈ credit moves r) (hs : u.sNext = some s') : ∃ a, (s', a) ∈ moves := by
  induction moves with
  | nil => simp [credit] at hu
  | cons sa moves ih =>
      cases moves with
      | nil =>
          obtain rfl : u = ⟨sa.1, sa.2, r, none⟩ := by simpa [credit] using hu
          simp at hs
      | cons sa' moves =>
          rcases List.mem_cons.mp hu with rfl | hu
          · obtain rfl : sa'.1 = s' := by simpa using hs
            exact ⟨sa'.2, by simp⟩
          · obtain ⟨a, ha⟩ := ih hu
            exact ⟨a, List.mem_cons_of_mem _ ha⟩

/-! ### Exact credit -/

/-- The record of an episode of plies `ps` and updates `us` that returned `r`:
the plies are a legal game of at most nine moves, there is one update for each
move of the trainee, and the outcome is the one the board shows. -/
structure ExactCredit (traineeFirst : Bool) (ps : List Ply) (us : List UpdateCall) (r : ℤ) :
    Prop where
  length : ps.length ≤ 9
  legal : LegalGame traineeFirst initialBoard ps r
  credited : us = credit (traineeMoves ps) r
  next_legal : ∀ u ∈ us, ∀ s', u.sNext = some s' → legalMoves s' ≠ []
  won : r = 1 ↔ ∃ p ∈ ps, p.byTrainee = true ∧ HasLine p.result ME
  lost : r = -1 ↔ ∃ p ∈ ps, p.byTrainee = false ∧ HasLine p.result ME
  drawn : r = 0 ↔ (∀ p ∈ ps, ¬ HasLine p.result ME) ∧ ∃ p ∈ ps, legalMoves p.result = []

/-- **Credit assignment is exact.**  From every world whose table is playable,
against every opponent that answers with legal moves and leaves the table
playable, an episode of training returns, and its record is exact. -/
theorem runEpisode_credit (G : Generator ρ) (opponent : Player ρ ξ) (rng : GenId)
    (hopp : LegalPlayer opponent rng) (w : World ρ ξ) (hw : w.host.Playable) :
    ∃ r w' tr first ps, exec (runEpisode G opponent rng true) w = (.ok r, w') ∧
      w'.host.Playable ∧ w'.trace = w.trace ++ .start true first :: tr ∧
      tr.filter Event.isPly = ps.map (Ply.event true) ∧
      ExactCredit first ps (tr.filterMap Event.update?) r := by
  unfold runEpisode
  obtain ⟨first, k, hcoin, hk⟩ : ∃ first k, exec (coinFlip G rng) w.host = (.ok first, k) ∧
      k.agent = w.host.agent := ⟨_, _, exec_pick, rfl⟩
  have hkp : k.Playable := by
    unfold Host.Playable
    rw [hk]
    exact hw
  rw [exec_bind_ok (exec_onHost hcoin), exec_bind_ok (exec_record _)]
  obtain ⟨r, w', hexec, hpost, tr, ps, htr, hc⟩ := episodeLoop_returns hopp 9 first initialBoard
    none ⟨k, w.trace ++ [.start true first]⟩ hkp isTerminal_initialBoard (by simp)
    empties_initialBoard.le
  have hlen := hc.length
  rw [empties_initialBoard] at hlen
  have hcred : tr.filterMap Event.update? = credit (traineeMoves ps) r := by
    cases first <;> exact hc.credited
  obtain ⟨hwon, hlost, hdrawn⟩ := hc.legal.outcome
  refine ⟨r, w', tr, first, ps, hexec, hpost, ?_, hc.plies, hlen, hc.legal, hcred, ?_, hwon, hlost,
    hdrawn⟩
  · rw [htr]
    simp
  · intro u hu s' hs
    rw [hcred] at hu
    obtain ⟨a, ha⟩ := mem_credit_sNext hu hs
    exact List.ne_nil_of_mem (mem_legalMoves.mpr (hc.legal.trainee_legal _ ha))

/-- A stream that always draws 0 and the last index. -/
def lastGen : Generator Unit where
  random _ := (0, ())
  integers n hn _ := (⟨n - 1, Nat.sub_lt hn Nat.one_pos⟩, ())
  choice n hn _ := (⟨n - 1, Nat.sub_lt hn Nat.one_pos⟩, ())
  random_nonneg _ := le_rfl
  random_lt_one _ := zero_lt_one

/-- A greedy agent with the given table. -/
def greedyWorld (table : QTable) : World Unit Unit :=
  ⟨⟨⟨1, 1, 0, 0, table⟩, fun _ => (), [], ()⟩, []⟩

/-- A row that prefers the centre of the empty board. -/
def centreRow : Row := fun i => some (if i = 4 then 1 else 0)

def centreTable : QTable := (∅ : QTable).insert initialBoard centreRow

theorem centreTable_playable : centreTable.Playable := by
  have hempty : QTable.Playable ∅ := fun b q hq => by cases hq
  refine QTable.Playable.insert hempty (fun i hi => absurd rfl hi) fun _ => ?_
  exact rowMax_ne_none (i := 0) (Option.some_ne_none _)

/-- Self-play from a table that has a row already. -/
theorem runEpisode_credit_centre : ∃ r w',
    exec (runEpisode lastGen (selfPlayOpponent lastGen) 0 true) (greedyWorld centreTable)
      = (.ok r, w') ∧ w'.host.Playable := by
  obtain ⟨r, w', -, -, -, hexec, hw', -⟩ := runEpisode_credit lastGen (selfPlayOpponent lastGen) 0
    (selfPlayOpponent_legal lastGen 0) (greedyWorld centreTable) centreTable_playable
  exact ⟨r, w', hexec, hw'⟩

/-- With a row that is NaN throughout for the empty board, an episode raises
although the opponent answers every board with a legal move. -/
theorem runEpisode_raises_on_nan_row :
    (∀ b h, isTerminal b = (false, 0) → ∃ i : Fin 9, b i = 0 ∧
      (exec (randomPlayer lastGen b (some 0) : Method Unit Unit ℤ) h).1 = .ok ((i : ℕ) : ℤ)) ∧
    (exec (runEpisode lastGen (randomPlayer lastGen) 0 true)
        (greedyWorld (AList.singleton initialBoard fun _ => none))).1
      = .error (.valueError "a cannot be empty unless no samples are taken") := by
  refine ⟨fun b h hgo => ?_, ?_⟩
  · obtain ⟨i, g, hi, hexec⟩ := exec_randomPlayer lastGen (isTerminal_eq_false.mp hgo).2 0 h
    exact ⟨i, hi, by rw [hexec]⟩
  · decide +kernel

end MyTests.RlTtt
