/-
MyTests/RlTtt/EvaluateIntact.lean

Evaluation leaves the learned policy intact, also when it fails.

Evaluation games write nothing to stored rows, and a row that they add is the
lazy zero row of a board on which the agent then moves (`Grown`).  The agent's
move is taken as a whole here (`traineePly_grown`): its row is added before the
ply is recorded, and between the two nothing can fail.
-/
import MyTests.RlTtt.Episode

namespace MyTests.RlTtt

open Lib

variable {ρ ξ : Type} {G : Generator ρ} {b : Board} {h k : Host ρ ξ}

/-! ### What a greedy or exploring move adds -/

theorem freshRow_of_lookup_none (hb : h.agent.qTable.lookup b = none) : h.row b = freshRow b := by
  simp [Host.row, QTable.row, hb]

theorem touch_of_lookup_some {q : Row} (hb : h.agent.qTable.lookup b = some q) :
    h.agent.qTable.touch b = h.agent.qTable := by
  simp [QTable.touch, hb]

theorem Selects.agent_of_lookup_some {q : Row} (hs : Selects h b k)
    (hb : h.agent.qTable.lookup b = some q) : k.agent = h.agent := by
  rcases hs.table with e | e
  · exact e
  · rw [e, touch_of_lookup_some hb]

/-- A failing move leaves the agent as it is. -/
theorem selectAction_error {e : PyErr} (hexec : exec (selectAction G b) h = (.error e, k)) :
    k.agent = h.agent := by
  by_cases hl : legalMoves b = []
  · rw [selectAction, dif_pos hl, exec_throw] at hexec
    rw [(Prod.mk.inj hexec).2]
  · have hsat := selectAction_sat G h b h rfl
    rw [hexec] at hsat
    obtain ⟨hs, hmax⟩ := hsat
    -- the row is NaN throughout, so it is a stored one
    cases hb : h.agent.qTable.lookup b with
    | some q => exact hs.agent_of_lookup_some hb
    | none =>
        rw [freshRow_of_lookup_none hb] at hmax
        exact absurd (hmax.resolve_left hl) (rowMax_freshRow hl)

/-- A move on a board without a row is legal. -/
theorem selectAction_ok {a : Fin 9} (hexec : exec (selectAction G b) h = (.ok a, k)) :
    Selects h b k ∧ (h.agent.qTable.lookup b = none → b a = 0) := by
  have hsat := selectAction_sat G h b h rfl
  rw [hexec] at hsat
  refine ⟨hsat.1, fun hb => ?_⟩
  rcases hsat.2 with ha | ha
  · exact mem_legalMoves.mp ha
  · rw [freshRow_of_lookup_none hb] at ha
    by_contra hocc
    exact (mem_candidates.mp ha).1 (freshRow_eq_none.mpr hocc)

/-! ### Worlds that have grown -/

/-- From `w` to `w'` no rate and no stored row has changed, and every row that
was added is the lazy zero row of a board on which the agent moved. -/
structure Grown (w w' : World ρ ξ) : Prop where
  alpha : w'.host.agent.alpha = w.host.agent.alpha
  gamma : w'.host.agent.gamma = w.host.agent.gamma
  rng : w'.host.agent.rng = w.host.agent.rng
  stored : ∀ b q, w.host.agent.qTable.lookup b = some q → w'.host.agent.qTable.lookup b = some q
  added : ∃ tr, w'.trace = w.trace ++ tr ∧ ∀ b q, w.host.agent.qTable.lookup b = none →
    w'.host.agent.qTable.lookup b = some q → q = freshRow b ∧ ∃ a, Event.ply false true b a ∈ tr

variable {w w' w'' : World ρ ξ}

theorem Grown.trans (h : Grown w w') (h' : Grown w' w'') : Grown w w'' where
  alpha := h'.alpha.trans h.alpha
  gamma := h'.gamma.trans h.gamma
  rng := h'.rng.trans h.rng
  stored b q hq := h'.stored b q (h.stored b q hq)
  added := by
    obtain ⟨tr, htr, hadd⟩ := h.added
    obtain ⟨tr', htr', hadd'⟩ := h'.added
    refine ⟨tr ++ tr', by rw [htr', htr, List.append_assoc], fun b q hnone hsome => ?_⟩
    cases hmid : w'.host.agent.qTable.lookup b with
    | none =>
        obtain ⟨hq, a, ha⟩ := hadd' b q hmid hsome
        exact ⟨hq, a, List.mem_append_right _ ha⟩
    | some q' =>
        obtain rfl : q' = q := Option.some.inj ((h'.stored b q' hmid).symm.trans hsome)
        obtain ⟨hq, a, ha⟩ := hadd b q' hnone hmid
        exact ⟨hq, a, List.mem_append_left _ ha⟩

/-- Nothing but the record, the generators and foreign state has changed. -/
theorem Grown.of_agent {tr : List Event} (hagent : w'.host.agent = w.host.agent)
    (htr : w'.trace = w.trace ++ tr) : Grown w w' where
  alpha := by rw [hagent]
  gamma := by rw [hagent]
  rng := by rw [hagent]
  stored b q hq := by rw [hagent]; exact hq
  added := ⟨tr, htr, fun b q hnone hsome => by rw [hagent, hnone] at hsome; cases hsome⟩

/-- A row was added for a board on which the agent then moved. -/
theorem Grown.of_touch {a : ℤ} (hagent : w'.host.agent = { w.host.agent with
      qTable := w.host.agent.qTable.touch b }) (hb : w.host.agent.qTable.lookup b = none)
    (htr : w'.trace = w.trace ++ [Event.ply false true b a]) : Grown w w' where
  alpha := by rw [hagent]
  gamma := by rw [hagent]
  rng := by rw [hagent]
  stored b' q hq := by
    -- the row that is added was missing, so no stored row is meant
    have hne : b' ≠ b := by
      rintro rfl
      rw [hb] at hq
      cases hq
    rw [hagent]
    exact (QTable.lookup_touch_of_ne hne).trans hq
  added := by
    refine ⟨_, htr, fun b' q hnone hsome => ?_⟩
    rw [hagent] at hsome
    by_cases hbb : b' = b
    · subst hbb
      have hrow := QTable.lookup_touch_self.symm.trans hsome
      rw [QTable.row, hb, Option.getD_none] at hrow
      exact ⟨(Option.some.inj hrow).symm, a, List.mem_singleton_self _⟩
    · rw [QTable.lookup_touch_of_ne hbb, hnone] at hsome
      cases hsome

/-! ### The games -/

variable {w₀ : World ρ ξ} {α : Type}

/-- A ply of the agent, followed by `f`. -/
theorem traineePly_grown {f : Fin 9 → Board → Session ρ ξ α} {board : Board}
    (hf : ∀ a newBoard, Keeps (Grown w₀) (f a newBoard)) :
    Keeps (Grown w₀) (do
      let a ← onHost (selectAction G board)
      let newBoard ← orRaise (applyMove board (a : ℕ))
      record (.ply false true board (a : ℕ))
      f a newBoard) := by
  intro w hw
  rcases hselect : exec (selectAction G board) w.host with ⟨e | a, k⟩
  · have herror : exec (onHost (selectAction G board)) w = (.error e, { w with host := k }) := by
      rw [onHost, exec_onPart, hselect]
    rw [exec_bind_error herror]
    exact hw.trans (Grown.of_agent (selectAction_error hselect) (List.append_nil _).symm)
  · obtain ⟨hs, hlegal⟩ := selectAction_ok hselect
    rw [exec_bind_ok (exec_onHost hselect)]
    cases hb : w.host.agent.qTable.lookup board with
    | none =>
        -- the row is added, if at all, together with the ply on its board
        rw [applyMove_of_legal (hlegal hb), exec_bind_ok (exec_orRaise _ _),
          exec_bind_ok (exec_record _)]
        refine hf a _ _ (hw.trans ?_)
        rcases hs.table with e | e
        · exact Grown.of_agent e rfl
        · exact Grown.of_touch e hb rfl
    | some q =>
        have hagent := hs.agent_of_lookup_some hb
        cases hmove : applyMove board (a : ℕ) with
        | error e =>
            exact hw.trans (Grown.of_agent hagent (List.append_nil _).symm)
        | ok newBoard =>
            rw [exec_bind_ok (exec_orRaise _ _), exec_bind_ok (exec_record _)]
            exact hf a _ _ (hw.trans (Grown.of_agent hagent rfl))

variable {opponent : Player ρ ξ} {rng : GenId}

/-- The opponent does not modify the agent; it may raise, draw, and answer
anything. -/
def LeavesAgent (opponent : Player ρ ξ) (rng : GenId) : Prop :=
  ∀ b (h : Host ρ ξ), (exec (opponent b (some rng)) h).2.agent = h.agent

theorem onHost_grown {x : Method ρ ξ α} (hx : ∀ h, (exec x h).2.agent = h.agent) :
    Keeps (Grown w₀) (onHost x) := by
  intro w hw
  have hw' : Grown w₀ { w with host := (exec x w.host).2 } :=
    hw.trans (Grown.of_agent (hx w.host) (List.append_nil _).symm)
  rw [onHost, exec_onPart]
  rcases (exec x w.host).1 with _ | _ <;> exact hw'

theorem record_grown (e : Event) : Keeps (Grown w₀) (record e : Session ρ ξ Unit) :=
  Sat.modify fun _ hw => hw.trans (Grown.of_agent rfl rfl)

theorem episodeLoop_grown (hopp : LeavesAgent opponent rng) (fuel : ℕ) :
    ∀ turn board last, Keeps (Grown w₀) (episodeLoop G opponent rng false fuel turn board last) := by
  induction fuel with
  | zero => exact fun _ _ _ => Keeps.throw
  | succ fuel ih =>
      intro turn board last
      cases turn with
      | true =>
          refine traineePly_grown fun a newBoard => ?_
          dsimp only
          split
          · exact Keeps.bind Keeps.pure fun _ => Keeps.pure
          · exact ih _ _ _
      | false =>
          refine Keeps.bind (onHost_grown (hopp board)) fun a => ?_
          refine Keeps.bind_orRaise fun newBoard _ => Keeps.bind (record_grown _) fun _ => ?_
          dsimp only
          split
          · exact Keeps.bind Keeps.pure fun _ => Keeps.pure
          · exact Keeps.bind Keeps.pure fun _ => ih _ _ _

theorem evalGames_grown (hopp : LeavesAgent opponent rng) (n : ℕ) (c : Tally) :
    Keeps (Grown w₀) (evalGames G opponent rng n c) := by
  induction n generalizing c with
  | zero => exact Keeps.pure
  | succ n ih =>
      refine Keeps.bind (Keeps.bind (onHost_grown fun _ => rfl) fun first =>
        Keeps.bind (record_grown _) fun _ => episodeLoop_grown hopp 9 _ _ _) fun r => ih _

def Tally.total (c : Tally) : ℕ := c.win + c.draw + c.loss

theorem Tally.total_count (c : Tally) (r : ℤ) : (c.count r).total = c.total + 1 := by
  unfold Tally.count Tally.total
  split
  · dsimp only
    omega
  · split <;> dsimp only <;> omega

theorem evalGames_total (n : ℕ) (c : Tally) :
    Sat (fun _ : World ρ ξ => True) (evalGames G opponent rng n c)
      (fun c' _ => c'.total = c.total + n) fun _ _ => True := by
  induction n generalizing c with
  | zero => exact Sat.pure fun _ _ => rfl
  | succ n ih =>
      have hgame : Sat (fun _ : World ρ ξ => True) (runEpisode G opponent rng false)
          (fun _ _ => True) fun _ _ => True := by
        intro w _
        rcases exec (runEpisode G opponent rng false) w with ⟨_ | _, _⟩ <;> exact trivial
      refine Sat.bind hgame fun r => (ih (c.count r)).weaken (fun _ hs => hs) ?_ fun _ _ he => he
      intro c' _ hc'
      rw [hc', Tally.total_count]
      omega

/-! ### `evaluate` -/

/-- Whatever happens in the games, `finally` restores epsilon. -/
theorem exec_evaluate (n : ℕ) (w : World ρ ξ) :
    (exec (evaluate G opponent n rng) w).2
      = (exec (evalGames G opponent rng n ⟨0, 0, 0⟩) (w.setEpsilon 0)).2.setEpsilon
          w.host.agent.epsilon := by
  unfold evaluate
  rw [exec_bind_ok (exec_get w), exec_bind_ok (exec_modify _ w)]
  rcases hgames : exec (evalGames G opponent rng n ⟨0, 0, 0⟩) (w.setEpsilon 0) with ⟨e | c, w'⟩
  · have hfinally : exec (andFinally (evalGames G opponent rng n ⟨0, 0, 0⟩)
        fun v => v.setEpsilon w.host.agent.epsilon) (w.setEpsilon 0)
        = (.error e, w'.setEpsilon w.host.agent.epsilon) := by rw [exec_andFinally, hgames]
    rw [exec_bind_error hfinally]
  · have hfinally : exec (andFinally (evalGames G opponent rng n ⟨0, 0, 0⟩)
        fun v => v.setEpsilon w.host.agent.epsilon) (w.setEpsilon 0)
        = (.ok c, w'.setEpsilon w.host.agent.epsilon) := by rw [exec_andFinally, hgames]
    rw [exec_bind_ok hfinally]
    split <;> rfl

/-- **`evaluate` leaves the learned policy intact**, whether it returns or
raises: the rates are what they were, stored rows are unchanged, added rows are
lazy zero rows of boards on which the agent moved; and when it returns, its
fractions are those of counts that sum to the number of games. -/
theorem evaluate_intact (G : Generator ρ) (opponent : Player ρ ξ) (rng : GenId)
    (hopp : LeavesAgent opponent rng) (n : ℕ) (w : World ρ ξ) :
    let w' := (exec (evaluate G opponent n rng) w).2
    w'.host.agent.epsilon = w.host.agent.epsilon ∧ w'.host.agent.alpha = w.host.agent.alpha ∧
      w'.host.agent.gamma = w.host.agent.gamma ∧
      (∀ b q, w.host.agent.qTable.lookup b = some q → w'.host.agent.qTable.lookup b = some q) ∧
      (∃ tr, w'.trace = w.trace ++ tr ∧ ∀ b q, w.host.agent.qTable.lookup b = none →
        w'.host.agent.qTable.lookup b = some q →
          q = freshRow b ∧ ∃ a, Event.ply false true b a ∈ tr) ∧
      ∀ r, (exec (evaluate G opponent n rng) w).1 = .ok r →
        ∃ c : Tally, c.win + c.draw + c.loss = n ∧ r = ⟨c.win / n, c.draw / n, c.loss / n⟩ := by
  -- whatever the games do, they do it after epsilon was set to 0 and before it is restored
  have hgrown : Grown w (exec (evalGames G opponent rng n ⟨0, 0, 0⟩) (w.setEpsilon 0)).2 := by
    have hstart : Grown w (w.setEpsilon 0) :=
      ⟨rfl, rfl, rfl, fun _ _ hq => hq, [], (List.append_nil _).symm,
        fun b q hnone hsome => by cases hnone.symm.trans hsome⟩
    exact (evalGames_grown hopp n _).state hstart
  intro w'
  have hw' : w' = _ := exec_evaluate (G := G) n w
  refine ⟨?_, ?_, ?_, ?_, ?_, fun r hr => ?_⟩
  · rw [hw']; rfl
  · rw [hw']; exact hgrown.alpha
  · rw [hw']; exact hgrown.gamma
  · rw [hw']; exact hgrown.stored
  · rw [hw']; exact hgrown.added
  · -- the fractions need only that each game counts once
    have hcount : Sat (fun _ : World ρ ξ => True) (evaluate G opponent n rng)
        (fun r _ => ∃ c : Tally, c.win + c.draw + c.loss = n ∧ r = ⟨c.win / n, c.draw / n, c.loss / n⟩)
        fun _ _ => True := by
      refine Sat.bind (Sat.get (Q := fun _ _ => True) fun _ _ => trivial) fun _ => ?_
      refine Sat.bind (Sat.modify (Q := fun _ _ => True) fun _ _ => trivial) fun _ => ?_
      refine Sat.bind (Q := fun c _ => c.total = (⟨0, 0, 0⟩ : Tally).total + n)
        (Sat.andFinally (evalGames_total n ⟨0, 0, 0⟩)) fun c => ?_
      split
      · exact Sat.throw fun _ _ => trivial
      · exact Sat.pure fun _ hc => ⟨c, by simpa [Tally.total] using hc, rfl⟩
    have hout := hcount w trivial
    rcases hexec : exec (evaluate G opponent n rng) w with ⟨_ | r', _⟩ <;> rw [hexec] at hr hout
    · cases hr
    · obtain rfl : r' = r := Except.ok.inj hr
      exact hout

/-- An opponent that always answers with a move out of range. -/
theorem evaluate_intact_illegal :
    let w := (greedyWorld centreTable).setEpsilon (3 / 4)
    let w' := (exec (evaluate lastGen (fun _ _ => (pure 9 : Method Unit Unit ℤ)) 3 0) w).2
    w'.host.agent.epsilon = 3 / 4 ∧ w'.host.agent.qTable.lookup initialBoard = some centreRow := by
  obtain ⟨hepsilon, -, -, hstored, -⟩ := evaluate_intact lastGen
    (fun _ _ => (pure 9 : Method Unit Unit ℤ)) 0 (fun _ _ => rfl) 3
    ((greedyWorld centreTable).setEpsilon (3 / 4))
  exact ⟨hepsilon, hstored _ _ (AList.lookup_insert _)⟩

end MyTests.RlTtt
