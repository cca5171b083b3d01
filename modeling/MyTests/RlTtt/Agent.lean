/-
MyTests/RlTtt/Agent.lean

The tabular Q-learning agent of `rl_ttt/agent.py`, in exact arithmetic.

A row of the Q-table is a value for each cell, `none` standing for NaN.  The
agent lives on a host together with the random generators and with whatever
state a callable of the caller may have (`ext`).  A generator is an object that
several owners may share, so the agent holds the name of its generator and the
host maps names to generators; two owners of one name draw from one stream.

`update` and `select_action` read rows through `q_values`, which adds a missing
row.  The lemmas speak of `QTable.row`, the row one reads, so that a missing
row and its lazy zero row are the same thing.
-/
import MyTests.RlTtt.Game
import MyTests.Lib.Effect

namespace MyTests.RlTtt

open Lib

/-! ### Random generators -/

/-- `np.random.Generator`: deterministic streams, which every draw advances. -/
structure Generator (ρ : Type) where
  /-- a number in `[0, 1)` -/
  random : ρ → ℚ × ρ
  /-- an index below `n` -/
  integers (n : ℕ) (hn : 0 < n) : ρ → Fin n × ρ
  /-- the position of an element of an array of length `n` -/
  choice (n : ℕ) (hn : 0 < n) : ρ → Fin n × ρ
  random_nonneg : ∀ g, 0 ≤ (random g).1
  random_lt_one : ∀ g, (random g).1 < 1

/-- The name of a generator object. -/
abbrev GenId := ℕ

/-! ### The Q-table -/

/-- A row: the value of each cell, `none` for NaN. -/
abbrev Row := Fin 9 → Option ℚ

/-- `self._q_table`. -/
abbrev QTable := AList fun _ : Board => Row

/-- The row that `q_values` creates: 0 on the empty cells. -/
def freshRow (board : Board) : Row := fun i => if board i = EMPTY then some 0 else none

structure QLearningAgent where
  alpha : ℚ
  gamma : ℚ
  epsilon : ℚ
  rng : GenId
  qTable : QTable

/-- The state of the process, as far as the agent and its callers touch it. -/
structure Host (ρ ξ : Type) where
  agent : QLearningAgent
  gens : GenId → ρ
  /-- the warnings that numpy has printed -/
  warnings : List String
  /-- the state of callables that are passed in -/
  ext : ξ

variable {ρ ξ : Type} (G : Generator ρ)

/-- A method of the agent. -/
abbrev Method (ρ ξ α : Type) := Proc PyErr (Host ρ ξ) α

def Host.setQTable (h : Host ρ ξ) (t : QTable) : Host ρ ξ :=
  { h with agent := { h.agent with qTable := t } }

def Host.setGen (h : Host ρ ξ) (id : GenId) (g : ρ) : Host ρ ξ :=
  { h with gens := Function.update h.gens id g }

/-- `rng.random()`. -/
def drawRandom (id : GenId) : Method ρ ξ ℚ := do
  let h ← get
  let r := G.random (h.gens id)
  modify fun h => h.setGen id r.2
  pure r.1

/-- An element of a non-empty list at an index that is drawn. -/
def pick {α : Type} (draw : (n : ℕ) → 0 < n → ρ → Fin n × ρ) (id : GenId) (l : List α)
    (hl : 0 < l.length) : Method ρ ξ α := do
  let h ← get
  let r := draw l.length hl (h.gens id)
  modify fun h => h.setGen id r.2
  pure (l.get r.1)

/-- `agent.q_values(board)`. -/
def qValues (board : Board) : Method ρ ξ Row := do
  let h ← get
  match h.agent.qTable.lookup board with
  | some q => pure q
  | none =>
      let q := freshRow board
      modify fun h => h.setQTable (h.agent.qTable.insert board q)
      pure q

def hasState (board : Board) : Method ρ ξ Bool := do
  let h ← get
  pure (h.agent.qTable.lookup board).isSome

/-- The largest number of a row. -/
def rowMax (q : Row) : Option ℚ := ((List.finRange 9).filterMap q).max?

/-- `np.nanmax(q)`: NaN and a warning if there is no number. -/
def nanmax (q : Row) : Method ρ ξ (Option ℚ) := do
  if rowMax q = none then
    modify fun h => { h with warnings := h.warnings ++ ["All-NaN slice encountered"] }
  pure (rowMax q)

/-- `np.flatnonzero(q == max_q)`: NaN equals nothing. -/
def candidates (q : Row) (maxQ : Option ℚ) : List (Fin 9) :=
  (List.finRange 9).filter fun i => q i ≠ none ∧ q i = maxQ

/-- `agent.select_action(board)`. -/
def selectAction (board : Board) : Method ρ ξ (Fin 9) := do
  let legal := legalMoves board
  if hlegal : legal = [] then
    throw (.valueError "select_action called on terminal board")
  else
    let h ← get
    let x ← drawRandom G h.agent.rng
    if x < h.agent.epsilon then
      -- explore
      pick G.integers h.agent.rng legal (List.length_pos_of_ne_nil hlegal)
    else
      -- exploit
      let q ← qValues board
      let maxQ ← nanmax q
      let cs := candidates q maxQ
      if hcs : cs = [] then
        throw (.valueError "a cannot be empty unless no samples are taken")
      else
        pick G.choice h.agent.rng cs (List.length_pos_of_ne_nil hcs)

/-- `agent.update(s, a, reward, s_next)`. -/
def update (s : Board) (a : Fin 9) (reward : ℚ) (sNext : Option Board) : Method ρ ξ Unit := do
  let qS ← qValues s
  let h ← get
  let target ←
    match sNext with
    | none => pure (some reward)
    | some s' => do
        let qNext ← qValues s'
        let m ← nanmax qNext
        pure (m.map fun m => reward + h.agent.gamma * m)
  let q' := (qS a).bind fun v => target.map fun t => v + h.agent.alpha * (t - v)
  modify fun h => h.setQTable (h.agent.qTable.insert s (Function.update qS a q'))

/-! ### Rows as one reads them -/

namespace QTable

variable {t : QTable} {b b' : Board}

/-- The row of a board; the lazy zero row if there is none. -/
def row (t : QTable) (b : Board) : Row := (t.lookup b).getD (freshRow b)

/-- The table after `q_values(b)`. -/
def touch (t : QTable) (b : Board) : QTable :=
  match t.lookup b with
  | some _ => t
  | none => t.insert b (freshRow b)

@[simp] theorem row_insert_self (q : Row) : row (t.insert b q) b = q := by
  simp [row]

theorem row_insert_of_ne (q : Row) (h : b' ≠ b) : row (t.insert b q) b' = row t b' := by
  simp [row, AList.lookup_insert_ne h]

/-- Reading a row changes no row that one reads. -/
@[simp] theorem row_touch : row (t.touch b) b' = row t b' := by
  unfold touch
  split
  · rfl
  · rename_i hb
    by_cases h : b' = b
    · subst h
      simp [row, hb]
    · exact row_insert_of_ne _ h

theorem lookup_touch_self : (t.touch b).lookup b = some (row t b) := by
  unfold touch
  split
  · rename_i q hq
    simp [row, hq]
  · rename_i hb
    simp [row, hb]

theorem lookup_touch_of_ne (h : b' ≠ b) : (t.touch b).lookup b' = t.lookup b' := by
  unfold touch
  split
  · rfl
  · exact AList.lookup_insert_ne h

end QTable

/-! ### The methods as functions of the host -/

variable {h : Host ρ ξ} {id : GenId} {b : Board}

def Host.row (h : Host ρ ξ) (b : Board) : Row := h.agent.qTable.row b

def Host.touch (h : Host ρ ξ) (b : Board) : Host ρ ξ := h.setQTable (h.agent.qTable.touch b)

theorem exec_drawRandom : exec (drawRandom G id) h
    = (.ok (G.random (h.gens id)).1, h.setGen id (G.random (h.gens id)).2) := rfl

theorem exec_pick {α : Type} {draw : (n : ℕ) → 0 < n → ρ → Fin n × ρ} {l : List α}
    {hl : 0 < l.length} : exec (pick draw id l hl) h
      = (.ok (l.get (draw l.length hl (h.gens id)).1),
          h.setGen id (draw l.length hl (h.gens id)).2) := rfl

theorem exec_qValues : exec (qValues b) h = (.ok (h.row b), h.touch b) := by
  unfold qValues
  rw [exec_bind_ok (exec_get h)]
  unfold Host.row Host.touch QTable.row QTable.touch
  split
  · rename_i q hq
    simp [hq, Host.setQTable]
  · rename_i hb
    rw [exec_bind_ok (exec_modify _ h)]
    simp [hb]

theorem exec_hasState : exec (hasState b) h = (.ok (h.agent.qTable.lookup b).isSome, h) := rfl

/-! ### The largest value of a row -/

variable {q : Row} {m : ℚ} {i : Fin 9}

theorem rowMax_eq_none : rowMax q = none ↔ ∀ i, q i = none := by
  simp [rowMax, List.filterMap_eq_nil_iff]

theorem rowMax_eq_some : rowMax q = some m ↔ (∃ i, q i = some m) ∧ ∀ i v, q i = some v → v ≤ m := by
  rw [rowMax, List.max?_eq_some_iff]
  simp only [List.mem_filterMap, List.mem_finRange, true_and, forall_exists_index]
  exact and_congr_right fun _ => ⟨fun h i v => h v i, fun h v i => h i v⟩

theorem mem_candidates {maxQ : Option ℚ} : i ∈ candidates q maxQ ↔ q i ≠ none ∧ q i = maxQ := by
  simp [candidates]

/-- There is a greedy choice unless the row is NaN throughout. -/
theorem candidates_eq_nil : candidates q (rowMax q) = [] ↔ rowMax q = none := by
  constructor
  · intro hnil
    by_contra hne
    obtain ⟨m, hm⟩ := Option.ne_none_iff_exists'.mp hne
    obtain ⟨⟨i, hi⟩, -⟩ := rowMax_eq_some.mp hm
    have hmem : i ∈ candidates q (rowMax q) := mem_candidates.mpr ⟨by simp [hi], by rw [hi, hm]⟩
    simp [hnil] at hmem
  · intro hnone
    refine List.eq_nil_iff_forall_not_mem.mpr fun i hi => ?_
    exact (mem_candidates.mp hi).1 (rowMax_eq_none.mp hnone i)

theorem exec_nanmax : exec (nanmax q) h = (.ok (rowMax q), if rowMax q = none then
    { h with warnings := h.warnings ++ ["All-NaN slice encountered"] } else h) := by
  unfold nanmax
  split
  · rw [exec_bind_ok (exec_modify _ h)]
    rfl
  · rfl

/-! ### `select_action` -/

/-- What `select_action(b)` may change: a missing row is added, and the agent's
generator advances. -/
structure Selects (h : Host ρ ξ) (b : Board) (s : Host ρ ξ) : Prop where
  table : s.agent = h.agent ∨ s.agent = { h.agent with qTable := h.agent.qTable.touch b }
  gens : ∀ id, id ≠ h.agent.rng → s.gens id = h.gens id
  warnings : s.warnings = h.warnings ∨ rowMax (h.row b) = none
  ext : s.ext = h.ext

theorem Selects.setGen (s : Host ρ ξ) (hs : Selects h b s) (g : ρ) :
    Selects h b (s.setGen h.agent.rng g) where
  table := hs.table
  gens id hid := by
    show Function.update s.gens h.agent.rng g id = h.gens id
    rw [Function.update_of_ne hid]
    exact hs.gens id hid
  warnings := hs.warnings
  ext := hs.ext

/-- The actions that `select_action(b)` may return. -/
def Eligible (h : Host ρ ξ) (b : Board) (a : Fin 9) : Prop :=
  a ∈ legalMoves b ∨ a ∈ candidates (h.row b) (rowMax (h.row b))

theorem selectAction_sat (h : Host ρ ξ) (b : Board) :
    Sat (fun s => s = h) (selectAction G b) (fun a s => Selects h b s ∧ Eligible h b a)
      fun _ s => Selects h b s ∧ (legalMoves b = [] ∨ rowMax (h.row b) = none) := by
  rintro s rfl
  have hrefl : Selects s b s := ⟨Or.inl rfl, fun _ _ => rfl, Or.inl rfl, rfl⟩
  simp only [selectAction]
  split
  · rename_i hl
    exact ⟨hrefl, Or.inl hl⟩
  · rename_i hl
    rw [exec_bind_ok (exec_get s), exec_bind_ok (exec_drawRandom G)]
    split
    -- exploration: any legal move
    · rw [exec_pick]
      exact ⟨(hrefl.setGen _ _).setGen _ _, Or.inl (List.get_mem _ _)⟩
    -- exploitation: the row is read, which adds it if it is missing
    · rw [exec_bind_ok exec_qValues, exec_bind_ok exec_nanmax]
      have hrow : (s.setGen s.agent.rng (G.random (s.gens s.agent.rng)).2).row b = s.row b := rfl
      rw [hrow]
      set s₁ := s.setGen s.agent.rng (G.random (s.gens s.agent.rng)).2
      set s₂ : Host ρ ξ := if rowMax (s.row b) = none then
        { s₁.touch b with warnings := (s₁.touch b).warnings ++ ["All-NaN slice encountered"] }
        else s₁.touch b with hs₂
      have h₂ : Selects s b s₂ := by
        rw [hs₂]
        split
        · rename_i hmax
          exact ⟨Or.inr rfl, (hrefl.setGen _ _).gens, Or.inr hmax, rfl⟩
        · exact ⟨Or.inr rfl, (hrefl.setGen _ _).gens, Or.inl rfl, rfl⟩
      split
      · rename_i hcs
        exact ⟨h₂, Or.inr (candidates_eq_nil.mp hcs)⟩
      · rw [exec_pick]
        exact ⟨h₂.setGen _ _, Or.inr (List.get_mem _ _)⟩

/-! ### `update` -/

/-- `target` of `update`: NaN if the row of the next board is NaN throughout. -/
def tdTarget (h : Host ρ ξ) (reward : ℚ) : Option Board → Option ℚ
  | none => some reward
  | some s' => (rowMax (h.row s')).map fun m => reward + h.agent.gamma * m

/-- The row of `s` after `update`. -/
def tdRow (h : Host ρ ξ) (s : Board) (a : Fin 9) (reward : ℚ) (sNext : Option Board) : Row :=
  Function.update (h.row s) a ((h.row s a).bind fun v =>
    (tdTarget h reward sNext).map fun t => v + h.agent.alpha * (t - v))

/-- What `update(s, a, reward, s_next)` changes: the row of `s`, and a missing
row of `s_next` is added. -/
structure Updates (h : Host ρ ξ) (s : Board) (a : Fin 9) (reward : ℚ) (sNext : Option Board)
    (k : Host ρ ξ) : Prop where
  agent : k.agent = { h.agent with qTable := k.agent.qTable }
  lookup_self : k.agent.qTable.lookup s = some (tdRow h s a reward sNext)
  lookup_of_ne : ∀ b, b ≠ s → k.agent.qTable.lookup b = h.agent.qTable.lookup b ∨
    sNext = some b ∧ k.agent.qTable.lookup b = some (h.row b)
  gens : k.gens = h.gens
  warnings : k.warnings = h.warnings ∨ ∃ s', sNext = some s' ∧ rowMax (h.row s') = none
  ext : k.ext = h.ext

theorem update_sat (h : Host ρ ξ) (s : Board) (a : Fin 9) (reward : ℚ) (sNext : Option Board) :
    Returns (fun k => k = h) (update s a reward sNext) fun _ k => Updates h s a reward sNext k := by
  rintro k rfl
  unfold update
  rw [exec_bind_ok exec_qValues, exec_bind_ok (exec_get _)]
  cases sNext with
  | none =>
      show Updates k s a reward none _
      refine ⟨rfl, ?_, fun b hb => Or.inl ?_, rfl, Or.inl rfl, rfl⟩
      · exact AList.lookup_insert _
      · exact (AList.lookup_insert_ne hb).trans (QTable.lookup_touch_of_ne hb)
  | some s' =>
      have hrow : (k.touch s).row s' = k.row s' := QTable.row_touch
      rw [exec_bind_ok exec_qValues, exec_bind_ok exec_nanmax, exec_bind_ok (exec_pure _ _),
        exec_modify, hrow]
      have hlook : ∀ b, b ≠ s → ((k.touch s).touch s').agent.qTable.lookup b
          = k.agent.qTable.lookup b ∨ some s' = some b ∧
            ((k.touch s).touch s').agent.qTable.lookup b = some (k.row b) := by
        intro b hb
        by_cases hbs : b = s'
        · subst hbs
          exact Or.inr ⟨rfl, QTable.lookup_touch_self.trans (congrArg some hrow)⟩
        · exact Or.inl ((QTable.lookup_touch_of_ne hbs).trans (QTable.lookup_touch_of_ne hb))
      split
      · rename_i hmax
        refine ⟨rfl, AList.lookup_insert _, fun b hb => ?_, rfl, Or.inr ⟨s', rfl, hmax⟩, rfl⟩
        have hother := hlook b hb
        rwa [← AList.lookup_insert_ne hb] at hother
      · refine ⟨rfl, AList.lookup_insert _, fun b hb => ?_, rfl, Or.inl rfl, rfl⟩
        have hother := hlook b hb
        rwa [← AList.lookup_insert_ne hb] at hother

section

variable {k : Host ρ ξ} {s : Board} {a : Fin 9} {reward : ℚ} {sNext : Option Board}

/-- The rows of the other boards stay, stored or not. -/
theorem Updates.row_of_ne (hu : Updates h s a reward sNext k) (hb : b ≠ s) : k.row b = h.row b := by
  rcases hu.lookup_of_ne b hb with e | ⟨-, e⟩
  · rw [Host.row, QTable.row, e]
    rfl
  · rw [Host.row, QTable.row, e, Option.getD_some]

theorem Updates.row_self (hu : Updates h s a reward sNext k) :
    k.row s = tdRow h s a reward sNext := by
  rw [Host.row, QTable.row, hu.lookup_self, Option.getD_some]

end

end MyTests.RlTtt
