/-
MyTests/RlTtt/Export.lean

The export of a Q-table for the web page: `qtable_to_js_dict` of
`rl_ttt/export.py`, and reading it back.

A key is the board as nine integers with commas between them.  A row is the list
of the nine values, with `None` for NaN.  Reading back is splitting and parsing,
as `tests/test_export.py` does it; what is written and read in between, JSON,
changes nothing.
-/
import MyTests.RlTtt.Agent

namespace MyTests.RlTtt

/-- A row of the export; `none` is `null`. -/
abbrev JsonRow := List (Option ℚ)

/-- What `qtable_to_js_dict` returns. -/
structure JsonDict where
  numStates : ℕ
  states : AList fun _ : String => JsonRow

/-- `str(int(v))` -/
def cellText (c : Cell) : String := Int.repr c

/-- `",".join(str(int(v)) for v in board)` -/
def exportKey (board : Board) : String :=
  String.intercalate (String.singleton ',') (List.ofFn fun i => cellText (board i))

/-- The row with `None` for NaN. -/
def exportRow (q : Row) : JsonRow := List.ofFn q

/-- `for board, q_array in agent._q_table.items()` -/
def exportStates : List (Σ _ : Board, Row) → (AList fun _ : String => JsonRow) →
    AList fun _ : String => JsonRow
  | [], states => states
  | e :: items, states => exportStates items (states.insert (exportKey e.1) (exportRow e.2))

/-- `qtable_to_js_dict(agent)` -/
def qtableToJsDict (agent : QLearningAgent) : JsonDict :=
  ⟨agent.qTable.keys.length, exportStates agent.qTable.entries ∅⟩

/-! ### Reading back -/

/-- An integer as a cell. -/
def cellOfInt (n : ℤ) : Option Cell :=
  if n = 0 then some EMPTY else if n = 1 then some ME else if n = -1 then some OPP else none

/-- Nine entries as a function of the index. -/
def ofNine {α : Type} (l : List α) : Option (Fin 9 → α) :=
  if h : l.length = 9 then some fun i => l.get (i.cast h.symm) else none

/-- `int(x)`, as a cell -/
def importCell (piece : String) : Option Cell := piece.toInt?.bind cellOfInt

/-- `tuple(int(x) for x in key.split(","))` -/
def importKey (key : String) : Option Board :=
  (((key.split ',').toList.map String.Slice.copy).mapM importCell).bind ofNine

/-- The row with NaN for `null`. -/
def importRow (row : JsonRow) : Option Row := ofNine row

def importEntry (e : Σ _ : String, JsonRow) : Option (Σ _ : Board, Row) :=
  (importKey e.1).bind fun board => (importRow e.2).map fun q => ⟨board, q⟩

/-! ### Round trip -/

variable {b b' : Board}

theorem ofNine_ofFn {α : Type} (f : Fin 9 → α) : ofNine (List.ofFn f) = some f := by
  unfold ofNine
  rw [dif_pos (List.length_ofFn)]
  exact congrArg some (funext fun i => List.get_ofFn f _)

theorem cellOfInt_cast (c : Cell) : cellOfInt c = some c := by
  cases c <;> rfl

theorem comma_notMem_cellText (c : Cell) : ',' ∉ (cellText c).toList := by
  cases c <;> decide

theorem importCell_cellText (c : Cell) : importCell (cellText c) = some c := by
  rw [importCell, cellText, Int.toInt?_repr]
  exact cellOfInt_cast c

/-- Parsing what was printed, piece by piece. -/
theorem mapM_cellText (l : List Cell) :
    (l.map cellText).mapM importCell = some l := by
  induction l with
  | nil => rfl
  | cons c l ih =>
      rw [List.map_cons, List.mapM_cons, importCell_cellText, ih]
      rfl

theorem importKey_exportKey (board : Board) : importKey (exportKey board) = some board := by
  have hpieces : (List.ofFn fun i => cellText (board i)) = (List.ofFn board).map cellText :=
    List.map_ofFn.symm
  have hcomma : ∀ s ∈ (List.ofFn board).map cellText, ',' ∉ s.toList := by
    intro s hs
    obtain ⟨c, -, rfl⟩ := List.mem_map.mp hs
    exact comma_notMem_cellText c
  unfold importKey exportKey
  rw [hpieces, String.toList_split_intercalate hcomma, if_neg (by simp), mapM_cellText]
  exact ofNine_ofFn board

theorem exportKey_injective : Function.Injective exportKey := by
  intro b b' h
  have hb := importKey_exportKey b
  rw [h, importKey_exportKey] at hb
  exact (Option.some.inj hb).symm

theorem importEntry_export (e : Σ _ : Board, Row) :
    importEntry ⟨exportKey e.1, exportRow e.2⟩ = some e := by
  unfold importEntry
  rw [importKey_exportKey]
  show (importRow (exportRow e.2)).map _ = _
  rw [importRow, exportRow, ofNine_ofFn]
  rfl

/-- The loop puts the items in front, since no key comes twice. -/
theorem entries_exportStates (items : List (Σ _ : Board, Row))
    (states : AList fun _ : String => JsonRow) (hitems : items.NodupKeys)
    (hnew : ∀ e ∈ items, exportKey e.1 ∉ states) :
    (exportStates items states).entries
      = (items.map fun e => ⟨exportKey e.1, exportRow e.2⟩).reverse ++ states.entries := by
  induction items generalizing states with
  | nil => rfl
  | cons e items ih =>
      obtain ⟨hhead, htail⟩ := List.nodupKeys_cons.mp hitems
      show (exportStates items (states.insert (exportKey e.1) (exportRow e.2))).entries = _
      rw [ih _ htail ?_, AList.entries_insert_of_notMem (hnew e List.mem_cons_self)]
      · simp
      · intro e' he'
        rw [AList.mem_insert, not_or]
        refine ⟨fun hkey => hhead ?_, hnew e' (List.mem_cons_of_mem _ he')⟩
        rw [← exportKey_injective hkey]
        exact List.mem_map_of_mem he'

theorem entries_qtableToJsDict (agent : QLearningAgent) :
    (qtableToJsDict agent).states.entries
      = (agent.qTable.entries.map fun e => ⟨exportKey e.1, exportRow e.2⟩).reverse :=
  (entries_exportStates _ ∅ agent.qTable.nodupKeys fun _ _ => AList.notMem_empty _).trans
    (List.append_nil _)

/-- **Round trip.** -/
theorem importEntry_qtableToJsDict (agent : QLearningAgent) :
    ((qtableToJsDict agent).states.entries.map importEntry).Perm (agent.qTable.entries.map some) := by
  rw [entries_qtableToJsDict, List.map_reverse, List.map_map]
  refine (List.reverse_perm _).trans ?_
  rw [show importEntry ∘ (fun e : Σ _ : Board, Row => ⟨exportKey e.1, exportRow e.2⟩) = some from
    funext importEntry_export]

/-- What the page finds under the key of a board. -/
theorem lookup_qtableToJsDict (agent : QLearningAgent) (board : Board) :
    (qtableToJsDict agent).states.lookup (exportKey board)
      = (agent.qTable.lookup board).map exportRow := by
  ext row
  rw [← Option.mem_def, AList.mem_lookup_iff, entries_qtableToJsDict, List.mem_reverse, List.mem_map,
    ← Option.mem_def, Option.mem_map]
  constructor
  · rintro ⟨⟨b, q⟩, hmem, he⟩
    obtain ⟨hkey, hrow⟩ := Sigma.mk.inj he
    obtain rfl := exportKey_injective hkey
    exact ⟨q, AList.mem_lookup_iff.mpr hmem, eq_of_heq hrow⟩
  · rintro ⟨q, hq, rfl⟩
    exact ⟨⟨board, q⟩, AList.mem_lookup_iff.mp hq, rfl⟩

end MyTests.RlTtt
