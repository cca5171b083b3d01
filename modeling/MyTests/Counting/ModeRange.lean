/-
MyTests/Counting/ModeRange.lean

`stl_mode` and `count_mode` of `cpp/mode-range.cc`.

One counts in a hash map and scans its entries, in whatever order the map has
them; the other counts in an array over the range of the values and scans the
range, with the values that do not occur.  Both scans keep the best value so far
from the same start, the least `long` with the count 0.
-/
import MyTests.Counting.Range
import MyTests.Lib.Best

namespace MyTests.Counting

open MyTests.Lib

/-! ### The two modes -/

/-- `this_count > count || (this_count == count && this_value < mode)`, on pairs of
a value and its count. -/
def Better (this best : ℤ × ℕ) : Prop := best.2 < this.2 ∨ this.2 = best.2 ∧ this.1 < best.1

instance : DecidableRel Better := fun this best => by
  unfold Better
  infer_instance

/-- `std::numeric_limits<T>::min()`, with the count 0. -/
def startMode : ℤ × ℕ := (-2 ^ 63, 0)

/-- `++value_counts[value]` of a map: a missing entry starts from 0. -/
def increment (value : Int64) : List (Int64 × ℕ) → List (Int64 × ℕ)
  | [] => [(value, 1)]
  | (w, c) :: entries => if w = value then (w, c + 1) :: entries else (w, c) :: increment value entries

/-- `value_counts` of `stl_mode`, its entries in some order. -/
def mapCounts (array : List Int64) : List (Int64 × ℕ) :=
  array.foldl (fun entries value => increment value entries) []

/-- `stl_mode`, when the map iterates in the order `entries`. -/
def stlMode (entries : List (Int64 × ℕ)) : ℤ × ℕ :=
  entries.foldl (fun best e => keep Better best (e.1.toInt, e.2)) startMode

/-- `++value_counts[value - min]`. -/
def countValue (array : List Int64) (cnt : List ℕ) (value : Int64) : Option (List ℕ) := do
  let k ← long (value.toInt - minOf array)
  bump cnt (sizeT k)

/-- One turn of the scan over the range. -/
def scanStep (array : List Int64) (cnt : List ℕ) (best : ℤ × ℕ) (i : ℕ) : Option (ℤ × ℕ) := do
  let thisValue ← long (minOf array + i)
  let thisCount ← cnt[i]?
  some (keep Better best (thisValue, thisCount))

/-- `count_mode`. -/
def countMode (array : List Int64) : Option (ℤ × ℕ) := do
  let range ← diffSucc (maxOf array) (minOf array)
  let cnt ← array.foldlM (countValue array) (List.replicate (sizeT range) 0)
  (List.range range.toNat).foldlM (scanStep array cnt) startMode

/-! ### The best of a scan -/

theorem Better.asymm {a b : ℤ × ℕ} (h : Better a b) : ¬ Better b a := by
  unfold Better at *
  omega

theorem Better.or_better {a b c : ℤ × ℕ} (h : Better a c) : Better a b ∨ Better b c := by
  unfold Better at *
  omega

/-- The smallest of the values that occur most often, and how often. -/
structure IsMode (array : List Int64) (mode : ℤ) (count : ℕ) : Prop where
  occurs : ∃ v ∈ array, v.toInt = mode ∧ array.count v = count
  maximal : ∀ v, array.count v ≤ count
  smallest : ∀ v, array.count v = count → mode ≤ v.toInt

theorem IsMode.unique {array : List Int64} {m m' : ℤ} {c c' : ℕ} (h : IsMode array m c)
    (h' : IsMode array m' c') : (m, c) = (m', c') := by
  obtain ⟨v, -, rfl, hc⟩ := h.occurs
  obtain ⟨v', -, rfl, hc'⟩ := h'.occurs
  have hcount : c = c' := le_antisymm (hc ▸ h'.maximal v) (hc' ▸ h.maximal v')
  have hle := h.smallest v' (hc'.trans hcount.symm)
  have hge := h'.smallest v (hc.trans hcount)
  rw [hcount, le_antisymm hle hge]

variable {array : List Int64}

/-- **A scan finds the mode.**  It may meet the values in any order, and values that
do not occur: none of these is better than what the scan starts with. -/
theorem isMode_scan (hne : array ≠ []) {scan : List (ℤ × ℕ)}
    (hall : ∀ v ∈ array, (v.toInt, array.count v) ∈ scan)
    (hsound : ∀ e ∈ scan, 0 < e.2 → ∃ v ∈ array, e = (v.toInt, array.count v)) :
    IsMode array (scan.foldl (keep Better) startMode).1 (scan.foldl (keep Better) startMode).2 := by
  have hmem := foldl_keep_mem Better scan startMode
  have hbest : ∀ e ∈ startMode :: scan, ¬ Better e (scan.foldl (keep Better) startMode) :=
    fun e => not_better_foldl_keep Better (fun _ _ => Better.asymm) fun _ _ _ => Better.or_better
  generalize scan.foldl (keep Better) startMode = r at *
  have hle : ∀ v ∈ array, array.count v ≤ r.2 ∧ (array.count v = r.2 → r.1 ≤ v.toInt) := by
    intro v hv
    have hnot := hbest _ (List.mem_cons_of_mem _ (hall v hv))
    rw [Better] at hnot
    omega
  -- some value occurs, so the start is beaten
  obtain ⟨v₀, hv₀⟩ := List.exists_mem_of_ne_nil array hne
  have hpos : 0 < r.2 := (List.count_pos_iff.mpr hv₀).trans_le (hle v₀ hv₀).1
  have hscan : r ∈ scan := by
    rcases List.mem_cons.mp hmem with rfl | h
    · exact absurd hpos (lt_irrefl 0)
    · exact h
  obtain ⟨v, hv, rfl⟩ := hsound r hscan hpos
  refine ⟨⟨v, hv, rfl, rfl⟩, fun w => ?_, fun w hw => ?_⟩
  · by_cases hmem : w ∈ array
    · exact (hle w hmem).1
    · rw [List.count_eq_zero.mpr hmem]
      exact Nat.zero_le _
  · refine (hle w (List.count_pos_iff.mp ?_)).2 hw
    rw [hw]
    exact hpos

/-! ### The map -/

/-- An entry for each value of `seen`, with its count. -/
def Counted (seen : List Int64) (entries : List (Int64 × ℕ)) : Prop :=
  ∃ keys : List Int64, keys.Nodup ∧ (∀ v, v ∈ keys ↔ v ∈ seen)
    ∧ entries = keys.map fun v => (v, seen.count v)

theorem increment_map (value : Int64) (f : Int64 → ℕ) {keys : List Int64} (hnodup : keys.Nodup)
    (hnew : value ∉ keys → f value = 0) : increment value (keys.map fun v => (v, f v))
      = (if value ∈ keys then keys else keys ++ [value]).map
          fun v => (v, f v + if value = v then 1 else 0) := by
  induction keys with
  | nil => simp [increment, hnew]
  | cons w keys ih =>
      obtain ⟨hw, hnodup⟩ := List.nodup_cons.mp hnodup
      rw [List.map_cons, increment]
      split
      · next h =>
          subst h
          rw [if_pos List.mem_cons_self, List.map_cons, if_pos rfl]
          refine congrArg _ (List.map_congr_left fun v hv => ?_)
          rw [if_neg fun hwv : w = v => hw (hwv ▸ hv), Nat.add_zero]
      · next h =>
          have hne : value ≠ w := fun h' => h h'.symm
          have hmem : value ∈ w :: keys ↔ value ∈ keys := by simp [hne]
          rw [ih hnodup fun h' => hnew (hmem.not.mpr h')]
          simp only [hmem]
          split <;> simp [hne]

theorem Counted.increment {seen : List Int64} {entries : List (Int64 × ℕ)} (h : Counted seen entries)
    (value : Int64) : Counted (seen ++ [value]) (increment value entries) := by
  obtain ⟨keys, hnodup, hkeys, rfl⟩ := h
  have hcount : ∀ v, (seen ++ [value]).count v = seen.count v + if value = v then 1 else 0 := by
    intro v
    rw [List.count_append, List.count_singleton]
    simp only [beq_iff_eq]
  refine ⟨if value ∈ keys then keys else keys ++ [value], ?_, fun v => ?_, ?_⟩
  · split
    · exact hnodup
    · next h =>
        exact List.nodup_append.mpr ⟨hnodup, List.nodup_singleton value, fun a ha b hb hab => by
          rw [hab, List.mem_singleton.mp hb] at ha
          exact h ha⟩
  · rw [List.mem_append, List.mem_singleton, ← hkeys]
    split
    · next h => exact ⟨.inl, fun h' => h'.elim id fun h' => h' ▸ h⟩
    · rw [List.mem_append, List.mem_singleton]
  · simp only [hcount]
    exact increment_map value _ hnodup fun h => List.count_eq_zero.mpr fun h' => h ((hkeys value).mpr h')

theorem counted_mapCounts (array : List Int64) : Counted array (mapCounts array) := by
  have h : ∀ (l seen : List Int64) (entries : List (Int64 × ℕ)), Counted seen entries →
      Counted (seen ++ l) (l.foldl (fun entries value => increment value entries) entries) := by
    intro l
    induction l with
    | nil => exact fun seen entries h => (List.append_nil seen).symm ▸ h
    | cons value l ih =>
        intro seen entries h
        have hnext := ih _ _ (h.increment value)
        rwa [List.append_assoc] at hnext
  exact h array [] [] ⟨[], List.nodup_nil, fun _ => Iff.rfl, rfl⟩

/-- Whatever the order of the entries. -/
theorem isMode_stlMode (hne : array ≠ []) {entries : List (Int64 × ℕ)}
    (hperm : entries.Perm (mapCounts array)) :
    IsMode array (stlMode entries).1 (stlMode entries).2 := by
  obtain ⟨keys, -, hkeys, hcounts⟩ := counted_mapCounts array
  have hmem : ∀ e, e ∈ entries ↔ ∃ v ∈ array, e = (v, array.count v) := by
    intro e
    rw [hperm.mem_iff, hcounts, List.mem_map]
    exact exists_congr fun v => and_congr (hkeys v) eq_comm
  have hscan : stlMode entries
      = (entries.map fun e => (e.1.toInt, e.2)).foldl (keep Better) startMode := List.foldl_map.symm
  rw [hscan]
  refine isMode_scan hne (fun v hv => ?_) fun e he _ => ?_
  · exact List.mem_map.mpr ⟨(v, array.count v), (hmem _).mpr ⟨v, hv, rfl⟩, rfl⟩
  · obtain ⟨e', he', rfl⟩ := List.mem_map.mp he
    obtain ⟨v, hv, rfl⟩ := (hmem e').mp he'
    exact ⟨v, hv, rfl⟩

/-! ### The range -/

theorem foldlM_countValue (h : Representable array) :
    array.foldlM (countValue array) (List.replicate (rangeOf array) 0)
      = some (tab (rangeOf array) fun b => (array.map (offset array)).count b) := by
  have hbump : ∀ v ∈ array, ∀ cnt, countValue array cnt v = bump cnt (offset array v) := by
    intro v hv cnt
    rw [countValue, h.offset_eq hv, Option.bind_eq_bind, Option.bind_some,
      h.sizeT_natCast (offset_lt hv).le]
  rw [replicate_eq_tab, foldlM_bump_of _ hbump fun v hv => offset_lt hv]
  simp only [Nat.zero_add]

/-- The counter of a value, whether it occurs or not. -/
theorem count_offset {b : ℕ} {v : Int64} (hv : v.toInt = minOf array + b) :
    (array.map (offset array)).count b = array.count v := by
  rw [List.count, List.countP_map, List.count]
  refine List.countP_congr fun w hw => ?_
  have hoff := toInt_eq_offset hw
  simp only [Function.comp_apply, beq_iff_eq]
  rw [← Int64.toInt_inj, hv, hoff]
  omega

theorem foldlM_scanStep (h : Representable array) (cnt : ℕ → ℕ) (best : ℤ × ℕ) {n : ℕ}
    (hn : n ≤ rangeOf array) :
    (List.range n).foldlM (scanStep array (tab (rangeOf array) cnt)) best
      = some (((List.range n).map fun i : ℕ => (minOf array + i, cnt i)).foldl (keep Better) best) := by
  induction n with
  | zero => rfl
  | succ n ih =>
      rw [List.range_succ, List.foldlM_append, ih (Nat.le_of_succ_le hn), List.map_append,
        List.foldl_append]
      simp only [Option.bind_eq_bind, Option.bind_some, List.foldlM_cons, List.foldlM_nil, scanStep,
        h.value_eq hn, getElem?_tab hn]
      rfl

/-- **Counting mode equals hash-map mode.**  For every order of the map's entries
both return the smallest of the values that occur most often, with its count. -/
theorem modes_agree (hne : array ≠ []) (hrep : maxOf array - minOf array + 1 < 2 ^ 63)
    {entries : List (Int64 × ℕ)} (hperm : entries.Perm (mapCounts array)) :
    countMode array = some (stlMode entries)
    ∧ IsMode array (stlMode entries).1 (stlMode entries).2 := by
  have h : Representable array := ⟨hne, hrep⟩
  have hstl := isMode_stlMode hne hperm
  refine ⟨?_, hstl⟩
  have hcount : countMode array = some (((List.range (rangeOf array)).map fun i : ℕ =>
      (minOf array + i, (array.map (offset array)).count i)).foldl (keep Better) startMode) := by
    rw [countMode, h.range_eq]
    simp only [Option.bind_eq_bind, Option.bind_some, h.sizeT_natCast le_rfl, foldlM_countValue h,
      Int.toNat_natCast, foldlM_scanStep h _ _ le_rfl]
  rw [hcount]
  refine congrArg some (IsMode.unique (isMode_scan hne (fun v hv => ?_) fun e he hpos => ?_) hstl)
  · refine List.mem_map.mpr ⟨offset array v, List.mem_range.mpr (offset_lt hv), ?_⟩
    rw [count_offset (toInt_eq_offset hv), ← toInt_eq_offset hv]
  · -- a counter that is not 0 belongs to a value that occurs
    obtain ⟨i, -, rfl⟩ := List.mem_map.mp he
    obtain ⟨v, hv, rfl⟩ := List.mem_map.mp (List.count_pos_iff.mp hpos)
    exact ⟨v, hv, by rw [count_offset (toInt_eq_offset hv), ← toInt_eq_offset hv]⟩

/-- Two values occur twice, and the map lists its entries in another order. -/
theorem modes_agree_tie : countMode [3, -1, 5, 3, -1] = some (-1, 2) := by
  have hperm : [((-1 : Int64), 2), (5, 1), (3, 2)].Perm (mapCounts [3, -1, 5, 3, -1]) := by decide
  exact (modes_agree (by decide) (by decide) hperm).1

end MyTests.Counting
