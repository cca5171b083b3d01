/-
MyTests/Counting/SortRange.lean

`count_sort` and `stl_sort` of `cpp/sort-range.cc`.

The histogram is shifted by one slot, so that its prefix sums are the first places
of the values; the slots then move on as write cursors.  Every access to `cnt`,
`array` and `idx` is checked, and one out of bounds gives no result.
-/
import MyTests.Counting.Range

namespace MyTests.Counting

open MyTests.Lib

/-! ### The two sorts -/

/-- `stl_sort`. -/
def stlSort (array : List Int64) (idx : List ℕ) : List ℕ :=
  idx.mergeSort fun i1 i2 => !decide (array[i2]! < array[i1]!)

/-- `++cnt[v-min+1]`. -/
def countStep (array : List Int64) (cnt : List ℕ) (v : Int64) : Option (List ℕ) := do
  let k ← diffSucc v.toInt (minOf array)
  bump cnt (sizeT k)

/-- `cnt[i] += cnt[i-1]`. -/
def prefixStep (cnt : List ℕ) (i : ℕ) : Option (List ℕ) := do
  let c ← cnt[i]?
  let p ← cnt[i - 1]?
  some (cnt.set i (c + p))

/-- `idx[cnt[array[i]-min]++] = i`. -/
def placeStep (array : List Int64) (s : List ℕ × List ℕ) (i : ℕ) : Option (List ℕ × List ℕ) := do
  let v ← array[i]?
  let k ← long (v.toInt - minOf array)
  scatter s.1 s.2 (sizeT k) i

/-- `count_sort`. -/
def countSort (array : List Int64) (idx : List ℕ) : Option (List ℕ) := do
  let range ← diffSucc (maxOf array) (minOf array)
  let cnt := List.replicate (1 + sizeT range) 0
  let cnt ← array.foldlM (countStep array) cnt
  let cnt ← (List.range' 1 (sizeT range)).foldlM prefixStep cnt
  let s ← (List.range idx.length).foldlM (placeStep array) (cnt, idx)
  return s.2

/-! ### The counters -/

/-- The slot of item `i`. -/
def slot (array : List Int64) (i : ℕ) : ℕ := offset array array[i]!

variable {array : List Int64}

theorem slot_lt {i : ℕ} (hi : i < array.length) : slot array i < rangeOf array := by
  rw [slot, getElem!_pos array i hi]
  exact offset_lt (List.getElem_mem hi)

/-- The histogram, one slot up. -/
theorem foldlM_countStep (h : Representable array) :
    array.foldlM (countStep array) (List.replicate (1 + rangeOf array) 0)
      = some (tab (1 + rangeOf array) fun b =>
          if b ≤ 0 then below (slot array) array.length b else seen (slot array) array.length (b - 1)) := by
  -- every value counts one slot behind its own, so the sums become first places
  have hbump : ∀ v ∈ array, ∀ cnt, countStep array cnt v = bump cnt (offset array v + 1) := by
    intro v hv cnt
    rw [countStep, h.offset_succ_eq hv, Option.bind_eq_bind, Option.bind_some,
      h.sizeT_natCast (offset_lt hv)]
  have hshift : (array.map fun v => offset array v + 1)
      = (array.map (offset array)).map (· + 1) := (List.map_map).symm
  have hlt : ∀ v ∈ array, offset array v + 1 < 1 + rangeOf array := by
    intro v hv
    have hoff := offset_lt hv
    omega
  rw [replicate_eq_tab, foldlM_bump_of _ hbump hlt]
  refine congrArg some (tab_congr fun b _ => ?_)
  rw [Nat.zero_add]
  cases b with
  | zero => simp [List.count_eq_zero]
  | succ b =>
      rw [if_neg (Nat.not_succ_le_zero b), Nat.add_sub_cancel, seen_eq_count, hshift,
        List.count_map_of_injective _ _ (add_left_injective 1), map_eq_tab]
      rfl

/-- **The prefix sums.**  The first `i` slots hold the first places of their
values, the slots after them the counts. -/
theorem foldlM_prefixStep (key : ℕ → ℕ) (n : ℕ) {m i : ℕ} (hi : i ≤ m) :
    (List.range' 1 i).foldlM prefixStep
        (tab (1 + m) fun b => if b ≤ 0 then below key n b else seen key n (b - 1))
      = some (tab (1 + m) fun b => if b ≤ i then below key n b else seen key n (b - 1)) := by
  induction i with
  | zero => rfl
  | succ i ih =>
      rw [List.range'_1_concat, List.foldlM_append, ih (Nat.le_of_succ_le hi), Option.bind_eq_bind,
        Option.bind_some, List.foldlM_cons, prefixStep, getElem?_tab (by omega), Nat.add_sub_cancel_left,
        getElem?_tab (by omega), if_neg (by omega), if_pos le_rfl]
      simp only [Option.bind_eq_bind, Option.bind_some, List.foldlM_nil, set_tab]
      refine congrArg some (tab_congr fun b _ => ?_)
      rcases eq_or_ne b (1 + i) with rfl | hb
      · rw [Function.update_self, if_pos (by omega), Nat.add_comm 1 i, below_succ, Nat.add_comm]
      · rw [Function.update_of_ne hb]
        split_ifs <;> first | rfl | omega

/-! ### The placement -/

theorem placeStep_eq (h : Representable array) {i : ℕ} (hi : i < array.length) (s : List ℕ × List ℕ) :
    placeStep array s i = scatter s.1 s.2 (slot array i) i := by
  have hmem : array[i] ∈ array := List.getElem_mem hi
  have hslot : slot array i = offset array array[i] := by rw [slot, getElem!_pos array i hi]
  rw [placeStep, List.getElem?_eq_getElem hi, hslot]
  simp only [Option.bind_eq_bind, Option.bind_some, h.offset_eq hmem, h.sizeT_natCast (offset_lt hmem).le]

theorem foldlM_placeStep (h : Representable array) {idx : List ℕ} (hlen : idx.length = array.length)
    {i : ℕ} (hi : i ≤ array.length) :
    ∃ cnt' idx', (List.range i).foldlM (placeStep array)
        (tab (1 + rangeOf array) (below (slot array) array.length), idx) = some (cnt', idx')
      ∧ Placing (slot array) array.length (1 + rangeOf array) i cnt' idx' := by
  induction i with
  | zero => exact ⟨_, _, rfl, Placing.start hlen⟩
  | succ i ih =>
      obtain ⟨cnt, idx', hrun, hplacing⟩ := ih (Nat.le_of_succ_le hi)
      have hslot : slot array i < rangeOf array := slot_lt hi
      obtain ⟨cnt', idx'', hscatter, hplacing'⟩ := hplacing.place hi (by omega)
      refine ⟨cnt', idx'', ?_, hplacing'⟩
      rw [List.range_succ, List.foldlM_append, hrun, Option.bind_eq_bind, Option.bind_some,
        List.foldlM_cons, placeStep_eq h hi, hscatter]
      rfl

theorem stableOrder_value (array : List Int64) :
    stableOrder (fun i => array[i]!.toInt) array.length = stlSort array (List.range array.length) := by
  rw [stlSort, stableOrder]
  congr 1
  funext i j
  rw [← decide_not, decide_eq_decide, Int64.lt_iff_toInt_lt, not_lt]

/-- The stable order of the slots is the stable order of the values. -/
theorem stableOrder_slot (array : List Int64) : stableOrder (slot array) array.length
    = stlSort array (List.range array.length) := by
  have hvalue : ∀ i < array.length, array[i]!.toInt = minOf array + slot array i := by
    intro i hi
    rw [slot, getElem!_pos array i hi]
    exact toInt_eq_offset (List.getElem_mem hi)
  rw [← stableOrder_value]
  refine eq_stableOrder _ (stableOrder_perm _ _) ?_
  refine (pairwise_stableOrder (slot array) array.length).imp_of_mem fun {i j} hi hj hij => ?_
  rw [(stableOrder_perm _ _).mem_iff, List.mem_range] at hi hj
  rw [Before, hvalue i hi, hvalue j hj]
  rw [Before] at hij
  omega

/-- **Range counting sort is stable sort.**  Whatever `idx` held, every access is
in bounds, and `idx` becomes the permutation that sorts the array, ties by
increasing index. -/
theorem countSort_eq_stlSort {idx : List ℕ} (hne : array ≠ [])
    (hrep : maxOf array - minOf array + 1 < 2 ^ 63) (hlen : idx.length = array.length) :
    countSort array idx = some (stlSort array (List.range array.length))
    ∧ (stlSort array (List.range array.length)).Perm (List.range array.length)
    ∧ (stlSort array (List.range array.length)).Pairwise fun i j =>
        array[i]! < array[j]! ∨ array[i]! = array[j]! ∧ i < j := by
  have h : Representable array := ⟨hne, hrep⟩
  obtain ⟨cnt', idx', hplace, hplacing⟩ := foldlM_placeStep h hlen le_rfl
  have hprefix := foldlM_prefixStep (slot array) array.length (le_refl (rangeOf array))
  -- after the prefix sums every slot holds the first place of its value
  have hbelow : (tab (1 + rangeOf array) fun b => if b ≤ rangeOf array
      then below (slot array) array.length b else seen (slot array) array.length (b - 1))
        = tab (1 + rangeOf array) (below (slot array) array.length) :=
    tab_congr fun b hb => if_pos (by omega)
  refine ⟨?_, stableOrder_slot array ▸ stableOrder_perm _ _, ?_⟩
  · rw [countSort, h.range_eq]
    simp only [Option.bind_eq_bind, Option.bind_some, h.sizeT_natCast le_rfl, foldlM_countStep h,
      hprefix, hbelow, hlen, hplace, hplacing.done, stableOrder_slot]
    rfl
  · rw [← stableOrder_value]
    refine (pairwise_stableOrder _ _).imp fun {i j} hij => ?_
    rw [Before] at hij
    rwa [Int64.lt_iff_toInt_lt, ← Int64.toInt_inj]

/-- A negative minimum and a tie. -/
theorem countSort_eq_stlSort_mixed : stlSort [2, -1, 2, 0] (List.range 4) = [1, 3, 0, 2] := by
  have hcount : countSort [2, -1, 2, 0] [7, 7, 7, 7] = some [1, 3, 0, 2] := by decide
  have hsort := (@countSort_eq_stlSort [2, -1, 2, 0] [7, 7, 7, 7] (by decide) (by decide) rfl).1
  exact Option.some.inj (hsort.symm.trans hcount)

end MyTests.Counting
