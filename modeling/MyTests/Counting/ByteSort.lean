/-
MyTests/Counting/ByteSort.lean

`count_sort` and `stl_sort` of `cpp/sort.cc`, for bytes.

The histogram becomes the table of first places where it stands, through two
carried temporaries.  The placement loop counts in `unsigned`, of 32 bits, up to
a `size_t`, and the index wraps: with 2^32 elements or more its condition never
fails.  The loop therefore runs on fuel, and says how it ended.
-/
import MyTests.Lib.Ranking

namespace MyTests.Counting.Bytes

open MyTests.Lib

/-! ### The two sorts -/

/-- `stl_sort`. -/
def stlSort (v : List UInt8) (idx : List ℕ) : List ℕ :=
  idx.mergeSort fun i1 i2 => !decide (v[i2]! < v[i1]!)

/-- How a loop ends: with its result, with an access out of bounds, or not within
the fuel. -/
inductive Outcome
  | finished (idx : List ℕ)
  | fault
  | running

/-- The locals of the loop over the counters. -/
structure Sums where
  cnt : List ℕ
  save : ℕ
  prev : ℕ

/-- `prev += save; save = cnt[i]; cnt[i] = prev`. -/
def sumStep (s : Sums) (i : ℕ) : Option Sums := do
  let prev := s.prev + s.save
  let save ← s.cnt[i]?
  some { cnt := s.cnt.set i prev, save, prev }

/-- The counters, once they are first places. -/
def firstPlaces (v : List UInt8) : Option (List ℕ) := do
  let cnt ← (v.map UInt8.toNat).foldlM bump (List.replicate 256 0)
  let save ← cnt[0]?
  let s ← (List.range' 1 255).foldlM sumStep { cnt := cnt.set 0 0, save, prev := 0 }
  some s.cnt

/-- `idx[cnt[v[i]]++] = i`. -/
def placeStep (v : List UInt8) (cnt idx : List ℕ) (i : BitVec 32) : Option (List ℕ × List ℕ) := do
  let b ← v[i.toNat]?
  scatter cnt idx b.toNat i.toNat

/-- `for (unsigned i = 0; i < idx.size(); ++i)`, from `i` on. -/
def placeLoop (v : List UInt8) : ℕ → BitVec 32 → List ℕ → List ℕ → Outcome
  | 0, i, _, idx => if i.toNat < idx.length then .running else .finished idx
  | fuel + 1, i, cnt, idx =>
      if i.toNat < idx.length then
        match placeStep v cnt idx i with
        | none => .fault
        | some (cnt, idx) => placeLoop v fuel (i + 1#32) cnt idx
      else .finished idx

/-- `count_sort`. -/
def countSort (fuel : ℕ) (v : List UInt8) (idx : List ℕ) : Outcome :=
  match firstPlaces v with
  | none => .fault
  | some cnt => placeLoop v fuel 0#32 cnt idx

/-! ### The counters -/

/-- The key of item `i`. -/
def byteAt (v : List UInt8) (i : ℕ) : ℕ := v[i]!.toNat

theorem byteAt_lt (v : List UInt8) (i : ℕ) : byteAt v i < 256 := UInt8.toNat_lt _

variable {v : List UInt8}

/-- **Exclusive sums in place.**  After slot `i`, the slots up to `i` hold first
places, `prev` the last of them, and `save` the count that stood there. -/
theorem foldlM_sumStep (key : ℕ → ℕ) (n : ℕ) {m i : ℕ} (hi : i < m) :
    (List.range' 1 i).foldlM sumStep
        { cnt := tab m fun b => if b ≤ 0 then below key n b else seen key n b
          save := seen key n 0
          prev := below key n 0 }
      = some { cnt := tab m fun b => if b ≤ i then below key n b else seen key n b
               save := seen key n i
               prev := below key n i } := by
  induction i with
  | zero => rfl
  | succ i ih =>
      rw [List.range'_1_concat, List.foldlM_append, ih (Nat.lt_of_succ_lt hi), Option.bind_eq_bind,
        Option.bind_some, List.foldlM_cons, sumStep, getElem?_tab (by omega), if_neg (by omega)]
      simp only [Option.bind_eq_bind, Option.bind_some, List.foldlM_nil, set_tab, ← below_succ,
        Nat.add_comm 1 i]
      refine congrArg (fun cnt => some (Sums.mk cnt _ _)) (tab_congr fun b _ => ?_)
      rcases eq_or_ne b (i + 1) with rfl | hb
      · rw [Function.update_self, if_pos le_rfl]
      · rw [Function.update_of_ne hb]
        split_ifs <;> first | rfl | omega

theorem firstPlaces_eq (v : List UInt8) :
    firstPlaces v = some (tab 256 (below (byteAt v) v.length)) := by
  have hhist : (v.map UInt8.toNat).foldlM bump (List.replicate 256 0)
      = some (tab 256 (seen (byteAt v) v.length)) := by
    rw [replicate_eq_tab, foldlM_bump]
    · refine congrArg some (tab_congr fun b _ => ?_)
      rw [Nat.zero_add, seen_eq_count, map_eq_tab]
      rfl
    · intro b hb
      obtain ⟨x, -, rfl⟩ := List.mem_map.mp hb
      exact x.toNat_lt
  have hclear : (tab 256 (seen (byteAt v) v.length)).set 0 0 = tab 256 fun b =>
      if b ≤ 0 then below (byteAt v) v.length b else seen (byteAt v) v.length b := by
    rw [set_tab]
    refine tab_congr fun b _ => ?_
    cases b with
    | zero => rw [Function.update_self, if_pos le_rfl, below_zero]
    | succ b => rw [Function.update_of_ne (Nat.succ_ne_zero b), if_neg (Nat.not_succ_le_zero b)]
  have hsave : (tab 256 (seen (byteAt v) v.length))[0]? = some (seen (byteAt v) v.length 0) :=
    getElem?_tab (by omega)
  have hsums := foldlM_sumStep (byteAt v) v.length (show 255 < 256 by omega)
  rw [below_zero, ← hclear] at hsums
  rw [firstPlaces, hhist, Option.bind_eq_bind, Option.bind_some, hsave, Option.bind_eq_bind,
    Option.bind_some, hsums]
  -- all 256 slots are behind the last one summed
  exact congrArg some (tab_congr fun b hb => if_pos (Nat.le_of_lt_succ hb))

/-! ### The placement -/

theorem placeStep_eq {i : ℕ} (hi : i < v.length) (h32 : i < 2 ^ 32) (cnt idx : List ℕ) :
    placeStep v cnt idx (BitVec.ofNat 32 i) = scatter cnt idx (byteAt v i) i := by
  rw [placeStep, BitVec.toNat_ofNat, Nat.mod_eq_of_lt h32, List.getElem?_eq_getElem hi, byteAt,
    getElem!_pos v i hi]
  rfl

/-- While the index does not wrap, the loop places the items in turn and stops. -/
theorem placeLoop_eq {fuel i : ℕ} {cnt idx : List ℕ} (hn : v.length < 2 ^ 32)
    (h : Placing (byteAt v) v.length 256 i cnt idx) (hfuel : i + fuel = v.length) :
    placeLoop v fuel (BitVec.ofNat 32 i) cnt idx = .finished (stableOrder (byteAt v) v.length) := by
  have hindex : (BitVec.ofNat 32 i).toNat = i := by
    rw [BitVec.toNat_ofNat, Nat.mod_eq_of_lt (by omega)]
  induction fuel generalizing i cnt idx with
  | zero =>
      obtain rfl : i = v.length := by omega
      rw [placeLoop, hindex, h.length, if_neg (lt_irrefl _), h.done]
  | succ fuel ih =>
      have hi : i < v.length := by omega
      obtain ⟨cnt', idx', hscatter, hplacing⟩ := h.place hi (byteAt_lt v i)
      rw [placeLoop, hindex, h.length, if_pos hi, placeStep_eq hi (by omega), hscatter,
        BitVec.ofNat_add_ofNat]
      refine ih hplacing (by omega) ?_
      rw [BitVec.toNat_ofNat, Nat.mod_eq_of_lt (by omega)]

/-- With 2^32 elements the condition of the loop holds for every index. -/
theorem placeLoop_ne_finished {fuel : ℕ} {i : BitVec 32} {cnt idx out : List ℕ}
    (hn : 2 ^ 32 ≤ idx.length) : placeLoop v fuel i cnt idx ≠ .finished out := by
  induction fuel generalizing i cnt idx with
  | zero =>
      rw [placeLoop, if_pos (i.isLt.trans_le hn)]
      exact nofun
  | succ fuel ih =>
      rw [placeLoop, if_pos (i.isLt.trans_le hn)]
      split
      · exact nofun
      · next cnt' idx' hstep =>
          obtain ⟨b, -, hscatter⟩ := Option.bind_eq_some_iff.mp hstep
          obtain ⟨p, -, hset⟩ := Option.bind_eq_some_iff.mp hscatter
          obtain ⟨-, hset⟩ := Option.ite_none_right_eq_some.mp hset
          obtain ⟨-, rfl⟩ := Prod.mk.inj (Option.some.inj hset)
          exact ih (by rwa [List.length_set])

theorem stableOrder_byteAt (v : List UInt8) :
    stableOrder (byteAt v) v.length = stlSort v (List.range v.length) := by
  rw [stlSort, stableOrder]
  congr 1
  funext i j
  rw [← decide_not, decide_eq_decide, UInt8.lt_iff_toNat_lt, not_lt]
  rfl

/-- **Byte counting sort.**  It terminates, with every write inside `idx`, and gives
the stable permutation just when the index does not wrap. -/
theorem countSort_finishes_iff {idx : List ℕ} (hlen : idx.length = v.length) :
    (∃ fuel, countSort fuel v idx = .finished (stlSort v (List.range v.length)))
      ↔ v.length < 2 ^ 32 := by
  constructor
  · rintro ⟨fuel, hfuel⟩
    by_contra hn
    rw [countSort, firstPlaces_eq] at hfuel
    exact placeLoop_ne_finished (hlen ▸ Nat.le_of_not_lt hn) hfuel
  · intro hn
    refine ⟨v.length, ?_⟩
    rw [countSort, firstPlaces_eq, ← stableOrder_byteAt]
    exact placeLoop_eq hn (Placing.start hlen) (Nat.zero_add _)

theorem countSort_finishes_small :
    ∃ fuel, countSort fuel [2, 0, 2] [7, 7, 7] = .finished (stlSort [2, 0, 2] (List.range 3)) :=
  (@countSort_finishes_iff [2, 0, 2] [7, 7, 7] rfl).mpr (by decide)

/-- A vector of 2^32 zero bytes. -/
theorem countSort_wraps : ¬ ∃ fuel, countSort fuel (List.replicate (2 ^ 32) 0)
    (List.replicate (2 ^ 32) 0) = .finished (stlSort (List.replicate (2 ^ 32) 0)
      (List.range (2 ^ 32))) := by
  rintro ⟨fuel, hfuel⟩
  rw [countSort, firstPlaces_eq] at hfuel
  exact placeLoop_ne_finished (List.length_replicate).ge hfuel

end MyTests.Counting.Bytes
