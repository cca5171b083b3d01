/-
MyTests/Counting/Range.lean

What `cpp/sort-range.cc` and `cpp/mode-range.cc` have in common: an array of
`long`, the range of its values, and one counter for each value of the range.

A `long` operation that overflows is undefined, and gives no result here.  The
allocation of the counters is taken to succeed.
-/
import MyTests.Lib.Ranking

namespace MyTests.Counting

open MyTests.Lib

/-- The result of a `long` operation. -/
def long (z : ℤ) : Option ℤ := if -2 ^ 63 ≤ z ∧ z < 2 ^ 63 then some z else none

/-- The conversion to `size_t` that an index goes through. -/
def sizeT (z : ℤ) : ℕ := (z % 2 ^ 64).toNat

/-- `min`, after the loop over the array. -/
def minOf (array : List Int64) : ℤ := array.foldl (fun m v => min m v.toInt) (2 ^ 63 - 1)

/-- `max`, after the loop over the array. -/
def maxOf (array : List Int64) : ℤ := array.foldl (fun m v => max m v.toInt) (-2 ^ 63)

/-- `a - b + 1`. -/
def diffSucc (a b : ℤ) : Option ℤ := do
  let d ← long (a - b)
  long (d + 1)

variable {array : List Int64} {v : Int64}

theorem minOf_le (hv : v ∈ array) : minOf array ≤ v.toInt := by
  have h : ∀ (l : List Int64) (a : ℤ), l.foldl (fun m v => min m v.toInt) a ≤ a
      ∧ ∀ v ∈ l, l.foldl (fun m v => min m v.toInt) a ≤ v.toInt := by
    intro l
    induction l with
    | nil => exact fun a => ⟨le_rfl, nofun⟩
    | cons w l ih =>
        intro a
        obtain ⟨hstart, hmem⟩ := ih (min a w.toInt)
        refine ⟨hstart.trans (min_le_left _ _), List.forall_mem_cons.mpr ⟨?_, hmem⟩⟩
        exact hstart.trans (min_le_right _ _)
  exact (h array _).2 v hv

theorem le_maxOf (hv : v ∈ array) : v.toInt ≤ maxOf array := by
  have h : ∀ (l : List Int64) (a : ℤ), a ≤ l.foldl (fun m v => max m v.toInt) a
      ∧ ∀ v ∈ l, v.toInt ≤ l.foldl (fun m v => max m v.toInt) a := by
    intro l
    induction l with
    | nil => exact fun a => ⟨le_rfl, nofun⟩
    | cons w l ih =>
        intro a
        obtain ⟨hstart, hmem⟩ := ih (max a w.toInt)
        refine ⟨(le_max_left _ _).trans hstart, List.forall_mem_cons.mpr ⟨?_, hmem⟩⟩
        exact (le_max_right _ _).trans hstart
  exact (h array _).2 v hv

theorem le_minOf (array : List Int64) : -2 ^ 63 ≤ minOf array := by
  have h : ∀ (l : List Int64) (a : ℤ), -2 ^ 63 ≤ a → -2 ^ 63 ≤ l.foldl (fun m v => min m v.toInt) a := by
    intro l
    induction l with
    | nil => exact fun _ ha => ha
    | cons w l ih => exact fun a ha => ih _ (le_min ha w.le_toInt)
  exact h array _ (by decide)

theorem maxOf_lt (array : List Int64) : maxOf array < 2 ^ 63 := by
  have h : ∀ (l : List Int64) (a : ℤ), a < 2 ^ 63 → l.foldl (fun m v => max m v.toInt) a < 2 ^ 63 := by
    intro l
    induction l with
    | nil => exact fun _ ha => ha
    | cons w l ih => exact fun a ha => ih _ (max_lt ha w.toInt_lt)
  exact h array _ (by decide)

/-- The values between the bounds, `value_range` in the source. -/
def rangeOf (array : List Int64) : ℕ := (maxOf array - minOf array + 1).toNat

/-- The place of a value in its range. -/
def offset (array : List Int64) (v : Int64) : ℕ := (v.toInt - minOf array).toNat

theorem toInt_eq_offset (hv : v ∈ array) : v.toInt = minOf array + offset array v := by
  have hmin := minOf_le hv
  rw [offset]
  omega

theorem offset_lt (hv : v ∈ array) : offset array v < rangeOf array := by
  have hmin := minOf_le hv
  have hmax := le_maxOf hv
  rw [offset, rangeOf]
  omega

/-! ### No operation on offsets overflows -/

/-- An array whose range `max - min + 1` is a `long`. -/
structure Representable (array : List Int64) : Prop where
  nonempty : array ≠ []
  range_lt : maxOf array - minOf array + 1 < 2 ^ 63

namespace Representable

theorem min_le_max (h : Representable array) : minOf array ≤ maxOf array := by
  obtain ⟨v, hv⟩ := List.exists_mem_of_ne_nil array h.nonempty
  exact (minOf_le hv).trans (le_maxOf hv)

theorem range_eq (h : Representable array) :
    diffSucc (maxOf array) (minOf array) = some (rangeOf array : ℤ) := by
  have hle := h.min_le_max
  have hlt := h.range_lt
  have hcast : ((rangeOf array : ℕ) : ℤ) = maxOf array - minOf array + 1 :=
    Int.toNat_of_nonneg (by omega)
  rw [diffSucc, long, if_pos (by omega), Option.bind_eq_bind, Option.bind_some, long,
    if_pos (by omega), hcast]

theorem rangeOf_lt (h : Representable array) : (rangeOf array : ℤ) < 2 ^ 63 := by
  have hlt := h.range_lt
  have hle := h.min_le_max
  rw [rangeOf]
  omega

theorem offset_eq (h : Representable array) (hv : v ∈ array) :
    long (v.toInt - minOf array) = some (offset array v : ℤ) := by
  have hrange := h.rangeOf_lt
  have hlt := offset_lt hv
  rw [toInt_eq_offset hv, add_sub_cancel_left, long, if_pos (by omega)]

theorem offset_succ_eq (h : Representable array) (hv : v ∈ array) :
    diffSucc v.toInt (minOf array) = some ((offset array v + 1 : ℕ) : ℤ) := by
  have hrange := h.rangeOf_lt
  have hlt := offset_lt hv
  rw [diffSucc, h.offset_eq hv, Option.bind_eq_bind, Option.bind_some, long, if_pos (by omega)]
  rfl

/-- Every value of the range is a `long`. -/
theorem value_eq (h : Representable array) {i : ℕ} (hi : i < rangeOf array) :
    long (minOf array + i) = some (minOf array + i) := by
  have hle := h.min_le_max
  have hmin := le_minOf array
  have hmax := maxOf_lt array
  rw [rangeOf] at hi
  exact if_pos (by omega)

theorem sizeT_natCast (h : Representable array) {k : ℕ} (hk : k ≤ rangeOf array) : sizeT k = k := by
  have hrange := h.rangeOf_lt
  rw [sizeT]
  omega

end Representable

end MyTests.Counting
