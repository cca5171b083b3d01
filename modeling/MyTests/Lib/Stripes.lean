/-
MyTests/Lib/Stripes.lean

A file cut into stripes, and the stripes into blocks.

Stripe `k` starts at `stride * k`, and its block `i` is `size` bytes further for each
block before it (`blockStart`).  As long as the blocks of a stripe fit the stride, no
two blocks meet (`blocks_disjoint`) and the last stripe ends with the file
(`blockStart_add_le`).  Whether the blocks are aligned is a question about the stride
alone (`size_dvd_blockStart_iff`).

When the stride is the length of the file over the number of stripes, rounded down,
and the blocks of a stripe are the blocks of the file over it, the blocks fit
(`count_mul_size_le_stride`), but the stride need not be a whole number of blocks
(`size_dvd_stride_iff`).
-/
import Mathlib

namespace MyTests.Lib

variable {size stride count n : ℕ}

/-! ### Blocks of a stripe -/

/-- Where block `i` of stripe `k` starts. -/
def blockStart (size stride k i : ℕ) : ℕ := stride * k + i * size

theorem blockStart_add_le_next (hfit : count * size ≤ stride) {k i : ℕ} (hi : i < count) :
    blockStart size stride k i + size ≤ stride * (k + 1) := by
  have hblocks : (i + 1) * size ≤ count * size := Nat.mul_le_mul_right size hi
  calc blockStart size stride k i + size
      = stride * k + (i + 1) * size := by rw [blockStart]; ring
    _ ≤ stride * k + stride := by omega
    _ = stride * (k + 1) := by ring

/-- A block ends before the last stripe does. -/
theorem blockStart_add_le (hfit : count * size ≤ stride) {k i : ℕ} (hk : k < n) (hi : i < count) :
    blockStart size stride k i + size ≤ stride * n :=
  (blockStart_add_le_next hfit hi).trans (Nat.mul_le_mul_left stride hk)

/-- Of two blocks, the one in the earlier stripe, or earlier in the same stripe, ends
before the other starts. -/
theorem blockStart_add_le_of_lt (hfit : count * size ≤ stride) {k i l j : ℕ} (hi : i < count)
    (hlt : k < l ∨ k = l ∧ i < j) :
    blockStart size stride k i + size ≤ blockStart size stride l j := by
  rcases hlt with hkl | ⟨rfl, hij⟩
  · calc blockStart size stride k i + size
        ≤ stride * (k + 1) := blockStart_add_le_next hfit hi
      _ ≤ stride * l := Nat.mul_le_mul_left stride hkl
      _ ≤ blockStart size stride l j := Nat.le_add_right _ _
  · have hblocks : (i + 1) * size ≤ j * size := Nat.mul_le_mul_right size hij
    calc blockStart size stride k i + size
        = stride * k + (i + 1) * size := by rw [blockStart]; ring
      _ ≤ blockStart size stride k j := Nat.add_le_add_left hblocks _

/-- **No two blocks meet.** -/
theorem blocks_disjoint (hfit : count * size ≤ stride) {k i l j : ℕ} (hi : i < count)
    (hj : j < count) (hne : (k, i) ≠ (l, j)) :
    Disjoint (Finset.Ico (blockStart size stride k i) (blockStart size stride k i + size))
      (Finset.Ico (blockStart size stride l j) (blockStart size stride l j + size)) := by
  have horder : (k < l ∨ k = l ∧ i < j) ∨ (l < k ∨ l = k ∧ j < i) := by
    rw [ne_eq, Prod.mk.injEq] at hne
    omega
  rw [Finset.disjoint_left]
  intro x hx hx'
  rw [Finset.mem_Ico] at hx hx'
  rcases horder with hlt | hlt
  · have hle := blockStart_add_le_of_lt hfit (j := j) hi hlt
    omega
  · have hle := blockStart_add_le_of_lt hfit (j := i) hj hlt
    omega

/-- The first block of stripe 1 decides for all of them. -/
theorem size_dvd_blockStart_iff (hn : 1 < n) (hcount : 0 < count) :
    (∀ k < n, ∀ i < count, size ∣ blockStart size stride k i) ↔ size ∣ stride := by
  constructor
  · intro h
    have h1 := h 1 hn 0 hcount
    rwa [blockStart, Nat.mul_one, Nat.zero_mul, Nat.add_zero] at h1
  · intro h k _ i _
    exact (h.mul_right k).add (Dvd.intro_left i rfl)

/-! ### The file over the number of stripes -/

/-- Rounding the blocks down leaves no more than rounding the bytes down. -/
theorem count_mul_size_le_stride (total : ℕ) (hn : 0 < n) :
    total / n * size ≤ total * size / n := by
  rw [Nat.le_div_iff_mul_le hn, Nat.mul_right_comm]
  exact Nat.mul_le_mul_right size (Nat.div_mul_le_self total n)

/-- The stride is the whole blocks of a stripe, and a share of the blocks left over. -/
theorem stride_eq (total : ℕ) (hn : 0 < n) :
    total * size / n = size * (total / n) + size * (total % n) / n := by
  have hsplit : total * size = n * (size * (total / n)) + size * (total % n) := by
    conv_lhs => rw [← Nat.div_add_mod total n]
    ring
  rw [hsplit, Nat.mul_add_div hn]

/-- **The stride is whole blocks exactly when the share of the blocks left over is
less than a byte.** -/
theorem size_dvd_stride_iff (total : ℕ) (hn : 0 < n) (hsize : 0 < size) :
    size ∣ total * size / n ↔ size * (total % n) < n := by
  have hshare : size * (total % n) / n < size := by
    rw [Nat.div_lt_iff_lt_mul hn]
    exact Nat.mul_lt_mul_of_pos_left (Nat.mod_lt total hn) hsize
  rw [stride_eq total hn, Nat.dvd_add_right (Dvd.intro _ rfl)]
  constructor
  · intro hdvd
    have hzero := Nat.eq_zero_of_dvd_of_lt hdvd hshare
    rwa [Nat.div_eq_zero_iff_lt hn] at hzero
  · intro hlt
    rw [Nat.div_eq_of_lt hlt]
    exact dvd_zero size

end MyTests.Lib
