/-
MyTests/Lib/LittleEndian.lean

Eight bytes as one 64-bit word, the lowest byte at the lowest address.

A word operation that works bit by bit works byte by byte (`word64_and`), so a test
of all eight top bits at once is one mask away (`word64_msb_eq_zero`).
-/
import Mathlib

namespace MyTests.Lib

/-- The word whose byte `i` is `b i`. -/
def word64 (b : ℕ → BitVec 8) : BitVec 64 :=
  b 7 ++ (b 6 ++ (b 5 ++ (b 4 ++ (b 3 ++ (b 2 ++ (b 1 ++ b 0))))))

/-- Byte `i` of a word. -/
def byteOf (v : BitVec 64) (i : ℕ) : BitVec 8 := v.extractLsb' (8 * i) 8

theorem word64_congr {b c : ℕ → BitVec 8} (h : ∀ i < 8, b i = c i) : word64 b = word64 c := by
  simp [word64, h]

@[simp] theorem word64_byteOf (v : BitVec 64) : word64 (byteOf v) = v := by
  ext i hi
  simp only [word64, byteOf]
  grind

theorem getLsbD_word64 (b : ℕ → BitVec 8) {i j : ℕ} (hi : i < 8) (hj : j < 8) :
    (word64 b).getLsbD (8 * i + j) = (b i).getLsbD j := by
  simp only [word64, BitVec.getLsbD_append]
  interval_cases i <;> grind

@[simp] theorem byteOf_word64 (b : ℕ → BitVec 8) {i : ℕ} (hi : i < 8) : byteOf (word64 b) i = b i := by
  ext j hj
  rw [← BitVec.getLsbD_eq_getElem, ← BitVec.getLsbD_eq_getElem, byteOf, BitVec.getLsbD_extractLsb',
    decide_eq_true hj, Bool.true_and, getLsbD_word64 b hi hj]

theorem word64_and (b c : ℕ → BitVec 8) :
    word64 b &&& word64 c = word64 fun i => b i &&& c i := by
  rw [← word64_byteOf (word64 b &&& word64 c)]
  refine word64_congr fun i hi => ?_
  rw [← byteOf_word64 b hi, ← byteOf_word64 c hi, byteOf, BitVec.extractLsb'_and]
  rfl

theorem word64_eq_zero_iff (b : ℕ → BitVec 8) : word64 b = 0#64 ↔ ∀ i < 8, b i = 0#8 := by
  constructor
  · intro h i hi
    rw [← byteOf_word64 b hi, h]
    simp [byteOf]
  · intro h
    rw [word64_congr (c := fun _ => 0#8) h]
    rfl

/-- **All top bits at once.** -/
theorem word64_msb_eq_zero (b : ℕ → BitVec 8) :
    word64 b &&& 0x8080808080808080#64 = 0#64 ↔ ∀ i < 8, b i < 0x80#8 := by
  have hmask : 0x8080808080808080#64 = word64 fun _ => 0x80#8 := rfl
  rw [hmask, word64_and, word64_eq_zero_iff]
  have hbyte : ∀ x : BitVec 8, x &&& 0x80#8 = 0#8 ↔ x < 0x80#8 := by decide +kernel
  exact forall₂_congr fun i _ => hbyte (b i)

end MyTests.Lib
