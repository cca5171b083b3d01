/-
MyTests/Lib/Narrow.lean

One computation at two word widths.

`Narrows a b` says that `a` is what truncation leaves of `b`.  Sums, products and
sign-extended operands keep it, since none of them lets a high bit reach a low one,
and so does a loop whose body keeps it.  A wide accumulator that is truncated at the
end may therefore be narrow from the start.
-/
import Mathlib

namespace MyTests.Lib

variable {w v : ℕ} {α : Type*}

/-- Truncated to the width of `a`, the word `b` is `a`. -/
def Narrows (a : BitVec w) (b : BitVec v) : Prop := b.setWidth w = a

theorem Narrows.add (hwv : w ≤ v) {a a' : BitVec w} {b b' : BitVec v}
    (h : Narrows a b) (h' : Narrows a' b') : Narrows (a + a') (b + b') := by
  show (b + b').setWidth w = a + a'
  rw [BitVec.setWidth_add _ _ hwv, h, h']

theorem Narrows.mul (hwv : w ≤ v) {a a' : BitVec w} {b b' : BitVec v}
    (h : Narrows a b) (h' : Narrows a' b') : Narrows (a * a') (b * b') := by
  show (b * b').setWidth w = a * a'
  rw [BitVec.setWidth_mul _ _ hwv, h, h']

theorem Narrows.ofNat (hwv : w ≤ v) (n : ℕ) : Narrows (BitVec.ofNat w n) (BitVec.ofNat v n) := by
  apply BitVec.eq_of_toNat_eq
  rw [BitVec.toNat_setWidth, BitVec.toNat_ofNat, BitVec.toNat_ofNat]
  exact Nat.mod_mod_of_dvd n (Nat.pow_dvd_pow 2 hwv)

/-- A conversion that extends the sign adds bits above, whatever they are. -/
theorem Narrows.signExtend (hwv : w ≤ v) (a : BitVec w) : Narrows a (a.signExtend v) := by
  apply BitVec.eq_of_getLsbD_eq
  intro i hi
  rw [BitVec.getLsbD_setWidth, BitVec.getLsbD_signExtend]
  simp [hi, lt_of_lt_of_le hi hwv]

/-- **A loop narrows when its body does.** -/
theorem Narrows.foldl {f : BitVec w → α → BitVec w} {g : BitVec v → α → BitVec v}
    (hbody : ∀ a b c, Narrows a b → Narrows (f a c) (g b c)) (cs : List α) :
    ∀ {a : BitVec w} {b : BitVec v}, Narrows a b → Narrows (cs.foldl f a) (cs.foldl g b) := by
  induction cs with
  | nil => exact fun h => h
  | cons c cs ih => exact fun h => ih (hbody _ _ c h)

end MyTests.Lib
