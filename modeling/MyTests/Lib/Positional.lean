/-
MyTests/Lib/Positional.lean

Numbers in base `b` with a fixed count of digits, the highest first, as a
transfer format writes them.  Reading carries the value along: each digit is
shifted in at the low end of an accumulator that need not start at 0.
-/
import Mathlib

namespace MyTests.Lib

variable {b : ℕ}

/-- The `k` low digits of `v`. -/
def digitsOf (b : ℕ) : ℕ → ℕ → List ℕ
  | 0, _ => []
  | k + 1, v => v / b ^ k % b :: digitsOf b k v

/-- Shift the digits into `a`. -/
def carry (b a : ℕ) (ds : List ℕ) : ℕ := ds.foldl (fun a d => a * b + d) a

@[simp] theorem length_digitsOf (k v : ℕ) : (digitsOf b k v).length = k := by
  induction k with
  | zero => rfl
  | succ k ih => rw [digitsOf, List.length_cons, ih]

theorem carry_cons (a d : ℕ) (ds : List ℕ) : carry b a (d :: ds) = carry b (a * b + d) ds := rfl

theorem digit_lt (hb : 0 < b) {k v d : ℕ} (hd : d ∈ digitsOf b k v) : d < b := by
  induction k with
  | zero => cases hd
  | succ k ih =>
      rcases List.mem_cons.mp hd with rfl | hd
      · exact Nat.mod_lt _ hb
      · exact ih hd

/-- The lowest digit comes last. -/
theorem digitsOf_succ (k v : ℕ) : digitsOf b (k + 1) v = digitsOf b k (v / b) ++ [v % b] := by
  induction k with
  | zero => simp [digitsOf]
  | succ k ih =>
      rw [digitsOf, ih, digitsOf, List.cons_append, Nat.pow_succ', Nat.div_div_eq_div_mul]

/-- Reading back what was written. -/
theorem carry_digitsOf (a k v : ℕ) : carry b a (digitsOf b k v) = a * b ^ k + v % b ^ k := by
  induction k generalizing a with
  | zero => simp [digitsOf, carry, Nat.mod_one]
  | succ k ih =>
      rw [digitsOf, carry_cons, ih, Nat.mod_pow_succ, Nat.pow_succ]
      ring

/-- The digits take the low end, the accumulator the rest. -/
theorem carry_div (hb : 0 < b) {a : ℕ} {ds : List ℕ} (hds : ∀ d ∈ ds, d < b) :
    carry b a ds / b ^ ds.length = a := by
  induction ds generalizing a with
  | nil => exact Nat.div_one a
  | cons d ds ih =>
      obtain ⟨hd, hds⟩ := List.forall_mem_cons.mp hds
      rw [carry_cons, List.length_cons, Nat.pow_succ, ← Nat.div_div_eq_div_mul, ih hds,
        Nat.mul_comm, Nat.mul_add_div hb, Nat.div_eq_of_lt hd, Nat.add_zero]

/-- Writing again what was read. -/
theorem digitsOf_carry (hb : 0 < b) {a : ℕ} {ds : List ℕ} (hds : ∀ d ∈ ds, d < b) :
    digitsOf b ds.length (carry b a ds) = ds := by
  induction ds generalizing a with
  | nil => rfl
  | cons d ds ih =>
      obtain ⟨hd, hds⟩ := List.forall_mem_cons.mp hds
      rw [List.length_cons, digitsOf, carry_cons, ih hds, carry_div hb hds, Nat.mul_comm,
        Nat.mul_add_mod, Nat.mod_eq_of_lt hd]

end MyTests.Lib
