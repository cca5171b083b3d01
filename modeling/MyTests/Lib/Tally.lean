/-
MyTests/Lib/Tally.lean

How many threads are where.  In a system of interchangeable threads, an
invariant counts the threads in each class of program points; a step of one
thread moves one unit from a class to another.
-/
import Mathlib

namespace MyTests.Lib

variable {ι α κ : Type*} [Fintype ι] [DecidableEq κ] {f : ι → α} {i : ι} {a : α} {k : κ}

/-- The number of threads of the class `k`. -/
def tally (cls : α → κ) (f : ι → α) (k : κ) : ℕ := (Finset.univ.filter fun i => cls (f i) = k).card

variable {cls : α → κ}

theorem tally_eq_zero : tally cls f k = 0 ↔ ∀ i, cls (f i) ≠ k := by
  rw [tally, Finset.card_eq_zero, Finset.filter_eq_empty_iff]
  exact ⟨fun h i => h (Finset.mem_univ i), fun h i _ => h i⟩

theorem tally_eq_card : tally cls f k = Fintype.card ι ↔ ∀ i, cls (f i) = k := by
  rw [tally, ← Finset.card_univ, Finset.card_filter_eq_iff]
  exact ⟨fun h i => h i (Finset.mem_univ i), fun h i _ => h i⟩

theorem tally_pos (h : cls (f i) = k) : 0 < tally cls f k :=
  Nat.pos_of_ne_zero fun h0 => tally_eq_zero.mp h0 i h

theorem exists_of_tally_pos (h : 0 < tally cls f k) : ∃ i, cls (f i) = k := by
  by_contra hnone
  exact h.ne' (tally_eq_zero.mpr fun i hi => hnone ⟨i, hi⟩)

/-- The classes have all threads. -/
theorem sum_tally [Fintype κ] (cls : α → κ) (f : ι → α) : ∑ k, tally cls f k = Fintype.card ι := by
  rw [← Finset.card_univ]
  exact (Finset.card_eq_sum_card_fiberwise fun i _ => Finset.mem_coe.mpr (Finset.mem_univ _)).symm

variable [DecidableEq ι]

/-- A step of one thread. -/
theorem tally_update (cls : α → κ) (f : ι → α) (i : ι) (a : α) (k : κ) :
    tally cls (Function.update f i a) k + (if cls (f i) = k then 1 else 0)
      = tally cls f k + (if cls a = k then 1 else 0) := by
  have hrest : ∑ j ∈ Finset.univ.erase i, (if cls (Function.update f i a j) = k then 1 else 0)
      = ∑ j ∈ Finset.univ.erase i, (if cls (f j) = k then 1 else 0) :=
    Finset.sum_congr rfl fun j hj => by rw [Function.update_of_ne (Finset.ne_of_mem_erase hj)]
  unfold tally
  rw [Finset.card_filter, Finset.card_filter, ← Finset.add_sum_erase _ _ (Finset.mem_univ i),
    ← Finset.add_sum_erase _ (fun j => if cls (f j) = k then 1 else 0) (Finset.mem_univ i), hrest,
    Function.update_self]
  omega

/-- A step inside a class. -/
theorem tally_update_same (h : cls a = cls (f i)) :
    tally cls (Function.update f i a) k = tally cls f k := by
  have hupdate := tally_update cls f i a k
  rw [h] at hupdate
  exact Nat.add_right_cancel hupdate

/-- The class that a thread leaves. -/
theorem tally_update_leave (hne : cls a ≠ k) (h : cls (f i) = k) :
    tally cls (Function.update f i a) k + 1 = tally cls f k := by
  have hupdate := tally_update cls f i a k
  rwa [if_pos h, if_neg hne] at hupdate

/-- The class that a thread enters. -/
theorem tally_update_enter (h : cls a = k) (hne : cls (f i) ≠ k) :
    tally cls (Function.update f i a) k = tally cls f k + 1 := by
  have hupdate := tally_update cls f i a k
  rwa [if_neg hne, if_pos h] at hupdate

/-- The other classes. -/
theorem tally_update_other (hne : cls (f i) ≠ k) (hne' : cls a ≠ k) :
    tally cls (Function.update f i a) k = tally cls f k := by
  have hupdate := tally_update cls f i a k
  rwa [if_neg hne, if_neg hne'] at hupdate

end MyTests.Lib
