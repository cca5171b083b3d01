/-
MyTests/L1iMiss/Cache.lean

`src/mysql/l1i-miss/l1i-miss.py`: the simulated cache, and what its four policies
have in common.

The tables are lists of `SET` lists of `WAY` numbers, which are only read and written
in place: functions of the set and the way.  An address is a number, of any length.
Line 0 doubles as the mark of an unused way.
-/
import Mathlib

namespace MyTests.L1iMiss

/-! ### Addresses -/

/-- `SET`. -/
def numSets : ℕ := 256

/-- `WAY`. -/
def way : ℕ := 4

instance : NeZero way := ⟨by decide⟩

/-- `CL`, the bytes of a line. -/
def cl : ℕ := 64

/-- `cl_shift`, the logarithm of `CL`. -/
def clShift : ℕ := 6

/-- `addr & ~(CL - 1)`. -/
def lineOf (addr : ℕ) : ℕ := Nat.ldiff addr (cl - 1)

/-- `(addr >> cl_shift) & (SET - 1)`. -/
def clIndex (addr : ℕ) : Fin numSets :=
  ⟨(addr >>> clShift) &&& (numSets - 1), Nat.lt_of_le_of_lt Nat.and_le_right (by decide)⟩

/-- The line is the address less its place in the line. -/
theorem lineOf_eq (addr : ℕ) : lineOf addr = addr / cl * cl := by
  apply Nat.eq_of_testBit_eq
  intro i
  have hcl : cl = 2 ^ clShift := rfl
  rw [lineOf, Nat.testBit_ldiff, hcl, ← Nat.shiftRight_eq_div_pow, ← Nat.shiftLeft_eq,
    Nat.testBit_shiftLeft, Nat.testBit_two_pow_sub_one]
  by_cases hi : clShift ≤ i
  · rw [Nat.testBit_shiftRight, Nat.add_sub_cancel' hi]
    simp [hi]
  · simp [hi, Nat.lt_of_not_le hi]

/-- The addresses of line 0. -/
theorem lineOf_eq_zero_iff (addr : ℕ) : lineOf addr = 0 ↔ addr < cl := by
  rw [lineOf_eq, Nat.mul_eq_zero, or_iff_left (show cl ≠ 0 by decide),
    Nat.div_eq_zero_iff_lt (by decide)]

/-- Five lines of set 1, one of them twice. -/
def sampleTrace : List ℕ := [0x4040, 0x8040, 0x4050, 0xc040, 0x10040, 0x14040]

theorem sampleTrace_ne_zero (addr : ℕ) (hmem : addr ∈ sampleTrace) : lineOf addr ≠ 0 := by
  have hhigh : ∀ addr ∈ sampleTrace, ¬ addr < cl := by decide
  exact fun hzero => hhigh addr hmem ((lineOf_eq_zero_iff addr).mp hzero)

/-! ### The tables -/

/-- The ways of a set: a line each, or a counter each. -/
abbrev Ways := Fin way → ℕ

structure Sim where
  clSets : Fin numSets → Ways
  lfuList : Fin numSets → Ways
  lfuAgeList : Fin numSets → Ways
  refCount : ℕ
  missCount : ℕ

/-- Before the first reference. -/
def init : Sim := ⟨fun _ _ => 0, fun _ _ => 0, fun _ _ => 0, 0, 0⟩

/-- `for i in range(WAY): if cl_set[i] == addr`: the first way that holds `addr`. -/
def findWay (clSet : Ways) (addr : ℕ) : Option (Fin way) := Fin.find? fun i => clSet i == addr

variable {clSet : Ways} {addr : ℕ} {i : Fin way}

theorem findWay_eq_some (h : findWay clSet addr = some i) :
    clSet i = addr ∧ ∀ j < i, clSet j ≠ addr := by
  obtain ⟨hi, hbefore⟩ := Fin.find?_eq_some_iff.mp h
  exact ⟨by simpa using hi, fun j hj => by simpa using hbefore j hj⟩

theorem findWay_eq_none (h : findWay clSet addr = none) (i : Fin way) : clSet i ≠ addr := by
  simpa using Fin.find?_eq_none_iff.mp h i

theorem mem_ofFn_of_findWay (h : findWay clSet addr = some i) : addr ∈ List.ofFn clSet :=
  List.mem_ofFn.mpr ⟨i, (findWay_eq_some h).1⟩

theorem notMem_ofFn_of_findWay (h : findWay clSet addr = none) : addr ∉ List.ofFn clSet := by
  rw [List.mem_ofFn]
  rintro ⟨i, hi⟩
  exact findWay_eq_none h i hi

end MyTests.L1iMiss
