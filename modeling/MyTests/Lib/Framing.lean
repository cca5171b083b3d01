/-
MyTests/Lib/Framing.lean

Units that follow one another without separators.  A kind of unit is
self-delimiting when its first element tells its length; a stream of such units
falls into units in one way only.
-/
import Mathlib

namespace MyTests.Lib

variable {α : Type*} {P : List α → Prop} {size : α → ℕ}

/-- The first element of a unit tells its length. -/
structure SelfDelimiting (P : List α → Prop) (size : α → ℕ) : Prop where
  not_nil : ¬ P []
  length_eq : ∀ {a u}, P (a :: u) → (a :: u).length = size a

/-- The unit at the front of a stream, and what follows it. -/
theorem SelfDelimiting.append_inj (hP : SelfDelimiting P size) {u v s t : List α} (hu : P u)
    (hv : P v) (heq : u ++ s = v ++ t) : u = v ∧ s = t := by
  cases u with
  | nil => exact absurd hu hP.not_nil
  | cons a u =>
      cases v with
      | nil => exact absurd hv hP.not_nil
      | cons b v =>
          obtain rfl : a = b := by simpa using congrArg List.head? heq
          exact List.append_inj heq ((hP.length_eq hu).trans (hP.length_eq hv).symm)

theorem SelfDelimiting.flatten_injective (hP : SelfDelimiting P size) {us vs : List (List α)}
    (hus : ∀ u ∈ us, P u) (hvs : ∀ v ∈ vs, P v) (heq : us.flatten = vs.flatten) : us = vs := by
  have hne {w : List α} (hw : P w) (s : List α) : w ++ s ≠ [] := fun hnil =>
    hP.not_nil ((List.append_eq_nil_iff.mp hnil).1 ▸ hw)
  induction us generalizing vs with
  | nil =>
      cases vs with
      | nil => rfl
      | cons v vs => exact absurd heq.symm (hne (hvs v List.mem_cons_self) _)
  | cons u us ih =>
      cases vs with
      | nil => exact absurd heq (hne (hus u List.mem_cons_self) _)
      | cons v vs =>
          obtain ⟨hu, hus'⟩ := List.forall_mem_cons.mp hus
          obtain ⟨hv, hvs'⟩ := List.forall_mem_cons.mp hvs
          obtain ⟨huv, hrest⟩ := hP.append_inj hu hv heq
          rw [huv, ih hus' hvs' hrest]

end MyTests.Lib
