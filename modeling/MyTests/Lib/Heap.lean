/-
MyTests/Lib/Heap.lean

An explicit heap, and the handles that refer to it.

Addresses are given out in order and never again, so an address names one allocation.
A heap remembers what has been freed: that this happened at most once is part of its
type, since freeing, like reading and writing, is a fault at an address that is not
live.

The second part counts handles.  `refs live f p` are the handles in scope whose field
points to `p`; when one handle changes, the count over the others does not.
-/
import Mathlib

namespace MyTests.Lib

/-! ### The heap -/

/-- What a program must not do. -/
inductive Fault
  | null
  | dangling (p : ℕ)
  | overflow
deriving DecidableEq, Repr

theorem ok_bind {α β : Type} (v : α) (f : α → Except Fault β) : (Except.ok v >>= f) = f v := rfl

structure Heap (α : Type*) where
  next : ℕ
  cells : ℕ → Option α
  freed : List ℕ
  fresh : ∀ p, next ≤ p → cells p = none
  mem_freed : ∀ p, p ∈ freed ↔ p < next ∧ cells p = none
  nodup : freed.Nodup

namespace Heap

variable {α : Type*} {H K : Heap α} {p q : ℕ} {v w : α}

def empty : Heap α where
  next := 0
  cells := fun _ => none
  freed := []
  fresh := fun _ _ => rfl
  mem_freed := by simp
  nodup := List.nodup_nil

/-- `new`. -/
def alloc (H : Heap α) (v : α) : ℕ × Heap α :=
  (H.next, {
    next := H.next + 1
    cells := Function.update H.cells H.next (some v)
    freed := H.freed
    fresh := by
      intro p hp
      rw [Function.update_of_ne (by omega)]
      exact H.fresh p (by omega)
    mem_freed := by
      intro p
      rw [H.mem_freed]
      by_cases hp : p = H.next
      · subst hp
        simp
      · rw [Function.update_of_ne hp]
        have hlt : p < H.next ↔ p < H.next + 1 := by omega
        rw [hlt]
    nodup := H.nodup })

/-- `*p`. -/
def read (H : Heap α) (p : ℕ) : Except Fault α :=
  match H.cells p with
  | none => .error (.dangling p)
  | some v => .ok v

/-- `*p = v`. -/
def write (H : Heap α) (p : ℕ) (v : α) : Except Fault (Heap α) :=
  match hp : H.cells p with
  | none => .error (.dangling p)
  | some u => .ok {
      next := H.next
      cells := Function.update H.cells p (some v)
      freed := H.freed
      fresh := by
        intro q hq
        have hne : q ≠ p := by
          rintro rfl
          exact absurd (hp.symm.trans (H.fresh q hq)) (Option.some_ne_none u)
        rw [Function.update_of_ne hne]
        exact H.fresh q hq
      mem_freed := by
        intro q
        rw [H.mem_freed]
        by_cases hq : q = p
        · subst hq
          simp [hp]
        · rw [Function.update_of_ne hq]
      nodup := H.nodup }

/-- `delete p`. -/
def free (H : Heap α) (p : ℕ) : Except Fault (Heap α) :=
  match hp : H.cells p with
  | none => .error (.dangling p)
  | some u => .ok {
      next := H.next
      cells := Function.update H.cells p none
      freed := p :: H.freed
      fresh := by
        intro q hq
        by_cases hqp : q = p
        · rw [hqp, Function.update_self]
        · rw [Function.update_of_ne hqp]
          exact H.fresh q hq
      mem_freed := by
        intro q
        have hlt : p < H.next := by
          by_contra hge
          exact absurd (hp.symm.trans (H.fresh p (by omega))) (Option.some_ne_none u)
        rw [List.mem_cons, H.mem_freed]
        by_cases hqp : q = p
        · subst hqp
          simp [hlt]
        · rw [Function.update_of_ne hqp, or_iff_right hqp]
      nodup := by
        rw [List.nodup_cons, H.mem_freed]
        exact ⟨fun h => absurd (hp.symm.trans h.2) (Option.some_ne_none u), H.nodup⟩ }

/-- A pointer that may be null; then there is nothing to delete. -/
def freeOpt (H : Heap α) : Option ℕ → Except Fault (Heap α)
  | none => .ok H
  | some p => H.free p

@[simp] theorem cells_next (H : Heap α) : H.cells H.next = none := H.fresh H.next le_rfl

theorem read_eq (h : H.cells p = some v) : H.read p = .ok v := by
  rw [read, h]

/-- Writing to a live address. -/
theorem exists_write (h : H.cells p = some v) (w : α) :
    ∃ K, H.write p w = .ok K ∧ K.cells = Function.update H.cells p (some w)
      ∧ K.next = H.next := by
  rw [write]
  split
  case h_1 hnone => exact absurd (h.symm.trans hnone) (Option.some_ne_none v)
  case h_2 u hsome => exact ⟨_, rfl, rfl, rfl⟩

/-- Freeing a live address. -/
theorem exists_free (h : H.cells p = some v) :
    ∃ K, H.free p = .ok K ∧ K.cells = Function.update H.cells p none ∧ K.next = H.next := by
  rw [free]
  split
  case h_1 hnone => exact absurd (h.symm.trans hnone) (Option.some_ne_none v)
  case h_2 u hsome => exact ⟨_, rfl, rfl, rfl⟩

/-- **What is not live has been freed once**, if it was ever allocated. -/
theorem count_freed_iff (hp : p < H.next) : H.freed.count p = 1 ↔ H.cells p = none := by
  constructor
  · intro hcount
    have hmem : p ∈ H.freed := List.count_pos_iff.mp (by omega)
    exact ((H.mem_freed p).mp hmem).2
  · intro hnone
    exact List.count_eq_one_of_mem H.nodup ((H.mem_freed p).mpr ⟨hp, hnone⟩)

end Heap

/-! ### Handles -/

section Handles

variable {ι : Type*} [DecidableEq ι] {live : Finset ι} {f : ι → Option ℕ} {h : ι} {p : ℕ}

/-- The number of handles in scope whose field points to `p`. -/
def refs (live : Finset ι) (f : ι → Option ℕ) (p : ℕ) : ℕ :=
  (live.filter fun h => f h = some p).card

omit [DecidableEq ι] in
theorem refs_pos_iff : 0 < refs live f p ↔ ∃ h ∈ live, f h = some p := by
  rw [refs, Finset.card_pos]
  constructor
  · rintro ⟨h, hmem⟩
    exact ⟨h, Finset.mem_filter.mp hmem⟩
  · rintro ⟨h, hlive, hp⟩
    exact ⟨h, Finset.mem_filter.mpr ⟨hlive, hp⟩⟩

omit [DecidableEq ι] in
theorem refs_eq_zero_iff : refs live f p = 0 ↔ ∀ h ∈ live, f h ≠ some p := by
  rw [refs, Finset.card_eq_zero, Finset.filter_eq_empty_iff]

/-- One more handle. -/
theorem refs_insert (hnot : h ∉ live) :
    refs (insert h live) f p = refs live f p + if f h = some p then 1 else 0 := by
  rw [refs, refs, Finset.filter_insert]
  split_ifs with hp
  · rw [Finset.card_insert_of_notMem fun hmem => hnot (Finset.mem_filter.mp hmem).1]
  · rfl

/-- A handle in scope, and the others. -/
theorem refs_erase (hlive : h ∈ live) :
    refs live f p = refs (live.erase h) f p + if f h = some p then 1 else 0 := by
  conv_lhs => rw [← Finset.insert_erase hlive]
  exact refs_insert (Finset.notMem_erase h live)

theorem refs_erase_self (hlive : h ∈ live) (hp : f h = some p) :
    refs live f p = refs (live.erase h) f p + 1 := by
  rw [refs_erase hlive, if_pos hp]

theorem refs_erase_of_ne (hlive : h ∈ live) (hp : f h ≠ some p) :
    refs live f p = refs (live.erase h) f p := by
  rw [refs_erase hlive, if_neg hp, Nat.add_zero]

omit [DecidableEq ι] in
/-- Only the fields of the handles that are counted matter. -/
theorem refs_congr {g : ι → Option ℕ} (hsame : ∀ h ∈ live, f h = g h) :
    refs live f p = refs live g p := by
  rw [refs, refs]
  congr 1
  apply Finset.filter_congr
  intro h hlive
  rw [hsame h hlive]

theorem refs_update_of_notMem (hnot : h ∉ live) (q : Option ℕ) :
    refs live (Function.update f h q) p = refs live f p := by
  apply refs_congr
  intro g hg
  rw [Function.update_of_ne (ne_of_mem_of_not_mem hg hnot)]

/-- The field of a handle in scope. -/
theorem refs_update (hlive : h ∈ live) (q : Option ℕ) :
    refs live (Function.update f h q) p
      = refs (live.erase h) f p + if q = some p then 1 else 0 := by
  rw [refs_erase hlive, refs_update_of_notMem (Finset.notMem_erase h live), Function.update_self]

/-- A new handle. -/
theorem refs_insert_update (hnot : h ∉ live) (q : Option ℕ) :
    refs (insert h live) (Function.update f h q) p
      = refs live f p + if q = some p then 1 else 0 := by
  rw [refs_insert hnot, refs_update_of_notMem hnot, Function.update_self]

end Handles

end MyTests.Lib
