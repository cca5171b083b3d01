/-
MyTests/Lib/Adjacent.lean

Neighbours in a list.  A linked queue keeps, for each member, a pointer to
its successor; the list of members in order is the natural abstract value, and
`Adj q a b` says that `b` is the successor of `a` in it.

The lemmas describe the two ways such a queue changes (append at the tail,
drop the head) and the uniqueness of neighbours in a duplicate-free list.
-/
import Mathlib

namespace MyTests.Lib

variable {α : Type*} {q : List α} {a b c h t : α}

/-- `b` directly follows `a` in `q`. -/
def Adj (q : List α) (a b : α) : Prop := [a, b] <:+: q

@[simp] theorem adj_nil : ¬ Adj ([] : List α) a b := by
  simp [Adj]

/-- The neighbours of a longer list: the new head with the old one, and those there were. -/
theorem adj_cons : Adj (h :: q) a b ↔ (a = h ∧ q.head? = some b) ∨ Adj q a b := by
  unfold Adj
  rw [List.infix_cons_iff, List.cons_prefix_cons]
  refine or_congr_left (and_congr_right fun _ => ?_)
  cases q with
  | nil => simp
  | cons x xs => simp [eq_comm]

/-- A queue of one has no links. -/
@[simp] theorem not_adj_singleton : ¬ Adj [c] a b := by
  simp [adj_cons]

/-- Who has a successor is in the list. -/
theorem Adj.mem_left (hab : Adj q a b) : a ∈ q := hab.mem (by simp)

/-- Who is a successor is in the list. -/
theorem Adj.mem_right (hab : Adj q a b) : b ∈ q := hab.mem (by simp)

/-- Nobody follows itself. -/
theorem Adj.ne (hq : q.Nodup) (hab : Adj q a b) : a ≠ b := by
  have h2 : [a, b].Nodup := hab.sublist.nodup hq
  simpa using h2

/-! ### Append and drop -/

/-- Append at the tail: one link more, from the last member to the new one. -/
theorem adj_concat : Adj (q ++ [t]) a b ↔ Adj q a b ∨ (q.getLast? = some a ∧ b = t) := by
  induction q with
  | nil => simp [adj_cons]
  | cons x xs ih =>
      rw [List.cons_append, adj_cons, adj_cons, ih]
      -- only a list of one has its new link at the head
      cases xs with
      | nil => simp [eq_comm]
      | cons y ys => simp [or_assoc]

/-- Drop the head: no link is new. -/
theorem Adj.of_tail (hab : Adj q.tail a b) : Adj q a b := by
  cases q with
  | nil => exact hab
  | cons x xs => exact adj_cons.mpr (Or.inr hab)

/-! ### Ends -/

/-- The head is nobody's successor. -/
theorem Adj.head?_ne (hq : q.Nodup) (hab : Adj q a b) : q.head? ≠ some b := by
  cases q with
  | nil => simp at hab
  | cons x xs =>
      intro e
      obtain rfl : x = b := by simpa using e
      rcases adj_cons.mp hab with ⟨-, hb⟩ | hb
      · exact (List.nodup_cons.mp hq).1 (List.mem_of_mem_head? hb)
      · exact (List.nodup_cons.mp hq).1 hb.mem_right

/-- The last member has no successor. -/
theorem Adj.getLast?_ne (hq : q.Nodup) (hab : Adj q a b) : q.getLast? ≠ some a := by
  induction q with
  | nil => simp at hab
  | cons x xs ih =>
      have hx := List.nodup_cons.mp hq
      intro e
      rcases adj_cons.mp hab with ⟨rfl, hb⟩ | hb
      · cases xs with
        | nil => simp at hb
        | cons y ys =>
            rw [List.getLast?_cons_cons] at e
            exact hx.1 (List.mem_of_getLast? e)
      · cases xs with
        | nil => simp at hb
        | cons y ys =>
            rw [List.getLast?_cons_cons] at e
            exact ih hx.2 hb e

/-! ### Uniqueness -/

/-- A member has one successor at most. -/
theorem Adj.right_unique (hq : q.Nodup) (hab : Adj q a b) (hac : Adj q a c) : b = c := by
  induction q with
  | nil => simp at hab
  | cons x xs ih =>
      have hx := List.nodup_cons.mp hq
      rcases adj_cons.mp hab with ⟨rfl, hb⟩ | hb <;> rcases adj_cons.mp hac with ⟨e, hc⟩ | hc
      · exact Option.some.inj (hb.symm.trans hc)
      -- the head has no second place further back
      · exact absurd hc.mem_left hx.1
      · exact absurd (e ▸ hb.mem_left) hx.1
      · exact ih hx.2 hb hc

/-- A member is the successor of one at most, so a link tells who has stored it. -/
theorem Adj.left_unique (hq : q.Nodup) (hac : Adj q a c) (hbc : Adj q b c) : a = b := by
  induction q with
  | nil => simp at hac
  | cons x xs ih =>
      have hx := List.nodup_cons.mp hq
      rcases adj_cons.mp hac with ⟨rfl, ha⟩ | ha <;> rcases adj_cons.mp hbc with ⟨rfl, hb⟩ | hb
      · rfl
      · exact absurd ha (hb.head?_ne hx.2)
      · exact absurd hb (ha.head?_ne hx.2)
      · exact ih hx.2 ha hb

end MyTests.Lib
