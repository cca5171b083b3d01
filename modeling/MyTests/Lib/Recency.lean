/-
MyTests/Lib/Recency.lean

Recency order, and the list of the most recent.

Of a past, latest first, `List.eraseDups` keeps the first occurrence of everything:
what occurred, by how recently.  One more occurrence moves an element to the front
(`eraseDups_cons_erase`).

A cache of `k` places holds the `k` most recent (`mostRecent`), and whatever is in a
place not yet used.  To keep it up to date the cache itself is enough
(`mostRecent_cons`): what moves up from behind the `k`-th place, if anything does, is
not needed.
-/
import Mathlib

namespace MyTests.Lib

variable {α : Type*} [DecidableEq α] {a z : α} {l : List α} {k : ℕ}

/-! ### Recency -/

theorem eraseDups_filter (p : α → Bool) (l : List α) :
    (l.filter p).eraseDups = l.eraseDups.filter p := by
  induction hn : l.length using Nat.strong_induction_on generalizing l with
  | _ n ih =>
      cases l with
      | nil => rfl
      | cons a t =>
          -- what is left without the copies of the head is shorter
          have hshort : (t.filter fun b => !b == a).length < n := by
            have hle := List.length_filter_le (fun b => !b == a) t
            rw [List.length_cons] at hn
            omega
          have hrest := ih _ hshort (t.filter fun b => !b == a) rfl
          rw [List.eraseDups_cons]
          by_cases hp : p a
          · rw [List.filter_cons_of_pos hp, List.filter_cons_of_pos hp, List.eraseDups_cons,
              List.filter_comm, hrest]
          · -- what `p` lets through is not `a`
            have hother : (t.filter fun b => !b == a).filter p = t.filter p := by
              rw [List.filter_filter]
              apply List.filter_congr
              intro b _
              by_cases hb : b = a
              · simp [hb, hp]
              · simp [hb]
            rw [List.filter_cons_of_neg hp, List.filter_cons_of_neg hp, ← hrest, hother]

theorem nodup_eraseDups (l : List α) : l.eraseDups.Nodup := by
  induction l with
  | nil => exact List.nodup_nil
  | cons a t ih =>
      rw [List.eraseDups_cons, eraseDups_filter, List.nodup_cons]
      exact ⟨fun hmem => by simp at hmem, ih.filter _⟩

/-- **An occurrence moves its element to the front.** -/
theorem eraseDups_cons_erase (a : α) (l : List α) :
    (a :: l).eraseDups = a :: l.eraseDups.erase a := by
  rw [List.eraseDups_cons, eraseDups_filter, (nodup_eraseDups l).erase_eq_filter]
  congr 1

/-! ### The most recent -/

/-- The first `k` of `l`, and `z` in the places left. -/
def mostRecent (k : ℕ) (z : α) (l : List α) : List α := l.take k ++ List.replicate (k - l.length) z

omit [DecidableEq α] in
theorem mostRecent_eq_take (k : ℕ) (z : α) (l : List α) :
    mostRecent k z l = (l ++ List.replicate k z).take k := by
  rw [List.take_append, List.take_replicate, mostRecent]
  congr 2
  omega

omit [DecidableEq α] in
theorem mem_mostRecent (haz : a ≠ z) : a ∈ mostRecent k z l ↔ a ∈ l.take k := by
  rw [mostRecent, List.mem_append]
  exact or_iff_left fun hmem => haz (List.eq_of_mem_replicate hmem)

theorem take_erase_take (a : α) : ∀ (l : List α) (n : ℕ),
    ((l.take (n + 1)).erase a).take n = (l.erase a).take n := by
  intro l
  induction l with
  | nil => exact fun n => by simp
  | cons b t ih =>
      intro n
      by_cases hb : b = a
      · subst hb
        rw [List.take_succ_cons, List.erase_cons_head, List.erase_cons_head, List.take_take,
          min_self]
      · have hne : ¬ (b == a) = true := by simpa using hb
        rw [List.take_succ_cons, List.erase_cons_tail hne, List.erase_cons_tail hne]
        cases n with
        | zero => rfl
        | succ n => rw [List.take_succ_cons, List.take_succ_cons, ih]

/-- **The cache is enough to keep the cache.** -/
theorem mostRecent_cons (haz : a ≠ z) :
    (a :: (mostRecent k z l).erase a).take k = mostRecent k z (a :: l.erase a) := by
  have hunused : (l ++ List.replicate k z).erase a = l.erase a ++ List.replicate k z := by
    by_cases hmem : a ∈ l
    · exact List.erase_append_left _ hmem
    · rw [List.erase_append_right _ hmem, List.erase_of_not_mem hmem, List.erase_of_not_mem]
      exact fun hz => haz (List.eq_of_mem_replicate hz)
  rw [mostRecent_eq_take, mostRecent_eq_take]
  cases k with
  | zero => rfl
  | succ n =>
      rw [List.take_succ_cons, take_erase_take, hunused, List.cons_append, List.take_succ_cons]

end MyTests.Lib
