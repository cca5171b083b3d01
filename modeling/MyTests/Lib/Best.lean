/-
MyTests/Lib/Best.lean

A scan that keeps the best element so far.  `better` is a strict order in which
elements may tie; on a tie the scan keeps what it has.
-/
import Mathlib

namespace MyTests.Lib

variable {α : Type*} (better : α → α → Prop) [DecidableRel better]

/-- The better of the two, the first on a tie. -/
def keep (best e : α) : α := if better e best then e else best

theorem foldl_keep_mem (l : List α) (b : α) : l.foldl (keep better) b ∈ b :: l := by
  induction l generalizing b with
  | nil => exact List.mem_singleton_self b
  | cons x l ih =>
      rcases List.mem_cons.mp (ih (keep better b x)) with h | h
      · rw [List.foldl_cons, h, keep]
        split
        · exact List.mem_cons_of_mem _ List.mem_cons_self
        · exact List.mem_cons_self
      · exact List.mem_cons_of_mem _ (List.mem_cons_of_mem _ h)

/-- **Nothing in the scan is better than its result.** -/
theorem not_better_foldl_keep (hasymm : ∀ a b, better a b → ¬ better b a)
    (hneg : ∀ a b c, better a c → better a b ∨ better b c) {l : List α} {b e : α} (he : e ∈ b :: l) :
    ¬ better e (l.foldl (keep better) b) := by
  induction l generalizing b e with
  | nil =>
      obtain rfl := List.mem_singleton.mp he
      exact fun h => hasymm _ _ h h
  | cons x l ih =>
      rw [List.foldl_cons]
      intro hbetter
      by_cases hx : better x b
      -- `x` takes the place of `b`, so what is better than the result beats `x`, or `b` beat it
      · rw [keep, if_pos hx] at hbetter
        have hmem : e = b ∨ e ∈ x :: l := List.mem_cons.mp he
        rcases hmem with rfl | hmem
        · rcases hneg e x _ hbetter with h | h
          · exact hasymm _ _ h hx
          · exact ih List.mem_cons_self h
        · exact ih hmem hbetter
      -- `b` stays, and `x` is no better than it
      · rw [keep, if_neg hx] at hbetter
        rcases List.mem_cons.mp he with rfl | hmem
        · exact ih List.mem_cons_self hbetter
        · rcases List.mem_cons.mp hmem with rfl | hmem
          · rcases hneg e b _ hbetter with h | h
            · exact hx h
            · exact ih List.mem_cons_self h
          · exact ih (List.mem_cons_of_mem _ hmem) hbetter

/-- **What the scan passed on its way is worse than its result**, so of those that tie it keeps
the first. -/
theorem foldl_keep_first (hasymm : ∀ a b, better a b → ¬ better b a)
    (hneg : ∀ a b c, better a c → better a b ∨ better b c) (l : List α) (b : α) :
    ∃ pre post, b :: l = pre ++ l.foldl (keep better) b :: post
      ∧ ∀ e ∈ pre, better (l.foldl (keep better) b) e := by
  induction l generalizing b with
  | nil => exact ⟨[], [], rfl, fun e he => absurd he List.not_mem_nil⟩
  | cons x l ih =>
      obtain ⟨pre, post, hsplit, hworse⟩ := ih (keep better b x)
      rw [List.foldl_cons]
      by_cases hx : better x b
      · have hkeep : keep better b x = x := if_pos hx
        rw [hkeep] at hsplit hworse ⊢
        refine ⟨b :: pre, post, by rw [hsplit]; rfl, ?_⟩
        intro e he
        rcases List.mem_cons.mp he with rfl | he
        · -- the result is `x`, or better than `x`
          cases pre with
          | nil =>
              have hres := (List.cons.inj hsplit).1
              rwa [← hres]
          | cons y pre =>
              obtain rfl := (List.cons.inj hsplit).1
              rcases hneg _ e _ (hworse x List.mem_cons_self) with h | h
              · exact h
              · exact absurd h (hasymm _ _ hx)
        · exact hworse e he
      · have hkeep : keep better b x = b := if_neg hx
        rw [hkeep] at hsplit hworse ⊢
        cases pre with
        | nil =>
            obtain ⟨hres, -⟩ := List.cons.inj hsplit
            refine ⟨[], x :: l, ?_, fun e he => absurd he List.not_mem_nil⟩
            rw [List.nil_append, ← hres]
        -- the result is behind `b`, so it beats `b`, and `x` that is no better
        | cons y pre =>
            obtain ⟨rfl, hrest⟩ := List.cons.inj hsplit
            refine ⟨b :: x :: pre, post, congrArg (fun t => b :: x :: t) hrest, ?_⟩
            intro e he
            have hb := hworse b List.mem_cons_self
            rcases List.mem_cons.mp he with rfl | he
            · exact hb
            · rcases List.mem_cons.mp he with rfl | he
              · exact (hneg _ e _ hb).resolve_right hx
              · exact hworse e (List.mem_cons_of_mem _ he)

end MyTests.Lib
