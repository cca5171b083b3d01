/-
MyTests/Lib/Fairness.lean

Two rules for what must happen along an infinite run.

`leadsTo_of_helper` is the rule of weak fairness: a condition that only its
goal can end, and that one action ends, leads to the goal when the action keeps
being taken.  `leadsTo_of_variant` chains such arguments along a decreasing
variant, with a different helper for each value if need be.
-/
import Mathlib

namespace MyTests.Lib

variable {σ : Type*} {ρ : ℕ → σ} {P Q : σ → Prop} {n : ℕ}

/-- `P` holds now, so `Q` holds now or later. -/
def LeadsTo (ρ : ℕ → σ) (P Q : σ → Prop) : Prop := ∀ n, P (ρ n) → ∃ m ≥ n, Q (ρ m)

/-- Between `n` and `m` a condition that only `Q` can end still holds. -/
theorem persists (hstep : ∀ k, P (ρ k) → P (ρ (k + 1)) ∨ Q (ρ (k + 1))) (hn : P (ρ n)) (m : ℕ)
    (hm : n ≤ m) : P (ρ m) ∨ ∃ k, n ≤ k ∧ k ≤ m ∧ Q (ρ k) := by
  induction m, hm using Nat.le_induction with
  | base => exact Or.inl hn
  | succ m hm ih =>
      rcases ih with hP | ⟨k, hnk, hkm, hQ⟩
      · rcases hstep m hP with hP | hQ
        · exact Or.inl hP
        · exact Or.inr ⟨m + 1, hm.trans (Nat.le_succ m), le_rfl, hQ⟩
      · exact Or.inr ⟨k, hnk, hkm.trans (Nat.le_succ m), hQ⟩

/-- **Weak fairness.**  Only `Q` ends `P`, the helper's action ends `P`, and the
helper acts again and again. -/
theorem leadsTo_of_helper {acts : ℕ → Prop}
    (hstep : ∀ k, P (ρ k) → P (ρ (k + 1)) ∨ Q (ρ (k + 1)))
    (hact : ∀ k, P (ρ k) → acts k → Q (ρ (k + 1)))
    (hfair : ∀ k, ∃ m ≥ k, acts m) : LeadsTo ρ P Q := by
  intro n hn
  obtain ⟨m, hm, hacts⟩ := hfair n
  rcases persists hstep hn m hm with hP | ⟨k, hnk, -, hQ⟩
  · exact ⟨m + 1, hm.trans (Nat.le_succ m), hact m hP hacts⟩
  · exact ⟨k, hnk, hQ⟩

/-- **Variants.**  If every value of the variant leads to the goal or to a
smaller value, then every value leads to the goal. -/
theorem leadsTo_of_variant {V : ℕ → σ → Prop}
    (hdec : ∀ k, LeadsTo ρ (V k) fun s => Q s ∨ ∃ j < k, V j s) (k : ℕ) : LeadsTo ρ (V k) Q := by
  induction k using Nat.strong_induction_on with
  | _ k ih =>
      intro n hn
      obtain ⟨m, hm, hQ | ⟨j, hj, hV⟩⟩ := hdec k n hn
      · exact ⟨m, hm, hQ⟩
      · obtain ⟨m', hm', hQ⟩ := ih j hj m hV
        exact ⟨m', hm.trans hm', hQ⟩

end MyTests.Lib
