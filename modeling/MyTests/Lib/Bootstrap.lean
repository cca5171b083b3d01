/-
MyTests/Lib/Bootstrap.lean

Learning action values by bootstrapping.

An update of a state and an action moves their value towards a target: a reward,
or a reward and an estimate of the value of the next state.  Two learners that
make the same updates and differ in the estimate alone are compared here.

If the second estimate is never below the first, the values of the second
learner are never below those of the first, and a strict difference is never
made up, since an update keeps a share of the old value.  So the two end with
the same values exactly if the estimates were equal each time they were used
(`learnAll_eq_iff`).
-/
import Mathlib

namespace MyTests.Lib

variable {S A R : Type*} [DecidableEq S] [DecidableEq A]

/-- An update of the action `a` in the state `s`; `next` is the state to
bootstrap on. -/
structure TdUpdate (S A R : Type*) where
  s : S
  a : A
  reward : R
  next : Option S

section Learner

variable [Field R]

/-- What the value of `u.s` and `u.a` is moved towards. -/
def bootTarget (γ : R) (est : (S → A → R) → S → R) (V : S → A → R) (u : TdUpdate S A R) : R :=
  match u.next with
  | none => u.reward
  | some s' => u.reward + γ * est V s'

/-- An update with the rate `α`. -/
def learn (α γ : R) (est : (S → A → R) → S → R) (V : S → A → R) (u : TdUpdate S A R) :
    S → A → R := fun s a =>
  if s = u.s ∧ a = u.a then V s a + α * (bootTarget γ est V u - V s a) else V s a

def learnAll (α γ : R) (est : (S → A → R) → S → R) (V : S → A → R)
    (us : List (TdUpdate S A R)) : S → A → R := us.foldl (learn α γ est) V

variable {α γ : R} {est est' : (S → A → R) → S → R} {V W : S → A → R} {u : TdUpdate S A R}
  {us : List (TdUpdate S A R)} {s : S} {a : A}

theorem learn_self : learn α γ est V u u.s u.a
    = V u.s u.a + α * (bootTarget γ est V u - V u.s u.a) := if_pos ⟨rfl, rfl⟩

theorem learn_of_ne (h : ¬ (s = u.s ∧ a = u.a)) : learn α γ est V u s a = V s a := if_neg h

/-- What no update is about keeps its value. -/
theorem learnAll_of_notMem (h : ∀ u ∈ us, ¬ (s = u.s ∧ a = u.a)) :
    learnAll α γ est V us s a = V s a := by
  induction us generalizing V with
  | nil => rfl
  | cons u us ih =>
      show learnAll α γ est (learn α γ est V u) us s a = V s a
      rw [ih fun u' hu' => h u' (List.mem_cons_of_mem _ hu'), learn_of_ne (h u List.mem_cons_self)]

/-- Two learners that agree on what is updated agree. -/
theorem learnAll_eq_of_agree {D : S → A → Prop} (hD : ∀ u ∈ us, D u.s u.a)
    (h : ∀ s a, D s a → learnAll α γ est V us s a = learnAll α γ est' V us s a) :
    learnAll α γ est V us = learnAll α γ est' V us := by
  funext s a
  by_cases hsa : ∃ u ∈ us, s = u.s ∧ a = u.a
  · obtain ⟨u, hu, rfl, rfl⟩ := hsa
    exact h _ _ (hD u hu)
  · push Not at hsa
    have hnot : ∀ u ∈ us, ¬ (s = u.s ∧ a = u.a) := fun u hu e => hsa u hu e.1 e.2
    rw [learnAll_of_notMem hnot, learnAll_of_notMem hnot]

end Learner

/-! ### Comparing two estimates -/

section Comparison

variable [Field R] [LinearOrder R] [IsStrictOrderedRing R]
variable {α γ : R} {est est' : (S → A → R) → S → R} {V W : S → A → R} {u : TdUpdate S A R}
  {us : List (TdUpdate S A R)} {s : S} {a : A}

/-- Whenever `u` bootstraps, `est'` is at least `est`, also on larger values. -/
def Above (est est' : (S → A → R) → S → R) (u : TdUpdate S A R) : Prop :=
  ∀ s', u.next = some s' → ∀ V W : S → A → R, V ≤ W → est V s' ≤ est' W s'

omit [DecidableEq S] [DecidableEq A] in
theorem bootTarget_le (hγ : 0 ≤ γ) (hu : Above est est' u) (hVW : V ≤ W) :
    bootTarget γ est V u ≤ bootTarget γ est' W u := by
  unfold bootTarget
  cases hnext : u.next with
  | none => exact le_rfl
  | some s' => exact add_le_add_right (mul_le_mul_of_nonneg_left (hu s' hnext V W hVW) hγ) _

theorem learn_le (hα : 0 ≤ α) (hα1 : α ≤ 1) (hγ : 0 ≤ γ) (hu : Above est est' u) (hVW : V ≤ W) :
    learn α γ est V u ≤ learn α γ est' W u := by
  intro s a
  have htarget := bootTarget_le hγ hu hVW
  have hold := hVW s a
  unfold learn
  split
  · -- the update is a mean of the old value and the target
    nlinarith
  · exact hold

/-- A strict difference stays one. -/
theorem learn_lt (hα : 0 ≤ α) (hα1 : α < 1) (hγ : 0 ≤ γ) (hu : Above est est' u) (hVW : V ≤ W)
    (hlt : V s a < W s a) : learn α γ est V u s a < learn α γ est' W u s a := by
  have htarget := bootTarget_le hγ hu hVW
  unfold learn
  split
  · nlinarith
  · exact hlt

theorem learnAll_lt (hα : 0 ≤ α) (hα1 : α < 1) (hγ : 0 ≤ γ) (hus : ∀ u ∈ us, Above est est' u)
    (hVW : V ≤ W) (hlt : V s a < W s a) :
    learnAll α γ est V us s a < learnAll α γ est' W us s a := by
  induction us generalizing V W with
  | nil => exact hlt
  | cons u us ih =>
      have hu := hus u List.mem_cons_self
      exact ih (fun u' hu' => hus u' (List.mem_cons_of_mem _ hu'))
        (learn_le hα hα1.le hγ hu hVW) (learn_lt hα hα1 hγ hu hVW hlt)

/-- Learners with the same values agree after an update exactly if their
estimates agree on it. -/
theorem learn_eq_iff (hα : 0 < α) (hγ : 0 < γ) :
    learn α γ est V u = learn α γ est' V u ↔ ∀ s', u.next = some s' → est V s' = est' V s' := by
  constructor
  · intro h s' hnext
    have hself := congrFun (congrFun h u.s) u.a
    rw [learn_self, learn_self] at hself
    have htarget : bootTarget γ est V u = bootTarget γ est' V u :=
      sub_left_injective (mul_left_cancel₀ hα.ne' (add_left_cancel hself))
    simp only [bootTarget, hnext] at htarget
    exact mul_left_cancel₀ hγ.ne' (add_left_cancel htarget)
  · intro h
    have htarget : bootTarget γ est V u = bootTarget γ est' V u := by
      unfold bootTarget
      cases hnext : u.next with
      | none => rfl
      | some s' => simp only [h s' hnext]
    funext s a
    unfold learn
    rw [htarget]

/-- **When two learners agree.**  Their values are the same after all updates
exactly if at each update that bootstraps, the first learner's values gave both
estimates the same value. -/
theorem learnAll_eq_iff (hα : 0 < α) (hα1 : α < 1) (hγ : 0 < γ)
    (hus : ∀ u ∈ us, Above est est' u) :
    learnAll α γ est V us = learnAll α γ est' V us ↔
      ∀ us₁ u us₂, us = us₁ ++ u :: us₂ → ∀ s', u.next = some s' →
        est (learnAll α γ est V us₁) s' = est' (learnAll α γ est V us₁) s' := by
  induction us generalizing V with
  | nil =>
      refine ⟨fun _ us₁ u us₂ h => ?_, fun _ => rfl⟩
      exact absurd h.symm (by simp)
  | cons u us ih =>
      have hu := hus u List.mem_cons_self
      have hrest : ∀ u' ∈ us, Above est est' u' := fun u' hu' => hus u' (List.mem_cons_of_mem _ hu')
      constructor
      · intro h
        -- a difference after `u` would be strict somewhere and stay
        have hstep : learn α γ est V u = learn α γ est' V u := by
          by_contra hne
          have hle := learn_le hα.le hα1.le hγ.le hu (le_refl V)
          obtain ⟨s, a, hlt⟩ : ∃ s a, learn α γ est V u s a < learn α γ est' V u s a := by
            by_contra hnone
            push Not at hnone
            exact hne (le_antisymm hle hnone)
          exact (learnAll_lt hα.le hα1 hγ.le hrest hle hlt).ne (congrFun (congrFun h s) a)
        have htail : learnAll α γ est (learn α γ est V u) us
            = learnAll α γ est' (learn α γ est V u) us := by
          conv_rhs => rw [hstep]
          exact h
        intro us₁ u' us₂ hsplit s' hnext
        cases us₁ with
        | nil =>
            obtain ⟨rfl, rfl⟩ := List.cons.inj hsplit
            exact (learn_eq_iff hα hγ).mp hstep s' hnext
        | cons u₁ us₁ =>
            obtain ⟨rfl, htl⟩ := List.cons.inj hsplit
            exact (ih hrest).mp htail us₁ u' us₂ htl s' hnext
      · intro h
        have hstep : learn α γ est V u = learn α γ est' V u :=
          (learn_eq_iff hα hγ).mpr fun s' hnext => h [] u us rfl s' hnext
        show learnAll α γ est (learn α γ est V u) us = learnAll α γ est' (learn α γ est' V u) us
        rw [← hstep]
        refine (ih hrest).mpr fun us₁ u' us₂ hsplit s' hnext => ?_
        exact h (u :: us₁) u' us₂ (congrArg (u :: ·) hsplit) s' hnext

end Comparison

end MyTests.Lib
