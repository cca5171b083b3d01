/-
MyTests/Lib/Negamax.lean

Two-player games in which one side's gain is the other's loss, as a negamax
search sees them: every position is seen by the side to move, and a value is
negated with the side.

`IsValue` is what a search has to compute, and `Play` is what can happen when
one side follows a policy and the other side does anything at all.  An optimal
policy secures the value against every play (`IsValue.le_play`), on either
side of the board.  Values move along maps of games (`IsValue.comap`), so a
bound may be checked on a representation that is quick to compute with
(`IsValue.bound`).
-/
import Mathlib

namespace MyTests.Lib

variable {S T M V : Type*}

/-! ### Games, values and plays -/

structure Game (S M V : Type*) where
  /-- the gain of the side to move, once the game is over -/
  outcome : S → Option V
  moves : S → List M
  next : S → M → S

variable [AddCommGroup V] [LinearOrder V]
variable {g : Game S M V} {v : S → V} {π : S → M}

/-- The value of every position is the best that the side to move can reach. -/
structure IsValue (g : Game S M V) (v : S → V) : Prop where
  outcome : ∀ s r, g.outcome s = some r → v s = r
  le : ∀ s, g.outcome s = none → ∀ m ∈ g.moves s, -v (g.next s m) ≤ v s
  attained : ∀ s, g.outcome s = none → ∃ m ∈ g.moves s, v s = -v (g.next s m)

/-- The policy picks moves that reach the value. -/
def Optimal (g : Game S M V) (v : S → V) (π : S → M) : Prop :=
  ∀ s, g.outcome s = none → π s ∈ g.moves s ∧ v s = -v (g.next s (π s))

/-- A play from `s` ends with gain `r` for the side to move, when one side
follows `π` and the other makes any legal moves; `turn` says whether it is the
turn of `π`. -/
inductive Play (g : Game S M V) (π : S → M) : (turn : Bool) → S → V → Prop
  | outcome {turn s r} : g.outcome s = some r → Play g π turn s r
  | own {s r} : g.outcome s = none → Play g π false (g.next s (π s)) r → Play g π true s (-r)
  | other {s m r} : g.outcome s = none → m ∈ g.moves s → Play g π true (g.next s m) r →
      Play g π false s (-r)

/-- A value is a value of every game that maps into this one. -/
theorem IsValue.comap (hv : IsValue g v) {g' : Game T M V} (f : T → S)
    (hover : ∀ t, g'.outcome t = g.outcome (f t)) (hmoves : ∀ t m, m ∈ g'.moves t ↔ m ∈ g.moves (f t))
    (hnext : ∀ t m, g'.outcome t = none → m ∈ g'.moves t → f (g'.next t m) = g.next (f t) m) :
    IsValue g' (v ∘ f) where
  outcome t r ht := hv.outcome (f t) r (by rw [← hover]; exact ht)
  le t ht m hm := by
    rw [Function.comp_apply, Function.comp_apply, hnext t m ht hm]
    exact hv.le (f t) (by rw [← hover]; exact ht) m ((hmoves t m).mp hm)
  attained t ht := by
    obtain ⟨m, hm, hvm⟩ := hv.attained (f t) (by rw [← hover]; exact ht)
    have hm' := (hmoves t m).mpr hm
    refine ⟨m, hm', ?_⟩
    rw [Function.comp_apply, Function.comp_apply, hnext t m ht hm']
    exact hvm

variable [IsOrderedAddMonoid V]

/-! ### Optimal policies secure the value -/

theorem IsValue.secured (hv : IsValue g v) (hπ : Optimal g v π) {turn : Bool} {s : S} {r : V}
    (h : Play g π turn s r) : if turn then v s ≤ r else r ≤ v s := by
  induction h with
  | @outcome turn s r hover =>
      rw [hv.outcome s r hover]
      cases turn <;> exact le_rfl
  | @own s r hgo _ ih =>
      have hr : r ≤ v (g.next s (π s)) := ih
      show v s ≤ -r
      rw [(hπ s hgo).2]
      exact neg_le_neg hr
  | @other s m r hgo hm _ ih =>
      have hr : v (g.next s m) ≤ r := ih
      exact (neg_le_neg hr).trans (hv.le s hgo m hm)

/-- The side to move, playing `π`, gains at least the value. -/
theorem IsValue.le_play (hv : IsValue g v) (hπ : Optimal g v π) {s : S} {r : V}
    (h : Play g π true s r) : v s ≤ r := hv.secured hπ h

/-- Against `π`, the side to move gains at most the value. -/
theorem IsValue.play_le (hv : IsValue g v) (hπ : Optimal g v π) {s : S} {r : V}
    (h : Play g π false s r) : r ≤ v s := hv.secured hπ h

/-! ### Checking a bound -/

/-- A search of depth `n` for a proof that the value of `s` is at least `k`
(`lower`), or at most `k`; one good move proves a lower bound, an upper bound
needs every move.  `call` applies a function to a position; it may compute the
position first, so that equal positions are searched once. -/
def Game.bound (g : Game S M V) (call : (S → Bool) → S → Bool) :
    ℕ → (lower : Bool) → V → S → Bool
  | 0, _, _, _ => false
  | n + 1, lower, k, s =>
      match g.outcome s with
      | some r => if lower then decide (k ≤ r) else decide (r ≤ k)
      | none =>
          if lower then (g.moves s).any fun m => call (g.bound call n false (-k)) (g.next s m)
          else (g.moves s).all fun m => call (g.bound call n true (-k)) (g.next s m)

theorem IsValue.bound (hv : IsValue g v) {call : (S → Bool) → S → Bool}
    (hcall : ∀ f s, call f s = f s) {n : ℕ} {lower : Bool} {k : V} {s : S}
    (h : g.bound call n lower k s = true) : if lower then k ≤ v s else v s ≤ k := by
  induction n generalizing lower k s with
  | zero => cases h
  | succ n ih =>
      unfold Game.bound at h
      simp only [hcall] at h
      split at h
      · rename_i r hover
        rw [hv.outcome s r hover]
        cases lower <;> simpa using h
      · rename_i hgo
        cases lower with
        -- one good move shows that the value is at least `k`
        | true =>
            obtain ⟨m, hm, hb⟩ := List.any_eq_true.mp h
            have hnext : v (g.next s m) ≤ -k := ih hb
            exact (le_neg.mp hnext).trans (hv.le s hgo m hm)
        -- for at most `k` every move has to be looked at, and the best is one of them
        | false =>
            obtain ⟨m, hm, hvm⟩ := hv.attained s hgo
            have hnext : -k ≤ v (g.next s m) := ih (List.all_eq_true.mp h m hm)
            show v s ≤ k
            rw [hvm]
            exact neg_le.mp hnext

/-! ### The loop of a search -/

/-- One round: a move of value `value m` replaces a worse one. -/
def keepBest (value : M → V) (best : V × Option M) (m : M) : V × Option M :=
  if value m > best.1 then (value m, some m) else best

omit [AddCommGroup V] [IsOrderedAddMonoid V] in
/-- The loop finds the largest value, and a move that has it. -/
theorem foldl_keepBest (value : M → V) (l : List M) (init : V × Option M) :
    let best := l.foldl (keepBest value) init
    init.1 ≤ best.1 ∧ (∀ m ∈ l, value m ≤ best.1) ∧
      (best = init ∨ ∃ m ∈ l, best = (value m, some m)) := by
  induction l generalizing init with
  | nil => exact ⟨le_rfl, by simp, Or.inl rfl⟩
  | cons m l ih =>
      obtain ⟨hinit, hle, hfrom⟩ := ih (keepBest value init m)
      have hstep : init.1 ≤ (keepBest value init m).1 ∧ value m ≤ (keepBest value init m).1 ∧
          (keepBest value init m = init ∨ keepBest value init m = (value m, some m)) := by
        unfold keepBest
        split
        · rename_i hgt
          exact ⟨hgt.le, le_rfl, Or.inr rfl⟩
        · rename_i hle
          exact ⟨le_rfl, not_lt.mp hle, Or.inl rfl⟩
      obtain ⟨h1, h2, h3⟩ := hstep
      refine ⟨h1.trans hinit, List.forall_mem_cons.mpr ⟨h2.trans hinit, hle⟩, ?_⟩
      rcases hfrom with hfrom | ⟨m', hm', hfrom⟩
      · rcases h3 with h3 | h3
        · exact Or.inl (hfrom.trans h3)
        · exact Or.inr ⟨m, List.mem_cons_self, hfrom.trans h3⟩
      · exact Or.inr ⟨m', List.mem_cons_of_mem _ hm', hfrom⟩

end MyTests.Lib
