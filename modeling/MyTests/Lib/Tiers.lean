/-
MyTests/Lib/Tiers.lean

Tables of tiers, each with a rate and a quick deduction.

An amount falls in the first tier whose upper end it does not exceed, and is
charged the rate of that tier on the whole of it, less the deduction.  The
deductions are there so that the charge does not jump from one tier to the next
(`Seamless`).  When they do that, and no rate is below 0 or above `r`, then between two
amounts the charge grows by no less than 0 and by no more than `r` for each unit
(`Seamless.charge_sub`).  A table that is not seamless can still be told by its tiers:
the tier stays until the key passes its end (`tierOf_of_le`).
-/
import Mathlib

namespace MyTests.Lib

variable {𝕜 : Type*} [Field 𝕜] [LinearOrder 𝕜]

/-- The amounts up to `upper`. -/
structure Tier (𝕜 : Type*) where
  upper : 𝕜
  rate : 𝕜
  deduction : 𝕜
deriving DecidableEq

/-- The charge of one tier. -/
def Tier.charge (b : Tier 𝕜) (amount : 𝕜) : 𝕜 := amount * b.rate - b.deduction

/-- The first tier that `key` does not exceed. -/
def tierOf (table : List (Tier 𝕜)) (key : 𝕜) : Option (Tier 𝕜) :=
  table.find? fun b => key ≤ b.upper

/-- The charge on an amount, none behind the last tier. -/
def charge (table : List (Tier 𝕜)) (amount : 𝕜) : Option 𝕜 :=
  (tierOf table amount).map fun b => b.charge amount

/-- The tiers follow each other, and where one ends the next charges the same. -/
def Seamless (table : List (Tier 𝕜)) : Prop :=
  table.IsChain fun b b' => b.upper ≤ b'.upper ∧ b.charge b.upper = b'.charge b.upper

/-- The rates are between 0 and `r`. -/
def RatesIn (r : 𝕜) (table : List (Tier 𝕜)) : Prop :=
  ∀ b ∈ table, 0 ≤ b.rate ∧ b.rate ≤ r

variable {r x y : 𝕜} {b : Tier 𝕜} {table : List (Tier 𝕜)}

@[simp] theorem charge_nil : charge [] x = none := rfl

theorem charge_cons_of_le (h : x ≤ b.upper) : charge (b :: table) x = some (b.charge x) := by
  rw [charge, tierOf, List.find?_cons_of_pos (by simpa using h)]
  rfl

theorem charge_cons_of_lt (h : b.upper < x) : charge (b :: table) x = charge table x := by
  rw [charge, tierOf, List.find?_cons_of_neg (by simpa using h)]
  rfl

omit [Field 𝕜] in
/-- A key not above the last tier has a tier. -/
theorem exists_tierOf {last : Tier 𝕜} (hlast : last ∈ table) (hx : x ≤ last.upper) :
    ∃ b, tierOf table x = some b := by
  have hsome : (table.find? fun b => decide (x ≤ b.upper)).isSome := by
    rw [List.find?_isSome]
    exact ⟨last, hlast, by simpa using hx⟩
  exact Option.isSome_iff_exists.mp hsome

omit [Field 𝕜] in
/-- Up to the end of its tier, a larger key has the same tier. -/
theorem tierOf_of_le (hb : tierOf table x = some b) (hxy : x ≤ y) (hy : y ≤ b.upper) :
    tierOf table y = some b := by
  induction table with
  | nil => exact absurd hb (Option.some_ne_none b).symm
  | cons d table ih =>
      rcases le_or_gt x d.upper with hx | hx
      · rw [tierOf, List.find?_cons_of_pos (by simpa using hx)] at hb
        obtain rfl := Option.some.inj hb
        exact List.find?_cons_of_pos (by simpa using hy)
      · rw [tierOf, List.find?_cons_of_neg (by simpa using hx)] at hb
        rw [tierOf, List.find?_cons_of_neg (by simpa using hx.trans_le hxy)]
        exact ih hb

omit [Field 𝕜] in
theorem mem_of_tierOf (hb : tierOf table x = some b) : b ∈ table :=
  List.mem_of_find?_eq_some hb

/-! ### Growth -/

theorem Tier.charge_sub {𝕜 : Type*} [Field 𝕜] (b : Tier 𝕜) (x y : 𝕜) :
    b.charge y - b.charge x = b.rate * (y - x) := by
  rw [Tier.charge, Tier.charge]
  ring

variable [IsStrictOrderedRing 𝕜]

/-- Within a tier the charge grows with the rate. -/
theorem Tier.charge_bounds (hrate : 0 ≤ b.rate ∧ b.rate ≤ r) (hxy : x ≤ y) :
    0 ≤ b.charge y - b.charge x ∧ b.charge y - b.charge x ≤ r * (y - x) := by
  have hgap : 0 ≤ y - x := sub_nonneg.mpr hxy
  rw [b.charge_sub]
  exact ⟨mul_nonneg hrate.1 hgap, mul_le_mul_of_nonneg_right hrate.2 hgap⟩

/-- From an amount of the first tier to any above.  The induction climbs the tiers:
the charge at the end of one is where the next takes over. -/
theorem Seamless.charge_sub_head : ∀ {b : Tier 𝕜} {table : List (Tier 𝕜)} {x : 𝕜},
    Seamless (b :: table) → RatesIn r (b :: table) → x ≤ b.upper → x ≤ y →
    ∀ {c : 𝕜}, charge (b :: table) y = some c →
      0 ≤ c - b.charge x ∧ c - b.charge x ≤ r * (y - x) := by
  intro b table
  induction table generalizing b with
  | nil =>
      intro x _ hrates hx hxy c hc
      rcases le_or_gt y b.upper with hy | hy
      · obtain rfl := Option.some.inj ((charge_cons_of_le hy).symm.trans hc)
        exact b.charge_bounds (hrates b List.mem_cons_self) hxy
      · rw [charge_cons_of_lt hy, charge_nil] at hc
        exact absurd hc (Option.some_ne_none c).symm
  | cons b' table ih =>
      intro x hseamless hrates hx hxy c hc
      have hrate := hrates b List.mem_cons_self
      rcases le_or_gt y b.upper with hy | hy
      · obtain rfl := Option.some.inj ((charge_cons_of_le hy).symm.trans hc)
        exact b.charge_bounds hrate hxy
      · rw [charge_cons_of_lt hy] at hc
        obtain ⟨⟨hupper, hsame⟩, hrest⟩ := List.isChain_cons_cons.mp hseamless
        have hbelow := Tier.charge_bounds hrate hx
        have habove := ih hrest (fun d hd => hrates d (List.mem_cons_of_mem b hd)) hupper hy.le hc
        rw [← hsame] at habove
        constructor
        · linarith [hbelow.1, habove.1]
        · linarith [hbelow.2, habove.2]

/-- **The charge climbs, and no faster than the highest rate.** -/
theorem Seamless.charge_sub (hseamless : Seamless table) (hrates : RatesIn r table) (hxy : x ≤ y)
    {c d : 𝕜} (hc : charge table x = some c) (hd : charge table y = some d) :
    0 ≤ d - c ∧ d - c ≤ r * (y - x) := by
  induction table with
  | nil => exact absurd hc (Option.some_ne_none c).symm
  | cons b table ih =>
      rcases le_or_gt x b.upper with hx | hx
      · obtain rfl := Option.some.inj ((charge_cons_of_le hx).symm.trans hc)
        exact Seamless.charge_sub_head hseamless hrates hx hxy hd
      · rw [charge_cons_of_lt hx] at hc
        rw [charge_cons_of_lt (hx.trans_le hxy)] at hd
        exact ih hseamless.tail (fun e he => hrates e (List.mem_cons_of_mem b he)) hc hd

end MyTests.Lib
