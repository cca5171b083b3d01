/-
MyTests/Tax/IncomeTax.lean

`src/tax.py`: the two tax tables, in exact arithmetic.

`income_tax` is called with the taxable income of the year so far, from which
`tax_lowest` has already been deducted for every month.  It compares this income with
`tax_lowest` once more, and up to there charges nothing.  Above, the table is continuous
(`incomeTable_seamless`), so this test is the one place where the tax jumps: by 150, at
5000 (`growth_le_iff`).

`beneficial_tax` finds the tier by a twelfth of the bonus, and takes the rate on all of
the bonus with a deduction that is for a twelfth.  So it jumps wherever a tier ends
(`beneficial_le_iff`).
-/
import MyTests.Lib.Tiers

namespace MyTests.Tax

open MyTests.Lib

/-! ### The tables -/

/-- `sys.maxsize`. -/
def maxsize : ℚ := 2 ^ 63 - 1

/-- `tax_lowest`: the lowest income per month to pay tax. -/
def taxLowest : ℚ := 5000

/-- The table of `income_tax`. -/
def incomeTable : List (Tier ℚ) :=
  [⟨36000, 3 / 100, 0⟩,
   ⟨144000, 10 / 100, 2520⟩,
   ⟨300000, 20 / 100, 16920⟩,
   ⟨420000, 25 / 100, 31920⟩,
   ⟨660000, 30 / 100, 52920⟩,
   ⟨960000, 35 / 100, 85920⟩,
   ⟨maxsize, 45 / 100, 181920⟩]

/-- The table of `beneficial_tax`, by the bonus per month. -/
def beneficialTable : List (Tier ℚ) :=
  [⟨3000, 3 / 100, 0⟩,
   ⟨12000, 10 / 100, 210⟩,
   ⟨25000, 20 / 100, 1410⟩,
   ⟨35000, 25 / 100, 2660⟩,
   ⟨55000, 30 / 100, 4410⟩,
   ⟨80000, 35 / 100, 7160⟩,
   ⟨maxsize, 45 / 100, 15160⟩]

/-- `income_tax`; behind the last tier it raises. -/
def incomeTax (income : ℚ) : Except String ℚ :=
  if income ≤ taxLowest then .ok 0
  else
    match tierOf incomeTable income with
    | some b => .ok (income * b.rate - b.deduction)
    | none => .error "wtf"

/-- `beneficial_tax`: the tier is that of a twelfth of the bonus, the tax is on all of it. -/
def beneficialTax (bonus : ℚ) : Except String ℚ :=
  match tierOf beneficialTable (bonus / 12) with
  | some b => .ok (bonus * b.rate - b.deduction)
  | none => .error "wft"

/-! ### `income_tax` by cases -/

variable {x y : ℚ}

theorem incomeTax_of_le (h : x ≤ taxLowest) : incomeTax x = .ok 0 := if_pos h

theorem incomeTax_of_lt (h : taxLowest < x) (hx : x ≤ maxsize) :
    ∃ c, charge incomeTable x = some c ∧ incomeTax x = .ok c := by
  have hlast : (⟨maxsize, 45 / 100, 181920⟩ : Tier ℚ) ∈ incomeTable := by
    simp [incomeTable]
  obtain ⟨b, hb⟩ := exists_tierOf hlast hx
  refine ⟨b.charge x, by rw [charge, hb]; rfl, ?_⟩
  rw [incomeTax, if_neg (not_le.mpr h), hb]
  rfl

/-- Within the table there is a tax. -/
theorem exists_incomeTax (hx : x ≤ maxsize) : ∃ t, incomeTax x = .ok t := by
  rcases le_or_gt x taxLowest with h | h
  · exact ⟨0, incomeTax_of_le h⟩
  · obtain ⟨c, -, hc⟩ := incomeTax_of_lt h hx
    exact ⟨c, hc⟩

theorem exists_beneficialTax (hx : x / 12 ≤ maxsize) : ∃ t, beneficialTax x = .ok t := by
  have hlast : (⟨maxsize, 45 / 100, 15160⟩ : Tier ℚ) ∈ beneficialTable := by
    simp [beneficialTable]
  obtain ⟨b, hb⟩ := exists_tierOf hlast hx
  exact ⟨x * b.rate - b.deduction, by rw [beneficialTax, hb]⟩

/-! ### The table is continuous -/

theorem incomeTable_seamless : Seamless incomeTable := by
  simp only [Seamless, incomeTable, List.isChain_cons_cons, Tier.charge, maxsize]
  norm_num

theorem incomeTable_rates : RatesIn (45 / 100) incomeTable := by
  intro b hb
  simp only [incomeTable, List.mem_cons, List.not_mem_nil, or_false] at hb
  rcases hb with rfl | rfl | rfl | rfl | rfl | rfl | rfl <;> norm_num

/-- The first tier. -/
theorem charge_first (h : x ≤ 36000) : charge incomeTable x = some (x * (3 / 100)) := by
  rw [incomeTable, charge_cons_of_le h, Tier.charge, sub_zero]

/-! ### Growth -/

/-- The tax on an income that is not exempt. -/
theorem charge_bounds {c : ℚ} (h : taxLowest < y) (hc : charge incomeTable y = some c) :
    150 ≤ c ∧ c ≤ 1080 + 45 / 100 * max 0 (y - 36000) := by
  have hlow : charge incomeTable taxLowest = some (taxLowest * (3 / 100)) :=
    charge_first (by norm_num [taxLowest])
  have hfrom := (incomeTable_seamless.charge_sub incomeTable_rates h.le hlow hc).1
  have h150 : taxLowest * (3 / 100) = 150 := by norm_num [taxLowest]
  rw [h150] at hfrom
  refine ⟨by linarith, ?_⟩
  rcases le_or_gt y 36000 with hy | hy
  · rw [charge_first hy, Option.some.injEq] at hc
    have hmax : (0 : ℚ) ≤ max 0 (y - 36000) := le_max_left _ _
    linarith
  · have hedge : charge incomeTable 36000 = some (36000 * (3 / 100)) := charge_first le_rfl
    have hstep := (incomeTable_seamless.charge_sub incomeTable_rates hy.le hedge hc).2
    have hmax : y - 36000 ≤ max 0 (y - 36000) := le_max_right _ _
    linarith

/-- Across the exemption limit all of the income becomes taxed at once. -/
theorem straddle_le_iff {r c : ℚ} (hr : 45 / 100 ≤ r) (hx : x ≤ taxLowest) (hy : taxLowest < y)
    (hc : charge incomeTable y = some c) :
    c ≤ r * (y - x) ↔ r * x ≤ (r - 3 / 100) * y := by
  rcases le_or_gt y 36000 with hlow | hhigh
  · rw [charge_first hlow, Option.some.injEq] at hc
    rw [← hc, mul_sub, sub_mul, le_sub_comm, mul_comm y]
  · -- so far above the limit both sides hold
    have hupper := (charge_bounds hy hc).2
    rw [max_eq_right (by linarith)] at hupper
    rw [taxLowest] at hx
    constructor
    · intro _
      nlinarith
    · intro _
      nlinarith

/-- **The tax does not fall, and how fast it grows.**  For a slope `r` of at least the top rate,
only two incomes on either side of the exemption limit can be taxed further apart. -/
theorem growth_le_iff {r : ℚ} (hr : 45 / 100 ≤ r) (hxy : x ≤ y) (hy : y ≤ maxsize) :
    ∃ tx ty, incomeTax x = .ok tx ∧ incomeTax y = .ok ty ∧ 0 ≤ ty - tx
      ∧ (ty - tx ≤ r * (y - x)
        ↔ ¬ (x ≤ taxLowest ∧ taxLowest < y ∧ (r - 3 / 100) * y < r * x)) := by
  have hgap : 0 ≤ y - x := sub_nonneg.mpr hxy
  have hslope : 45 / 100 * (y - x) ≤ r * (y - x) := mul_le_mul_of_nonneg_right hr hgap
  rcases le_or_gt y taxLowest with hlow | hhigh
  · -- both are exempt
    refine ⟨0, 0, incomeTax_of_le (hxy.trans hlow), incomeTax_of_le hlow, by simp, ?_⟩
    refine iff_of_true ?_ fun h => absurd h.2.1 (not_lt.mpr hlow)
    linarith
  · obtain ⟨ty, hcy, hty⟩ := incomeTax_of_lt hhigh hy
    rcases le_or_gt x taxLowest with hexempt | htaxed
    -- the exemption ends between the two: all of `y` is taxed
    · refine ⟨0, ty, incomeTax_of_le hexempt, hty, ?_, ?_⟩
      · linarith [(charge_bounds hhigh hcy).1]
      · rw [sub_zero, straddle_le_iff hr hexempt hhigh hcy]
        constructor
        · intro h hcliff
          exact absurd h (not_le.mpr hcliff.2.2)
        · intro h
          exact not_lt.mp fun hlt => h ⟨hexempt, hhigh, hlt⟩
    -- both are taxed, and the table has no jump
    · obtain ⟨tx, hcx, htx⟩ := incomeTax_of_lt htaxed (hxy.trans hy)
      have hgrow := incomeTable_seamless.charge_sub incomeTable_rates hxy hcx hcy
      refine ⟨tx, ty, htx, hty, hgrow.1, iff_of_true (hgrow.2.trans hslope) ?_⟩
      exact fun h => absurd h.1 (not_le.mpr htaxed)

/-! ### The beneficial bonus -/

theorem beneficialTable_rates : RatesIn (45 / 100) beneficialTable := by
  intro b hb
  simp only [beneficialTable, List.mem_cons, List.not_mem_nil, or_false] at hb
  rcases hb with rfl | rfl | rfl | rfl | rfl | rfl | rfl <;> norm_num

/-- From `x` to `y` the bonus enters a higher tier, and what the new rate takes from the whole of
it is more than the bonus has grown by. -/
def BonusCliff (x y : ℚ) : Prop :=
  ∃ b c, tierOf beneficialTable (x / 12) = some b ∧ tierOf beneficialTable (y / 12) = some c
    ∧ b.upper < y / 12
    ∧ (1 - c.rate) * y + c.deduction < (1 - b.rate) * x + b.deduction

/-- One yuan more than 36000 is too little. -/
example : BonusCliff 36000 36001 := by
  refine ⟨⟨3000, 3 / 100, 0⟩, ⟨12000, 10 / 100, 210⟩, by decide +kernel, by decide +kernel, ?_, ?_⟩
  · norm_num
  · norm_num

/-- **A larger bonus is worth more after tax, but for the cliffs between the tiers.** -/
theorem beneficial_le_iff (hxy : x ≤ y) (hy : y / 12 ≤ maxsize) :
    ∃ tx ty, beneficialTax x = .ok tx ∧ beneficialTax y = .ok ty
      ∧ (x - tx ≤ y - ty ↔ ¬ BonusCliff x y) := by
  have hlast : (⟨maxsize, 45 / 100, 15160⟩ : Tier ℚ) ∈ beneficialTable := by
    simp [beneficialTable]
  have hxy' : x / 12 ≤ y / 12 := by linarith
  obtain ⟨b, hb⟩ := exists_tierOf hlast (hxy'.trans hy)
  obtain ⟨c, hc⟩ := exists_tierOf hlast hy
  refine ⟨x * b.rate - b.deduction, y * c.rate - c.deduction, by rw [beneficialTax, hb],
    by rw [beneficialTax, hc], ?_⟩
  rcases le_or_gt (y / 12) b.upper with hsame | hhigher
  · -- in one tier the bonus keeps its share
    obtain rfl : b = c := Option.some.inj ((tierOf_of_le hb hxy' hsame).symm.trans hc)
    refine iff_of_true ?_ ?_
    · have hrate := (beneficialTable_rates b (mem_of_tierOf hb)).2
      nlinarith
    · rintro ⟨b', c', hb', -, hlt, -⟩
      obtain rfl := Option.some.inj (hb'.symm.trans hb)
      exact absurd hsame (not_le.mpr hlt)
  · constructor
    · rintro hle ⟨b', c', hb', hc', -, hlt⟩
      obtain rfl := Option.some.inj (hb'.symm.trans hb)
      obtain rfl := Option.some.inj (hc'.symm.trans hc)
      linarith
    · intro hnot
      by_contra hlt
      exact hnot ⟨b, c, hb, hc, hhigher, by linarith⟩

end MyTests.Tax
