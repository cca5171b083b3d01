/-
MyTests/Tax/NetPay.lean

`src/tax.py`: what a raise does to the tax and to the net pay of the year.

The net pay of a year is what the two taxes leave of the taxable income and of the
beneficial bonus (`netPay_eq`), so a raise is lost only when a tax grows by more than
what it is on.  The exemption test of `income_tax` makes that happen: from a taxable
income of at most 5000 to one above, the tax grows from 0 to that on all of the income.
The tax on the beneficial bonus does it at the end of each tier.
-/
import MyTests.Tax.Yearly

namespace MyTests.Tax

open MyTests.Lib

/-- What is earned in a month and taxed as income, before the deduction: the ordinary bonuses are
part of it, the beneficial one is not. -/
def earned (i : Inputs) (month : ℕ) : ℚ :=
  gross i month + (bonusOf i month - beneficialBonus i month)

/-- More is earned in the year, in salary, rewards and bonuses, and no less as the beneficial bonus;
the months may be others. -/
structure Raised (i i' : Inputs) : Prop where
  earned : ∑ month ∈ Finset.Icc 1 12, earned i month ≤ ∑ month ∈ Finset.Icc 1 12, earned i' month
  beneficial : beneficialOf i ≤ beneficialOf i'
  deduction : i'.totalDeduction = i.totalDeduction

variable {i i' : Inputs}

theorem totalTaxable_eq (i : Inputs) :
    totalTaxable i 12 = ∑ month ∈ Finset.Icc 1 12, earned i month - 12 * i.totalDeduction := by
  have hmonth : ∀ month, taxable i month = earned i month - i.totalDeduction := by
    intro month
    rw [taxable, earned]
    ring
  simp only [totalTaxable, hmonth, Finset.sum_sub_distrib]
  norm_num

theorem Raised.totalTaxable_le (h : Raised i i') : totalTaxable i 12 ≤ totalTaxable i' 12 := by
  rw [totalTaxable_eq, totalTaxable_eq, h.deduction]
  exact sub_le_sub_right h.earned _

theorem beneficialOf_le_maxsize (hi : WithinTables i) : beneficialOf i / 12 ≤ maxsize := by
  cases hmonth : i.beneficialMonth with
  | none =>
      simp only [beneficialOf, hmonth]
      norm_num [maxsize]
  | some month =>
      have hle := hi.beneficial month
      rw [beneficialBonus, if_pos hmonth] at hle
      simpa only [beneficialOf, hmonth] using hle

/-- **The net pay of a year** is what the two taxes leave of the taxable income and of the
beneficial bonus, and the deductions. -/
theorem netPay_eq (hi : WithinTables i) : ∃ s t b, yearly i = .ok s
    ∧ incomeTax (totalTaxable i 12) = .ok t ∧ beneficialTax (beneficialOf i) = .ok b
    ∧ totalNetPay s = (totalTaxable i 12 - t) + (beneficialOf i - b) + 12 * i.totalDeduction := by
  obtain ⟨s, t, b, hs, ht, hb, hmoney, htax⟩ := yearly_eq hi
  rw [beneficialYearTax_eq_beneficialTax] at hb
  have hearned : ∑ month ∈ Finset.Icc 1 12, earned i month
      = ∑ month ∈ Finset.Icc 1 12, gross i month
        + (∑ month ∈ Finset.Icc 1 12, bonusOf i month - beneficialOf i) := by
    rw [← sum_beneficialBonus, ← Finset.sum_sub_distrib, ← Finset.sum_add_distrib]
    rfl
  refine ⟨s, t, b, hs, ht, hb, ?_⟩
  rw [totalTaxable_eq, hearned]
  linarith

/-- The raise leads closely across the exemption limit. -/
def ExemptionCliff (x y : ℚ) : Prop := x ≤ 5000 ∧ 5000 < y ∧ 97 * y < 100 * x

/-- What the tax leaves of the income grows with it, but for the exemption limit. -/
theorem income_le_iff {x y : ℚ} (hxy : x ≤ y) (hy : y ≤ maxsize) :
    ∃ tx ty, incomeTax x = .ok tx ∧ incomeTax y = .ok ty
      ∧ (x - tx ≤ y - ty ↔ ¬ ExemptionCliff x y) := by
  obtain ⟨tx, ty, htx, hty, -, hiff⟩ := growth_le_iff (r := 1) (by norm_num) hxy hy
  refine ⟨tx, ty, htx, hty, ?_⟩
  have hgrow : x - tx ≤ y - ty ↔ ty - tx ≤ 1 * (y - x) := by
    constructor <;> intro h <;> linarith
  have hslope : (1 - 3 / 100) * y < 1 * x ↔ 97 * y < 100 * x := by
    constructor <;> intro h <;> linarith
  rw [hgrow, hiff, hslope, taxLowest, ExemptionCliff]

/-- **The schedule has no cliff but at the exemption limit.**  The tax never falls, and it grows by
at most the top rate exactly when the two incomes are not just below and just above 5000.

After a raise, the net pay of the year changes by what the two taxes leave of the income and of the
beneficial bonus.  Of the income they leave less exactly when the raise leads closely across that
limit, of the bonus exactly when it leads closely across the end of a tier.  So a raise in which
the beneficial bonus stays lowers the net pay in the first case only. -/
theorem progressive_iff (x y : ℚ) (hxy : x ≤ y) (hy : y ≤ maxsize) (i i' : Inputs)
    (hi : WithinTables i) (hi' : WithinTables i') (h : Raised i i') :
    (∃ tx ty, incomeTax x = .ok tx ∧ incomeTax y = .ok ty
      ∧ ((0 ≤ ty - tx ∧ ty - tx ≤ 45 / 100 * (y - x))
        ↔ ¬ (x ≤ 5000 ∧ 5000 < y ∧ 14 * y < 15 * x)))
    ∧ ∃ s s' t t' b b', yearly i = .ok s ∧ yearly i' = .ok s'
        ∧ incomeTax (totalTaxable i 12) = .ok t ∧ incomeTax (totalTaxable i' 12) = .ok t'
        ∧ beneficialTax (beneficialOf i) = .ok b ∧ beneficialTax (beneficialOf i') = .ok b'
        ∧ totalNetPay s' - totalNetPay s
            = ((totalTaxable i' 12 - t') - (totalTaxable i 12 - t))
              + ((beneficialOf i' - b') - (beneficialOf i - b))
        ∧ (totalTaxable i 12 - t ≤ totalTaxable i' 12 - t'
          ↔ ¬ ExemptionCliff (totalTaxable i 12) (totalTaxable i' 12))
        ∧ (beneficialOf i - b ≤ beneficialOf i' - b'
          ↔ ¬ BonusCliff (beneficialOf i) (beneficialOf i'))
        ∧ (beneficialOf i' = beneficialOf i →
          (totalNetPay s ≤ totalNetPay s'
            ↔ ¬ ExemptionCliff (totalTaxable i 12) (totalTaxable i' 12)))
        ∧ (totalTaxable i' 12 = totalTaxable i 12 →
          (totalNetPay s ≤ totalNetPay s' ↔ ¬ BonusCliff (beneficialOf i) (beneficialOf i'))) := by
  constructor
  · obtain ⟨tx, ty, htx, hty, hle, hiff⟩ := growth_le_iff le_rfl hxy hy
    refine ⟨tx, ty, htx, hty, ?_⟩
    rw [and_iff_right hle, hiff, taxLowest]
    have hslope : (45 / 100 - 3 / 100) * y < 45 / 100 * x ↔ 14 * y < 15 * x := by
      constructor <;> intro h <;> linarith
    rw [hslope]
  · obtain ⟨s, t, b, hs, ht, hb, hnet⟩ := netPay_eq hi
    obtain ⟨s', t', b', hs', ht', hb', hnet'⟩ := netPay_eq hi'
    obtain ⟨tx, ty, htx, hty, hincome⟩ :=
      income_le_iff h.totalTaxable_le (hi'.income 12 le_rfl)
    obtain ⟨bx, by₁, hbx, hby, hbonus⟩ :=
      beneficial_le_iff h.beneficial (beneficialOf_le_maxsize hi')
    obtain rfl := Except.ok.inj (ht.symm.trans htx)
    obtain rfl := Except.ok.inj (ht'.symm.trans hty)
    obtain rfl := Except.ok.inj (hb.symm.trans hbx)
    obtain rfl := Except.ok.inj (hb'.symm.trans hby)
    rw [h.deduction] at hnet'
    refine ⟨s, s', t, t', b, b', hs, hs', ht, ht', hb, hb', by linarith, hincome, hbonus, ?_, ?_⟩
    · intro hsame
      -- the same bonus has the same tax
      rw [hsame] at hb' hnet'
      obtain rfl := Except.ok.inj (hb.symm.trans hb')
      rw [← hincome]
      constructor <;> intro h <;> linarith
    · intro hsame
      rw [hsame] at ht' hnet'
      obtain rfl := Except.ok.inj (ht.symm.trans ht')
      rw [← hbonus]
      constructor <;> intro h <;> linarith

/-- The sample year after a raise: more salary, an ordinary bonus in May and a larger beneficial
one. -/
def raisedYear : Inputs where
  incomePerMonth := 21000
  housingInsurance := fun _ => 3000
  totalDeduction := 6000
  bonus := fun month => if month = 3 then some 30000 else if month = 5 then some 12000 else none
  beneficialMonth := some 3
  cashReward := fun _ => 0
  bonus_month := by
    intro month amount hbonus
    split_ifs at hbonus with h3 h5
    · rw [h3]; decide
    · rw [h5]; decide
  beneficial_mem := by
    intro month hmonth
    exact ⟨30000, if_pos (Option.some.inj hmonth).symm⟩
  beneficial_none := fun hnone => absurd hnone (Option.some_ne_none 3)

theorem raisedYear_within : WithinTables raisedYear where
  income := by decide +kernel
  beneficial := by
    intro month
    by_cases hmonth : raisedYear.beneficialMonth = some month
    · rw [beneficialBonus, if_pos hmonth, ← Option.some.inj hmonth]
      norm_num [bonusOf, raisedYear, maxsize]
    · rw [beneficialBonus, if_neg hmonth]
      norm_num [maxsize]

theorem sampleYear_raised : Raised sampleYear raisedYear where
  earned := by decide +kernel
  beneficial := by norm_num [beneficialOf, bonusOf, sampleYear, raisedYear]
  deduction := rfl

/-- From 4000 to 6000 the limit is crossed, but not closely. -/
theorem progressive_sample :
    (∃ tx ty, incomeTax 4000 = .ok tx ∧ incomeTax 6000 = .ok ty
      ∧ ((0 ≤ ty - tx ∧ ty - tx ≤ 45 / 100 * (6000 - 4000))
        ↔ ¬ ((4000 : ℚ) ≤ 5000 ∧ (5000 : ℚ) < 6000 ∧ (14 : ℚ) * 6000 < 15 * 4000)))
    ∧ ∃ s s' t t' b b', yearly sampleYear = .ok s ∧ yearly raisedYear = .ok s'
        ∧ incomeTax (totalTaxable sampleYear 12) = .ok t
        ∧ incomeTax (totalTaxable raisedYear 12) = .ok t'
        ∧ beneficialTax 24000 = .ok b ∧ beneficialTax 30000 = .ok b'
        ∧ totalNetPay s' - totalNetPay s
            = ((totalTaxable raisedYear 12 - t') - (totalTaxable sampleYear 12 - t))
              + ((30000 - b') - (24000 - b)) := by
  obtain ⟨hincome, s, s', t, t', b, b', hs, hs', ht, ht', hb, hb', hnet, -⟩ :=
    progressive_iff 4000 6000 (by norm_num) (by norm_num [maxsize]) sampleYear raisedYear
      sampleYear_within raisedYear_within sampleYear_raised
  have hbonus : beneficialOf sampleYear = 24000 := by norm_num [beneficialOf, bonusOf, sampleYear]
  have hbonus' : beneficialOf raisedYear = 30000 := by norm_num [beneficialOf, bonusOf, raisedYear]
  rw [hbonus] at hb hnet
  rw [hbonus'] at hb' hnet
  exact ⟨hincome, s, s', t, t', b, b', hs, hs', ht, ht', hb, hb', hnet⟩

/-- The one yuan above 5000 costs 150.03. -/
theorem not_progressive_cliff :
    ¬ ∀ x y, 0 ≤ x → x ≤ y → y ≤ maxsize → ∃ tx ty, incomeTax x = .ok tx ∧ incomeTax y = .ok ty
      ∧ 0 ≤ ty - tx ∧ ty - tx ≤ 45 / 100 * (y - x) := by
  intro hall
  obtain ⟨tx, ty, htx, hty, -, hle⟩ :=
    hall 5000 5001 (by norm_num) (by norm_num) (by norm_num [maxsize])
  obtain ⟨c, hc, hcy⟩ := incomeTax_of_lt (x := 5001) (by norm_num [taxLowest])
    (by norm_num [maxsize])
  have hzero := Except.ok.inj ((incomeTax_of_le (le_refl taxLowest)).symm.trans htx)
  have htax := Except.ok.inj (hcy.symm.trans hty)
  rw [charge_first (by norm_num), Option.some.injEq] at hc
  rw [← hzero, ← htax, ← hc] at hle
  norm_num at hle

end MyTests.Tax
