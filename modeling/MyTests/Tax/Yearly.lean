/-
MyTests/Tax/Yearly.lean

`src/tax.py`: the loop over the months, and the sums over the year.

A month adds its taxable income to that of the months before it and pays the tax on
the sum, less what these have paid.  The beneficial bonus is taxed apart, every other
bonus is income of its month.  `Kept` is what the loop has after `k` months: each
month has been split into net pay and tax without a remainder, and the taxes add up to
that on the income so far and that on the bonus.

An input carries what `get_inputs` sees to: bonuses fall in the year, and the
beneficial month is one of theirs, if there are any.
-/
import MyTests.Tax.IncomeTax

namespace MyTests.Tax

open MyTests.Lib

/-! ### The loop -/

/-- What `get_inputs` returns.  `bonus` is a dictionary, the others are asked for every month. -/
structure Inputs where
  incomePerMonth : ℚ
  housingInsurance : ℕ → ℚ
  totalDeduction : ℚ
  bonus : ℕ → Option ℚ
  beneficialMonth : Option ℕ
  cashReward : ℕ → ℚ
  bonus_month : ∀ month amount, bonus month = some amount → month ∈ Finset.Icc 1 12
  beneficial_mem : ∀ month, beneficialMonth = some month → ∃ amount, bonus month = some amount
  beneficial_none : beneficialMonth = none → ∀ month, bonus month = none

/-- The variables of the loop; the two dictionaries count as 0 where they have no entry. -/
structure Year where
  totalIncome : ℚ
  totalTax : ℚ
  netMonthIncome : ℕ → ℚ
  monthTax : ℕ → ℚ

/-- Before the first month. -/
def Year.start : Year := ⟨0, 0, fun _ => 0, fun _ => 0⟩

/-- The `if month in bonus`: the income of the month, the net beneficial bonus and the tax on it. -/
def splitBonus (i : Inputs) (month : ℕ) (incomeThisMonth : ℚ) : Except String (ℚ × ℚ × ℚ) :=
  match i.bonus month with
  | none => .ok (incomeThisMonth, 0, 0)
  | some bonus =>
      if i.beneficialMonth = some month then do
        let beneficialBonusTax ← beneficialTax bonus
        return (incomeThisMonth, bonus - beneficialBonusTax, beneficialBonusTax)
      else .ok (incomeThisMonth + bonus, 0, 0)

/-- The body of the loop. -/
def monthStep (i : Inputs) (s : Year) (month : ℕ) : Except String Year := do
  let incomeThisMonth := i.incomePerMonth + i.cashReward month
    - i.housingInsurance (month - 1) - i.totalDeduction
  let (incomeThisMonth, netBeneficialBonus, beneficialBonusTax)
    ← splitBonus i month incomeThisMonth
  let totalIncome := s.totalIncome + incomeThisMonth
  let incomeTaxThisMonth ← incomeTax totalIncome
  let monthTax := incomeTaxThisMonth - s.totalTax
  let netMonthIncome := incomeThisMonth - monthTax + netBeneficialBonus + i.totalDeduction
  return {
    totalIncome := totalIncome
    totalTax := incomeTaxThisMonth
    netMonthIncome := Function.update s.netMonthIncome month netMonthIncome
    monthTax := Function.update s.monthTax month (monthTax + beneficialBonusTax) }

/-- The first `k` rounds of `for month in range(1, 13)`. -/
def months (i : Inputs) : ℕ → Except String Year
  | 0 => .ok Year.start
  | k + 1 => do monthStep i (← months i k) (k + 1)

def yearly (i : Inputs) : Except String Year := months i 12

/-- `total_net_pay` of the last loop. -/
def totalNetPay (s : Year) : ℚ := ∑ month ∈ Finset.Icc 1 12, s.netMonthIncome month

/-- `total_tax` of the last loop. -/
def totalTax (s : Year) : ℚ := ∑ month ∈ Finset.Icc 1 12, s.monthTax month

/-! ### The money -/

/-- The bonus of a month, 0 without one. -/
def bonusOf (i : Inputs) (month : ℕ) : ℚ := (i.bonus month).getD 0

/-- The bonus that is taxed apart, 0 in the other months. -/
def beneficialBonus (i : Inputs) (month : ℕ) : ℚ :=
  if i.beneficialMonth = some month then bonusOf i month else 0

/-- The tax on the beneficial bonus, if the month has it. -/
def beneficialTaxOf (i : Inputs) (month : ℕ) : Except String ℚ :=
  if i.beneficialMonth = some month then beneficialTax (bonusOf i month) else .ok 0

/-- What is paid in a month before tax, without the bonus. -/
def gross (i : Inputs) (month : ℕ) : ℚ :=
  i.incomePerMonth + i.cashReward month - i.housingInsurance (month - 1)

/-- What of a month is taxed as income. -/
def taxable (i : Inputs) (month : ℕ) : ℚ :=
  gross i month - i.totalDeduction + (bonusOf i month - beneficialBonus i month)

/-- The taxable income of the first `k` months. -/
def totalTaxable (i : Inputs) (k : ℕ) : ℚ := ∑ month ∈ Finset.Icc 1 k, taxable i month

/-- No amount of the year is behind the last tier of its table. -/
structure WithinTables (i : Inputs) : Prop where
  income : ∀ k ≤ 12, totalTaxable i k ≤ maxsize
  beneficial : ∀ month, beneficialBonus i month / 12 ≤ maxsize

variable {i : Inputs} {s : Year} {k month : ℕ}

theorem totalTaxable_succ (i : Inputs) (k : ℕ) :
    totalTaxable i (k + 1) = totalTaxable i k + taxable i (k + 1) :=
  Finset.sum_Icc_succ_top (Nat.le_add_left 1 k) _

/-- Only a month with a bonus is the beneficial one. -/
theorem splitBonus_eq (i : Inputs) (month : ℕ) (incomeThisMonth : ℚ) :
    splitBonus i month incomeThisMonth = (beneficialTaxOf i month).map fun tax =>
      (incomeThisMonth + (bonusOf i month - beneficialBonus i month),
        beneficialBonus i month - tax, tax) := by
  cases hbonus : i.bonus month with
  | none =>
      have hnot : i.beneficialMonth ≠ some month := by
        intro hmonth
        obtain ⟨amount, hsome⟩ := i.beneficial_mem month hmonth
        exact absurd (hbonus.symm.trans hsome) (Option.some_ne_none amount).symm
      simp [splitBonus, beneficialTaxOf, beneficialBonus, bonusOf, hbonus, hnot, Except.map]
  | some bonus =>
      by_cases hmonth : i.beneficialMonth = some month
      · simp only [splitBonus, beneficialTaxOf, beneficialBonus, bonusOf, hbonus, if_pos hmonth,
          Option.getD_some, sub_self, add_zero]
        cases beneficialTax bonus <;> rfl
      · simp [splitBonus, beneficialTaxOf, beneficialBonus, bonusOf, hbonus, hmonth, Except.map]

/-- **One month**, when its two taxes are defined. -/
theorem monthStep_eq {t tb : ℚ} (htb : beneficialTaxOf i month = .ok tb)
    (ht : incomeTax (s.totalIncome + taxable i month) = .ok t) :
    monthStep i s month = .ok {
      totalIncome := s.totalIncome + taxable i month
      totalTax := t
      netMonthIncome := Function.update s.netMonthIncome month
        (gross i month + bonusOf i month - (t - s.totalTax + tb))
      monthTax := Function.update s.monthTax month (t - s.totalTax + tb) } := by
  have hsplit : splitBonus i month (i.incomePerMonth + i.cashReward month
      - i.housingInsurance (month - 1) - i.totalDeduction)
        = .ok (taxable i month, beneficialBonus i month - tb, tb) := by
    rw [splitBonus_eq, htb]
    rfl
  have hnet : taxable i month - (t - s.totalTax) + (beneficialBonus i month - tb)
      + i.totalDeduction = gross i month + bonusOf i month - (t - s.totalTax + tb) := by
    rw [taxable]
    ring
  rw [monthStep, hsplit]
  show (incomeTax (s.totalIncome + taxable i month) >>= _) = _
  rw [ht, ← hnet]
  rfl

/-! ### The books of the year -/

/-- What the loop has after `k` months; `tb` are the taxes on the beneficial bonus. -/
structure Kept (i : Inputs) (tb : ℕ → ℚ) (k : ℕ) (s : Year) : Prop where
  totalIncome : s.totalIncome = totalTaxable i k
  totalTax : incomeTax (totalTaxable i k) = .ok s.totalTax
  split : ∀ month ∈ Finset.Icc 1 k,
    s.netMonthIncome month + s.monthTax month = gross i month + bonusOf i month
  taxes : ∑ month ∈ Finset.Icc 1 k, s.monthTax month
    = s.totalTax + ∑ month ∈ Finset.Icc 1 k, tb month

theorem Kept.start (i : Inputs) (tb : ℕ → ℚ) : Kept i tb 0 Year.start where
  totalIncome := rfl
  totalTax := incomeTax_of_le (by norm_num [totalTaxable, taxLowest])
  split := by
    intro month hmonth
    exact absurd hmonth (by simp)
  taxes := by simp [Year.start]

/-- **One month keeps the books.** -/
theorem Kept.step {tb : ℕ → ℚ} (h : Kept i tb k s) {t : ℚ}
    (htb : beneficialTaxOf i (k + 1) = .ok (tb (k + 1)))
    (ht : incomeTax (totalTaxable i (k + 1)) = .ok t) :
    ∃ s', monthStep i s (k + 1) = .ok s' ∧ Kept i tb (k + 1) s' := by
  have htotal : s.totalIncome + taxable i (k + 1) = totalTaxable i (k + 1) := by
    rw [h.totalIncome, totalTaxable_succ]
  refine ⟨_, monthStep_eq htb (by rw [htotal]; exact ht), htotal, ht, ?_, ?_⟩
  · intro month hmonth
    by_cases hnow : month = k + 1
    · subst hnow
      simp only [Function.update_self]
      ring
    · have hbefore : month ∈ Finset.Icc 1 k := by
        rw [Finset.mem_Icc] at hmonth ⊢
        omega
      simp only [Function.update_of_ne hnow]
      exact h.split month hbefore
  · have hbefore : ∑ month ∈ Finset.Icc 1 k,
        Function.update s.monthTax (k + 1) (t - s.totalTax + tb (k + 1)) month
          = ∑ month ∈ Finset.Icc 1 k, s.monthTax month := by
      apply Finset.sum_congr rfl
      intro month hmonth
      have hle := (Finset.mem_Icc.mp hmonth).2
      exact Function.update_of_ne (by omega) _ _
    simp only [Finset.sum_Icc_succ_top (Nat.le_add_left 1 k), hbefore, h.taxes,
      Function.update_self]
    ring

/-- **The books are kept in every month.** -/
theorem Kept.months (h : WithinTables i) {tb : ℕ → ℚ}
    (htb : ∀ month, beneficialTaxOf i month = .ok (tb month)) :
    ∀ k ≤ 12, ∃ s, months i k = .ok s ∧ Kept i tb k s := by
  intro k
  induction k with
  | zero => exact fun _ => ⟨Year.start, rfl, Kept.start i tb⟩
  | succ k ih =>
      intro hk
      obtain ⟨s, hs, hkept⟩ := ih (by omega)
      obtain ⟨t, ht⟩ := exists_incomeTax (h.income (k + 1) hk)
      obtain ⟨s', hs', hkept'⟩ := hkept.step (htb (k + 1)) ht
      refine ⟨s', ?_, hkept'⟩
      rw [Tax.months, hs]
      exact hs'

/-- The tax on the beneficial bonus, by months. -/
theorem exists_beneficialTaxOf (h : WithinTables i) :
    ∃ tb : ℕ → ℚ, ∀ month, beneficialTaxOf i month = .ok (tb month) := by
  have hone : ∀ month, ∃ t, beneficialTaxOf i month = .ok t := by
    intro month
    by_cases hmonth : i.beneficialMonth = some month
    · have hwithin := h.beneficial month
      rw [beneficialBonus, if_pos hmonth] at hwithin
      obtain ⟨t, ht⟩ := exists_beneficialTax hwithin
      exact ⟨t, by rw [beneficialTaxOf, if_pos hmonth, ht]⟩
    · exact ⟨0, if_neg hmonth⟩
  exact Classical.skolem.mp hone

/-- The tax on the beneficial bonus of the year. -/
def beneficialYearTax (i : Inputs) : Except String ℚ :=
  match i.beneficialMonth with
  | none => .ok 0
  | some month => beneficialTax (bonusOf i month)

/-- The beneficial bonus of the year, 0 if there is none. -/
def beneficialOf (i : Inputs) : ℚ :=
  match i.beneficialMonth with
  | none => 0
  | some month => bonusOf i month

/-- Without a bonus there is no tax on it. -/
theorem beneficialYearTax_eq_beneficialTax (i : Inputs) :
    beneficialYearTax i = beneficialTax (beneficialOf i) := by
  cases hmonth : i.beneficialMonth with
  | none =>
      simp only [beneficialYearTax, beneficialOf, hmonth]
      decide +kernel
  | some month => simp only [beneficialYearTax, beneficialOf, hmonth]

/-- What counts in the beneficial month alone comes to its value there. -/
theorem sum_beneficial (i : Inputs) {f : ℕ → ℚ} (hf : ∀ month, i.beneficialMonth ≠ some month →
    f month = 0) : ∑ month ∈ Finset.Icc 1 12, f month = i.beneficialMonth.elim 0 f := by
  cases hmonth : i.beneficialMonth with
  | none =>
      refine Finset.sum_eq_zero fun month _ => hf month ?_
      rw [hmonth]
      exact (Option.some_ne_none month).symm
  | some month =>
      obtain ⟨amount, hamount⟩ := i.beneficial_mem month hmonth
      apply Finset.sum_eq_single_of_mem month (i.bonus_month month amount hamount)
      intro other _ hne
      apply hf
      rw [hmonth]
      exact fun heq => hne (Option.some.inj heq).symm

theorem sum_beneficialBonus (i : Inputs) :
    ∑ month ∈ Finset.Icc 1 12, beneficialBonus i month = beneficialOf i := by
  have hother : ∀ month, i.beneficialMonth ≠ some month → beneficialBonus i month = 0 :=
    fun _ hnot => if_neg hnot
  rw [sum_beneficial i hother]
  unfold beneficialOf
  cases hmonth : i.beneficialMonth with
  | none => rfl
  | some month => exact if_pos hmonth

/-- At most one month has it. -/
theorem beneficialYearTax_eq {tb : ℕ → ℚ}
    (htb : ∀ month, beneficialTaxOf i month = .ok (tb month)) :
    beneficialYearTax i = .ok (∑ month ∈ Finset.Icc 1 12, tb month) := by
  have hother : ∀ month, i.beneficialMonth ≠ some month → tb month = 0 := by
    intro month hnot
    have htax := htb month
    rw [beneficialTaxOf, if_neg hnot] at htax
    exact (Except.ok.inj htax).symm
  rw [sum_beneficial i hother]
  cases hmonth : i.beneficialMonth with
  | none => simp only [beneficialYearTax, hmonth, Option.elim_none]
  | some month =>
      have htax := htb month
      rw [beneficialTaxOf, if_pos hmonth] at htax
      simp only [beneficialYearTax, hmonth, htax, Option.elim_some]

/-- What the whole loop comes to. -/
theorem yearly_eq (h : WithinTables i) : ∃ s t tb, yearly i = .ok s
    ∧ incomeTax (totalTaxable i 12) = .ok t ∧ beneficialYearTax i = .ok tb
    ∧ totalNetPay s + totalTax s = ∑ month ∈ Finset.Icc 1 12, gross i month
        + ∑ month ∈ Finset.Icc 1 12, bonusOf i month
    ∧ totalTax s = t + tb := by
  obtain ⟨tb, htb⟩ := exists_beneficialTaxOf h
  obtain ⟨s, hs, hkept⟩ := Kept.months h htb 12 le_rfl
  refine ⟨s, s.totalTax, _, hs, hkept.totalTax, beneficialYearTax_eq htb, ?_, hkept.taxes⟩
  rw [totalNetPay, totalTax, ← Finset.sum_add_distrib, ← Finset.sum_add_distrib]
  exact Finset.sum_congr rfl hkept.split

/-- **The year conserves the money.**  What is paid out and what is taxed are together what was
earned and the bonuses; what is taxed is the tax on the taxable income of the year and that on
the beneficial bonus. -/
theorem yearly_conserves (i : Inputs) (h : WithinTables i) : ∃ s t tb, yearly i = .ok s
    ∧ incomeTax (totalTaxable i 12) = .ok t ∧ beneficialYearTax i = .ok tb
    ∧ totalNetPay s + totalTax s
        = ∑ month ∈ Finset.Icc 1 12,
            (i.incomePerMonth + i.cashReward month - i.housingInsurance (month - 1))
          + ∑ month ∈ Finset.Icc 1 12, bonusOf i month
    ∧ totalTax s = t + tb :=
  yearly_eq h

/-- A year with bonuses in March and December, the first of them beneficial. -/
def sampleYear : Inputs where
  incomePerMonth := 20000
  housingInsurance := fun _ => 3000
  totalDeduction := 6000
  bonus := fun month => if month = 3 then some 24000 else if month = 12 then some 9000 else none
  beneficialMonth := some 3
  cashReward := fun month => if month = 6 then 500 else 0
  bonus_month := by
    intro month amount hbonus
    split_ifs at hbonus with h3 h12
    · rw [h3]; decide
    · rw [h12]; decide
  beneficial_mem := by
    intro month hmonth
    exact ⟨24000, if_pos (Option.some.inj hmonth).symm⟩
  beneficial_none := fun hnone => absurd hnone (Option.some_ne_none 3)

theorem sampleYear_within : WithinTables sampleYear where
  income := by decide +kernel
  beneficial := by
    intro month
    by_cases hmonth : sampleYear.beneficialMonth = some month
    · rw [beneficialBonus, if_pos hmonth, ← Option.some.inj hmonth]
      norm_num [bonusOf, sampleYear, maxsize]
    · rw [beneficialBonus, if_neg hmonth]
      norm_num [maxsize]

theorem yearly_conserves_sample : ∃ s t tb, yearly sampleYear = .ok s
    ∧ incomeTax (totalTaxable sampleYear 12) = .ok t ∧ beneficialYearTax sampleYear = .ok tb
    ∧ totalNetPay s + totalTax s
        = ∑ month ∈ Finset.Icc 1 12, (sampleYear.incomePerMonth + sampleYear.cashReward month
            - sampleYear.housingInsurance (month - 1))
          + ∑ month ∈ Finset.Icc 1 12, bonusOf sampleYear month
    ∧ totalTax s = t + tb :=
  yearly_conserves sampleYear sampleYear_within

end MyTests.Tax
