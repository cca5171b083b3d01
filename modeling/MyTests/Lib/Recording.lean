/-
MyTests/Lib/Recording.lean

A value that changes at increasing times, kept as a log: the value in force at
a time is that of the last entry not after it (`inForce`).  Entries are of any
type, with a key and a value.

Two ways of working with such a log.  A writer may leave out an entry whose
value is in force already (`note`), and leaves the same value in force.  A reader may search
by bisection: `Bracket` is what the bounds of the search say, and narrowing
them keeps it, whichever index between them is probed.
-/
import Mathlib

namespace MyTests.Lib

variable {E K V : Type*} [LinearOrder K] {key : E → K} {val : E → V}

/-! ### The value in force -/

/-- The value in force at `t`. -/
def inForce (key : E → K) (val : E → V) (log : List E) (t : K) : Option V :=
  (log.filter fun e => key e ≤ t).getLast?.map val

variable {log : List E} {e : E} {t : K}

theorem inForce_concat :
    inForce key val (log ++ [e]) t = if key e ≤ t then some (val e) else inForce key val log t := by
  unfold inForce
  rw [List.filter_append]
  by_cases hle : key e ≤ t <;> simp [hle]

/-- After all entries, the last one is in force. -/
theorem inForce_of_forall_le (hall : ∀ e ∈ log, key e ≤ t) :
    inForce key val log t = log.getLast?.map val := by
  unfold inForce
  rw [List.filter_eq_self.mpr fun e he => decide_eq_true (hall e he)]

/-- An entry is in force from its key to the next one. -/
theorem inForce_append_cons {before after : List E} (hle : key e ≤ t)
    (hafter : ∀ d ∈ after, t < key d) :
    inForce key val (before ++ e :: after) t = some (val e) := by
  have hnone : after.filter (fun d => key d ≤ t) = [] :=
    List.filter_eq_nil_iff.mpr fun d hd hdt => absurd (of_decide_eq_true hdt) (hafter d hd).not_ge
  unfold inForce
  rw [List.filter_append, List.filter_cons, if_pos (decide_eq_true hle), hnone]
  simp

theorem exists_inForce_of_mem (he : e ∈ log) (hle : key e ≤ t) :
    ∃ v, inForce key val log t = some v := by
  have hne : (log.filter fun e => key e ≤ t) ≠ [] :=
    List.ne_nil_of_mem (List.mem_filter.mpr ⟨he, decide_eq_true hle⟩)
  exact ⟨_, by rw [inForce, List.getLast?_eq_some_getLast hne, Option.map_some]⟩

/-- A value in force comes from an entry, which nothing overrides. -/
theorem exists_of_inForce_eq_some (hlog : log.Pairwise fun d e => key d < key e) {v : V}
    (hv : inForce key val log t = some v) :
    ∃ before e after, log = before ++ e :: after ∧ key e ≤ t ∧ (∀ d ∈ after, t < key d) ∧
      val e = v := by
  induction log using List.reverseRecOn with
  | nil => cases hv
  | append_singleton log e ih =>
      rw [inForce_concat] at hv
      by_cases hle : key e ≤ t
      · rw [if_pos hle] at hv
        exact ⟨log, e, [], rfl, hle, by simp, Option.some.inj hv⟩
      · rw [if_neg hle] at hv
        obtain ⟨before, d, after, rfl, hd, hafter, hval⟩ := ih (List.pairwise_append.mp hlog).1 hv
        refine ⟨before, d, after ++ [e], by simp, hd, fun c hc => ?_, hval⟩
        rcases List.mem_append.mp hc with hc | hc
        · exact hafter c hc
        · obtain rfl := List.mem_singleton.mp hc
          exact not_le.mp hle

/-! ### Leaving out what is in force -/

section Note

variable [DecidableEq V]

/-- Append `e`, unless its value is in force at the end. -/
def note (val : E → V) (log : List E) (e : E) : List E :=
  if log.getLast?.map val = some (val e) then log else log ++ [e]

theorem mem_note {d : E} (hd : d ∈ note val log e) : d ∈ log ∨ d = e := by
  unfold note at hd
  split at hd
  · exact Or.inl hd
  · simpa using hd

theorem getLast?_note : (note val log e).getLast?.map val = some (val e) := by
  unfold note
  split
  · assumption
  · simp

/-- What is left out is in force all the same. -/
theorem inForce_note (hlast : ∀ d ∈ log, key d < key e) :
    inForce key val (note val log e) t = inForce key val (log ++ [e]) t := by
  rw [inForce_concat]
  unfold note
  by_cases hin : log.getLast?.map val = some (val e)
  · rw [if_pos hin]
    by_cases hle : key e ≤ t
    · rw [if_pos hle, inForce_of_forall_le fun d hd => (hlast d hd).le.trans hle, hin]
    · rw [if_neg hle]
  · rw [if_neg hin, inForce_concat]

theorem pairwise_note (hlog : log.Pairwise fun d e => key d < key e)
    (hlast : ∀ d ∈ log, key d < key e) :
    (note val log e).Pairwise fun d e => key d < key e := by
  unfold note
  split
  · exact hlog
  · refine List.pairwise_append.mpr ⟨hlog, List.pairwise_singleton .., fun d hd c hc => ?_⟩
    obtain rfl := List.mem_singleton.mp hc
    exact hlast d hd

/-- Neighbours keep different values. -/
theorem isChain_note (hlog : log.IsChain fun d e => val d ≠ val e) :
    (note val log e).IsChain fun d e => val d ≠ val e := by
  unfold note
  by_cases hin : log.getLast?.map val = some (val e)
  · rwa [if_pos hin]
  · rw [if_neg hin]
    refine List.isChain_append.mpr ⟨hlog, List.isChain_singleton _, fun d hd c hc heq => ?_⟩
    obtain rfl : e = c := by simpa using hc
    exact hin (by rw [Option.mem_def.mp hd, Option.map_some, heq])

end Note

/-! ### Bisection -/

/-- Between `lo` and `hi` the search has not decided; `best` is the last value
below `lo`. -/
structure Bracket (key : E → K) (val : E → V) (log : List E) (t : K) (lo hi : ℤ)
    (best : Option V) : Prop where
  lo_nonneg : 0 ≤ lo
  lo_le : lo ≤ hi + 1
  hi_lt : hi < log.length
  below : ∀ i : ℕ, ∀ hi : i < log.length, (i : ℤ) < lo → key log[i] ≤ t
  above : ∀ i : ℕ, ∀ hlt : i < log.length, hi < i → t < key log[i]
  best_eq : best = (log.take lo.toNat).getLast?.map val

theorem Bracket.init : Bracket key val log t 0 (log.length - 1) none where
  lo_nonneg := le_rfl
  lo_le := by omega
  hi_lt := by omega
  below := fun i _ hi => by omega
  above := fun i hlt hi => by omega
  best_eq := by simp

variable {lo hi mid : ℤ} {best : Option V} (hb : Bracket key val log t lo hi best)

include hb

/-- The probe lies inside the log. -/
theorem Bracket.getElem?_mid (hlo : lo ≤ mid) (hhi : mid ≤ hi) :
    ∃ hm : mid.toNat < log.length, log[mid.toNat]? = some log[mid.toNat] := by
  have h0 := hb.lo_nonneg
  have hlt := hb.hi_lt
  have hm : mid.toNat < log.length := by omega
  exact ⟨hm, List.getElem?_eq_getElem hm⟩

/-- The probe is not after `t`: go right. -/
theorem Bracket.right (hlog : log.Pairwise fun d e => key d < key e) (hlo : lo ≤ mid)
    (hhi : mid ≤ hi) (he : log[mid.toNat]? = some e) (hle : key e ≤ t) :
    Bracket key val log t (mid + 1) hi (some (val e)) := by
  have h0 := hb.lo_nonneg
  obtain ⟨hm, heq⟩ := List.getElem?_eq_some_iff.mp he
  refine ⟨by omega, by omega, hb.hi_lt, fun i hi hlt => ?_, hb.above, ?_⟩
  · have hile : i ≤ mid.toNat := by omega
    rcases hile.eq_or_lt with rfl | hlt
    · rwa [heq]
    · exact ((List.pairwise_iff_getElem.mp hlog i mid.toNat hi hm hlt).le).trans (heq ▸ hle)
  · have htake : (mid + 1).toNat = mid.toNat + 1 := by omega
    rw [htake, List.take_add_one, he]
    simp

/-- The probe is after `t`: go left. -/
theorem Bracket.left (hlog : log.Pairwise fun d e => key d < key e) (hlo : lo ≤ mid)
    (hhi : mid ≤ hi) (he : log[mid.toNat]? = some e) (hlt : t < key e) :
    Bracket key val log t lo (mid - 1) best := by
  have h0 := hb.lo_nonneg
  have hlen := hb.hi_lt
  obtain ⟨hm, heq⟩ := List.getElem?_eq_some_iff.mp he
  refine ⟨h0, by omega, by omega, hb.below, fun i hi hgt => ?_, hb.best_eq⟩
  have hile : mid.toNat ≤ i := by omega
  rcases hile.eq_or_lt with rfl | hgt
  · rwa [heq]
  · exact (heq ▸ hlt).trans (List.pairwise_iff_getElem.mp hlog mid.toNat i hm hi hgt)

/-- Once the bounds have crossed, the value in force is found. -/
theorem Bracket.inForce_eq (hcross : ¬ lo ≤ hi) : best = inForce key val log t := by
  have h0 := hb.lo_nonneg
  have hle := hb.lo_le
  have hlen := hb.hi_lt
  have hsplit : log = log.take lo.toNat ++ log.drop lo.toNat := (List.take_append_drop ..).symm
  have hbelow : ∀ e ∈ log.take lo.toNat, key e ≤ t := by
    intro e he
    obtain ⟨i, hi, rfl⟩ := List.mem_take_iff_getElem.mp he
    exact hb.below i (by omega) (by omega)
  have habove : ∀ e ∈ log.drop lo.toNat, ¬ key e ≤ t := by
    intro e he
    obtain ⟨i, hi, rfl⟩ := List.mem_drop_iff_getElem.mp he
    exact (hb.above (lo.toNat + i) (by omega) (by omega)).not_ge
  rw [hb.best_eq, inForce]
  conv_rhs => rw [hsplit, List.filter_append]
  rw [List.filter_eq_self.mpr fun e he => decide_eq_true (hbelow e he),
    List.filter_eq_nil_iff.mpr fun e he h => habove e he (of_decide_eq_true h), List.append_nil]

end MyTests.Lib
