/-
MyTests/Lib/Ranking.lean

Sorting by counting.  The items are the numbers below `n`, each with a key.

The stable order lists them by key, and items of one key by number; it is what a
stable sort makes of the identity (`stableOrder`).  An item's place in it is the
number of items before it (`rank_stableOrder`), so whoever writes every item at
its rank has sorted (`eq_stableOrder_of_rank`).

For keys that are numbers, the rank is the number of smaller keys plus the number
of earlier items of the same key.  A counting sort keeps one cursor for each key
at just that sum: `Placing` is its state in the middle of the placement, and
`Placing.place` the step.  `bumps` and `tab` are the arrays of counters it is
made from.
-/
import Mathlib

namespace MyTests.Lib

/-! ### The stable order -/

section Stable

variable {κ : Type*} [LinearOrder κ] (key : ℕ → κ)

/-- `i` comes before `j`. -/
def Before (i j : ℕ) : Prop := key i < key j ∨ key i = key j ∧ i < j

instance (i j : ℕ) : Decidable (Before key i j) := by
  unfold Before
  infer_instance

/-- A stable sort of the identity. -/
def stableOrder (n : ℕ) : List ℕ := (List.range n).mergeSort fun i j => decide (key i ≤ key j)

variable {n : ℕ}

variable {key} in
theorem Before.asymm {i j : ℕ} (h : Before key i j) : ¬ Before key j i := by
  rintro (hlt | ⟨heq, hlt⟩) <;> rcases h with h | ⟨h, h'⟩
  · exact lt_asymm h hlt
  · exact absurd h hlt.ne'
  · exact absurd heq h.ne'
  · omega

theorem stableOrder_perm (n : ℕ) : (stableOrder key n).Perm (List.range n) := List.mergeSort_perm _ _

theorem pairwise_stableOrder (n : ℕ) : (stableOrder key n).Pairwise (Before key) := by
  have htrans : ∀ a b c : ℕ, decide (key a ≤ key b) = true → decide (key b ≤ key c) = true →
      decide (key a ≤ key c) = true := fun a b c hab hbc =>
    decide_eq_true ((of_decide_eq_true hab).trans (of_decide_eq_true hbc))
  have htotal : ∀ a b : ℕ, (decide (key a ≤ key b) || decide (key b ≤ key a)) = true := by
    intro a b
    rcases le_total (key a) (key b) with h | h <;> simp [h]
  have hle := List.pairwise_mergeSort htrans htotal (List.range n)
  -- the items of one key keep the order they have in the range
  have hties : ∀ c, (stableOrder key n).filter (fun i => decide (key i = c))
      = (List.range n).filter fun i => decide (key i = c) := by
    intro c
    have hsorted : ((List.range n).filter fun i => decide (key i = c)).Pairwise
        fun i j => decide (key i ≤ key j) = true :=
      List.pairwise_of_forall_mem_list fun a ha b hb => by
        have ha' := of_decide_eq_true (List.mem_filter.mp ha).2
        have hb' := of_decide_eq_true (List.mem_filter.mp hb).2
        simp [ha', hb']
    have hsub := (List.sublist_mergeSort htrans htotal hsorted List.filter_sublist).filter
      fun i => decide (key i = c)
    simp only [List.filter_filter, Bool.and_self] at hsub
    exact (hsub.eq_of_length ((stableOrder_perm key n).filter _).length_eq.symm).symm
  refine List.pairwise_of_forall_sublist fun {a b} hab => ?_
  rcases (of_decide_eq_true (hle.forall_sublist hab)).lt_or_eq with hlt | heq
  · exact .inl hlt
  · have hfilter := hab.filter fun i => decide (key i = key b)
    rw [hties, List.filter_cons_of_pos (by simp [heq]), List.filter_cons_of_pos (by simp)] at hfilter
    exact .inr ⟨heq, (List.pairwise_lt_range.sublist List.filter_sublist).forall_sublist hfilter⟩

/-- **There is one stable order.** -/
theorem eq_stableOrder {out : List ℕ} (hperm : out.Perm (List.range n))
    (hpair : out.Pairwise (Before key)) : out = stableOrder key n :=
  List.Perm.eq_of_pairwise (fun _ _ _ _ hab hba => absurd hba hab.asymm) hpair
    (pairwise_stableOrder key n) (hperm.trans (stableOrder_perm key n).symm)

/-- The number of items before `i`. -/
def rank (n i : ℕ) : ℕ := (List.range n).countP fun j => decide (Before key j i)

/-- **An item's place is its rank.** -/
theorem rank_stableOrder {p : ℕ} (hp : p < (stableOrder key n).length) :
    rank key n (stableOrder key n)[p] = p := by
  have hsplit : stableOrder key n = (stableOrder key n).take p
      ++ (stableOrder key n)[p] :: (stableOrder key n).drop (p + 1) := by
    rw [List.cons_getElem_drop_succ, List.take_append_drop]
  have hpair := pairwise_stableOrder key n
  rw [hsplit, List.pairwise_append, List.pairwise_cons] at hpair
  obtain ⟨-, ⟨hafter, -⟩, hbefore⟩ := hpair
  rw [rank, ← (stableOrder_perm key n).countP_eq]
  generalize (stableOrder key n)[p] = i at *
  rw [hsplit, List.countP_append, List.countP_cons_of_neg, List.countP_eq_length.mpr, List.countP_eq_zero.mpr,
    Nat.add_zero, List.length_take, Nat.min_eq_left hp.le]
  · exact fun j hj => by simpa using (hafter j hj).asymm
  · exact fun j hj => by simpa using hbefore j hj _ List.mem_cons_self
  · simpa using fun h : Before key _ _ => h.asymm h

theorem exists_rank {i : ℕ} (hi : i < n) :
    ∃ hp : rank key n i < (stableOrder key n).length, (stableOrder key n)[rank key n i] = i := by
  have hmem : i ∈ stableOrder key n := (stableOrder_perm key n).mem_iff.mpr (List.mem_range.mpr hi)
  obtain ⟨p, hp, rfl⟩ := List.getElem_of_mem hmem
  have hrank := rank_stableOrder key hp
  exact ⟨hrank.symm ▸ hp, by simp only [hrank]⟩

theorem length_stableOrder (n : ℕ) : (stableOrder key n).length = n := by
  rw [(stableOrder_perm key n).length_eq, List.length_range]

theorem rank_lt {i : ℕ} (hi : i < n) : rank key n i < n := by
  obtain ⟨hp, -⟩ := exists_rank key hi
  rwa [length_stableOrder] at hp

theorem eq_of_rank_eq {i j : ℕ} (hi : i < n) (hj : j < n) (h : rank key n i = rank key n j) : i = j := by
  obtain ⟨hpi, hi'⟩ := exists_rank key hi
  obtain ⟨hpj, hj'⟩ := exists_rank key hj
  calc i = (stableOrder key n)[rank key n i] := hi'.symm
    _ = (stableOrder key n)[rank key n j] := by simp only [h]
    _ = j := hj'

/-- **Every item at its rank is the stable order.** -/
theorem eq_stableOrder_of_rank {out : List ℕ} (hlen : out.length = n)
    (h : ∀ i < n, out[rank key n i]? = some i) : out = stableOrder key n := by
  refine List.ext_getElem? fun p => ?_
  rcases Nat.lt_or_ge p n with hp | hp
  · rw [← length_stableOrder key n] at hp
    have hmem : (stableOrder key n)[p] ∈ List.range n :=
      (stableOrder_perm key n).mem_iff.mp (List.getElem_mem hp)
    have hplace := h _ (List.mem_range.mp hmem)
    rw [rank_stableOrder key hp] at hplace
    rw [hplace, List.getElem?_eq_getElem hp]
  · rw [List.getElem?_eq_none (hlen.trans_le hp), List.getElem?_eq_none ((length_stableOrder key n).trans_le hp)]

end Stable

/-! ### Arrays of counters -/

/-- The array of `f 0`, `f 1`, ... -/
def tab {α : Type*} (m : ℕ) (f : ℕ → α) : List α := (List.range m).map f

section Tab

variable {α : Type*} {m b : ℕ} {f g : ℕ → α}

@[simp] theorem length_tab (m : ℕ) (f : ℕ → α) : (tab m f).length = m := by simp [tab]

theorem getElem?_tab (hb : b < m) : (tab m f)[b]? = some (f b) := by
  rw [tab, List.getElem?_map, List.getElem?_range hb, Option.map_some]

theorem tab_congr (h : ∀ b < m, f b = g b) : tab m f = tab m g :=
  List.map_congr_left fun b hb => h b (List.mem_range.mp hb)

theorem set_tab (b : ℕ) (x : α) : (tab m f).set b x = tab m (Function.update f b x) := by
  refine List.ext_getElem? fun c => ?_
  rw [List.getElem?_set, length_tab]
  rcases Nat.lt_or_ge c m with hc | hc
  · rw [getElem?_tab hc, getElem?_tab hc]
    rcases eq_or_ne b c with rfl | hbc
    · rw [if_pos rfl, if_pos hc, Function.update_self]
    · rw [if_neg hbc, Function.update_of_ne hbc.symm]
  · have hnone : ∀ h : ℕ → α, (tab m h)[c]? = none := fun h =>
      List.getElem?_eq_none (by rwa [length_tab])
    rw [hnone, hnone]
    split_ifs <;> first | rfl | omega

theorem map_eq_tab {β : Type*} [Inhabited β] (f : β → α) (l : List β) :
    l.map f = tab l.length fun i => f l[i]! := by
  refine List.ext_getElem (by simp) fun i hi _ => ?_
  rw [List.length_map] at hi
  simp only [tab, List.getElem_map, List.getElem_range, getElem!_pos l i hi]

theorem replicate_eq_tab (m : ℕ) (x : α) : List.replicate m x = tab m fun _ => x := by
  rw [tab, List.map_const', List.length_range]

end Tab

/-! ### Ranks by counting -/

section Counts

variable (key : ℕ → ℕ)

/-- The items with a key below `b`. -/
def below (n b : ℕ) : ℕ := (List.range n).countP fun i => decide (key i < b)

/-- The items among the first `i` with the key `b`. -/
def seen (i b : ℕ) : ℕ := (List.range i).countP fun j => decide (key j = b)

@[simp] theorem below_zero (n : ℕ) : below key n 0 = 0 := by simp [below]

@[simp] theorem seen_zero (b : ℕ) : seen key 0 b = 0 := rfl

theorem seen_succ (i b : ℕ) : seen key (i + 1) b = seen key i b + if key i = b then 1 else 0 := by
  rw [seen, List.range_succ, List.countP_append, List.countP_singleton]
  simp only [decide_eq_true_eq]
  rfl

theorem below_succ (n b : ℕ) : below key n (b + 1) = below key n b + seen key n b := by
  have hstep : ∀ n b, below key (n + 1) b = below key n b + if key n < b then 1 else 0 := by
    intro n b
    rw [below, List.range_succ, List.countP_append, List.countP_singleton]
    simp only [decide_eq_true_eq]
    rfl
  induction n with
  | zero => rfl
  | succ n ih =>
      rw [hstep, hstep, seen_succ, ih]
      split_ifs <;> omega

theorem seen_eq_count (n b : ℕ) : seen key n b = (tab n key).count b := by
  rw [tab, List.count, List.countP_map]
  rfl

/-- **A rank is two counts.** -/
theorem rank_eq {n i : ℕ} (hi : i < n) : rank key n i = below key n (key i) + seen key i (key i) := by
  -- the two ways of being before `i` exclude each other
  have hone : ∀ j, (if Before key j i then 1 else 0)
      = (if key j < key i then 1 else 0) + if key j = key i ∧ j < i then 1 else 0 := by
    intro j
    rcases lt_trichotomy (key j) (key i) with h | h | h
    · rw [if_pos (.inl h), if_pos h, if_neg fun h' => h.ne h'.1]
    · simp [Before, h]
    · rw [if_neg fun h' => h'.elim h.asymm fun h' => h.ne' h'.1, if_neg h.asymm,
        if_neg fun h' => h.ne' h'.1]
  have hsum : ∀ n, rank key n i = below key n (key i) + seen key (min n i) (key i) := by
    intro n
    induction n with
    | zero => rfl
    | succ n ih =>
        rw [rank, below, List.range_succ, List.countP_append, List.countP_append, ← rank, ← below, ih,
          List.countP_singleton, List.countP_singleton]
        simp only [decide_eq_true_eq, hone]
        rcases Nat.lt_or_ge n i with hn | hn
        · rw [Nat.min_eq_left hn.le, Nat.min_eq_left (Nat.succ_le_of_lt hn), seen_succ]
          simp only [hn, and_true]
          omega
        · rw [Nat.min_eq_right hn, Nat.min_eq_right (hn.trans n.le_succ)]
          simp only [hn.not_gt, and_false, if_false]
          omega
  rw [hsum n, Nat.min_eq_right hi.le]

end Counts

/-! ### Histograms -/

/-- `++cnt[b]`, with the access checked. -/
def bump (cnt : List ℕ) (b : ℕ) : Option (List ℕ) := cnt[b]?.map fun c => cnt.set b (c + 1)

/-- **A histogram.** -/
theorem foldlM_bump {m : ℕ} (f : ℕ → ℕ) {ks : List ℕ} (h : ∀ b ∈ ks, b < m) :
    ks.foldlM bump (tab m f) = some (tab m fun b => f b + ks.count b) := by
  induction ks generalizing f with
  | nil => rfl
  | cons k ks ih =>
      obtain ⟨hk, hks⟩ := List.forall_mem_cons.mp h
      rw [List.foldlM_cons, bump, getElem?_tab hk, Option.map_some, set_tab, Option.bind_eq_bind,
        Option.bind_some, ih _ hks]
      refine congrArg some (tab_congr fun b _ => ?_)
      rw [List.count_cons]
      rcases eq_or_ne b k with rfl | hb
      · rw [Function.update_self, beq_self_eq_true, if_pos rfl]
        omega
      · rw [Function.update_of_ne hb, if_neg (by simpa using hb.symm), Nat.add_zero]

/-- A loop that counts the keys of its elements. -/
theorem foldlM_bump_of {α : Type*} {m : ℕ} (f : ℕ → ℕ) {step : List ℕ → α → Option (List ℕ)}
    {key : α → ℕ} {l : List α} (h : ∀ v ∈ l, ∀ cnt, step cnt v = bump cnt (key v))
    (hkey : ∀ v ∈ l, key v < m) :
    l.foldlM step (tab m f) = some (tab m fun b => f b + (l.map key).count b) := by
  have hstep : ∀ cnt, l.foldlM step cnt = (l.map key).foldlM bump cnt := by
    clear hkey
    induction l with
    | nil => exact fun _ => rfl
    | cons v l ih =>
        intro cnt
        obtain ⟨hv, hl⟩ := List.forall_mem_cons.mp h
        rw [List.foldlM_cons, List.map_cons, List.foldlM_cons, hv]
        exact congrArg _ (funext (ih hl))
  rw [hstep, foldlM_bump f]
  intro b hb
  obtain ⟨v, hv, rfl⟩ := List.mem_map.mp hb
  exact hkey v hv

/-! ### The placement -/

/-- `idx[cnt[b]++] = i`, with both accesses checked. -/
def scatter (cnt idx : List ℕ) (b i : ℕ) : Option (List ℕ × List ℕ) := do
  let p ← cnt[b]?
  if p < idx.length then some (cnt.set b (p + 1), idx.set p i) else none

/-- The first `i` items are placed: every cursor stands after the items of smaller
keys and the items of its own key that are placed. -/
structure Placing (key : ℕ → ℕ) (n m i : ℕ) (cnt idx : List ℕ) : Prop where
  cursors : cnt = tab m fun b => below key n b + seen key i b
  length : idx.length = n
  placed : ∀ j < i, idx[rank key n j]? = some j

namespace Placing

variable {key : ℕ → ℕ} {n m i : ℕ} {cnt idx : List ℕ}

theorem start (hlen : idx.length = n) : Placing key n m 0 (tab m (below key n)) idx :=
  ⟨tab_congr fun b _ => by rw [seen_zero, Nat.add_zero], hlen, fun _ hj => absurd hj (Nat.not_lt_zero _)⟩

/-- **An item goes to its rank.** -/
theorem place (h : Placing key n m i cnt idx) (hi : i < n) (hb : key i < m) :
    ∃ cnt' idx', scatter cnt idx (key i) i = some (cnt', idx') ∧ Placing key n m (i + 1) cnt' idx' := by
  have hcursor : cnt[key i]? = some (rank key n i) := by
    rw [h.cursors, getElem?_tab hb, rank_eq key hi]
  have hlt : rank key n i < idx.length := h.length.symm ▸ rank_lt key hi
  refine ⟨cnt.set (key i) (rank key n i + 1), idx.set (rank key n i) i, ?_, ?_, ?_, ?_⟩
  · rw [scatter, hcursor, Option.bind_eq_bind, Option.bind_some, if_pos hlt]
  · rw [h.cursors, set_tab]
    refine tab_congr fun b _ => ?_
    rw [seen_succ]
    rcases eq_or_ne b (key i) with rfl | hne
    · rw [Function.update_self, if_pos rfl, rank_eq key hi, Nat.add_assoc]
    · rw [Function.update_of_ne hne, if_neg hne.symm, Nat.add_zero]
  · rw [List.length_set, h.length]
  · intro j hj
    rcases Nat.lt_succ_iff_lt_or_eq.mp hj with hj | rfl
    · rw [List.getElem?_set_ne fun hr => hj.ne' (eq_of_rank_eq key hi (hj.trans hi) hr)]
      exact h.placed j hj
    · rw [List.getElem?_set_self hlt]

/-- **All items placed are the stable order.** -/
theorem done (h : Placing key n m n cnt idx) : idx = stableOrder key n :=
  eq_stableOrder_of_rank key h.length h.placed

end Placing

end MyTests.Lib
