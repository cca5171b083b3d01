/-
MyTests/Lib/BitSelect.lean

Bits of a number picked by a mask and packed at the low end.  Mathlib's
`Nat.bitIndices` lists the positions of the set bits of the mask, lowest first;
`pext mask data` packs the bits of `data` at those positions, in that order.

An emulation consumes the mask piece by piece, in chunks from the low end or
one set bit after the other, and puts what a piece picks above what it has
already.  `Extracting` is the state of such a loop, whichever way it goes: the
output so far, its length, and the mask and data still to be consumed.  The
rules `Extracting.chunk` and `Extracting.lowest` are its two kinds of step.
-/
import Mathlib

namespace MyTests.Lib

/-! ### Positions of the set bits -/

theorem bitIndices_eq {n : ℕ} {l : List ℕ} (hl : l.SortedLT) (h : ∀ i, i ∈ l ↔ n.testBit i) :
    n.bitIndices = l :=
  Nat.bitIndices_sorted.eq_of_mem_iff hl fun i => Nat.mem_bitIndices.trans (h i).symm

theorem bitIndices_eq_nil_iff {n : ℕ} : n.bitIndices = [] ↔ n = 0 := by
  constructor
  · intro h
    rw [← Nat.sum_map_two_pow_bitIndices n, h]
    rfl
  · rintro rfl
    exact Nat.bitIndices_zero

/-- The low `k` bits first, the others after them. -/
theorem bitIndices_split (k n : ℕ) :
    n.bitIndices = (n % 2 ^ k).bitIndices ++ (n / 2 ^ k).bitIndices.map (k + ·) := by
  refine bitIndices_eq (List.Pairwise.sortedLT (List.pairwise_append.mpr ⟨?_, ?_, ?_⟩)) fun i => ?_
  · exact Nat.bitIndices_sorted.pairwise
  · refine List.pairwise_map.mpr (Nat.bitIndices_sorted.pairwise.imp ?_)
    exact fun h => Nat.add_lt_add_left h k
  · intro a ha b hb
    obtain ⟨c, -, rfl⟩ := List.mem_map.mp hb
    rw [Nat.mem_bitIndices, Nat.testBit_mod_two_pow, Bool.and_eq_true, decide_eq_true_eq] at ha
    exact Nat.lt_add_right c ha.1
  · simp only [List.mem_append, List.mem_map, Nat.mem_bitIndices, Nat.testBit_mod_two_pow,
      Nat.testBit_div_two_pow, Bool.and_eq_true, decide_eq_true_eq]
    constructor
    · rintro (⟨-, hi⟩ | ⟨c, hc, rfl⟩)
      · exact hi
      · rwa [Nat.add_comm]
    · intro hi
      rcases Nat.lt_or_ge i k with hik | hik
      · exact .inl ⟨hik, hi⟩
      · exact .inr ⟨i - k, by rwa [Nat.sub_add_cancel hik], Nat.add_sub_cancel' hik⟩

theorem bitIndices_mod_succ (k n : ℕ) : (n % 2 ^ (k + 1)).bitIndices
    = (n % 2 ^ k).bitIndices ++ (if n.testBit k then [k] else []) := by
  have hbit : (n / 2 ^ k % 2).bitIndices.map (k + ·) = if n.testBit k then [k] else [] := by
    rw [Nat.testBit_eq_decide_div_mod_eq]
    rcases Nat.mod_two_eq_zero_or_one (n / 2 ^ k) with h | h <;> simp [h]
  rw [bitIndices_split k (n % 2 ^ (k + 1)), Nat.mod_mod_of_dvd _ (pow_dvd_pow 2 (Nat.le_succ k)),
    Nat.pow_succ, Nat.mod_mul_right_div_self, hbit]

theorem length_bitIndices_le {n k : ℕ} (h : n < 2 ^ k) : n.bitIndices.length ≤ k := by
  induction k generalizing n with
  | zero =>
      obtain rfl : n = 0 := by omega
      simp
  | succ k ih =>
      rw [← Nat.mod_eq_of_lt h, bitIndices_mod_succ, List.length_append]
      have hlow := ih (Nat.mod_lt n (Nat.two_pow_pos k))
      split <;> simp <;> omega

/-- The population count is the number of set positions. -/
theorem toNat_cpop_eq_length {w : ℕ} (x : BitVec w) : x.cpop.toNat = x.toNat.bitIndices.length := by
  have h : ∀ k, x.cpopNatRec k 0 = (x.toNat % 2 ^ k).bitIndices.length := by
    intro k
    induction k with
    | zero => simp [Nat.mod_one]
    | succ k ih =>
        rw [BitVec.cpopNatRec_succ, BitVec.cpopNatRec_eq, ih, bitIndices_mod_succ,
          BitVec.testBit_toNat]
        cases x.getLsbD k <;> simp
  rw [BitVec.toNat_cpop, h, Nat.mod_eq_of_lt x.isLt]

/-! ### The lowest set bit of a word -/

section Lowest

variable {w : ℕ} {x : BitVec w} {p : ℕ} {ps : List ℕ}

theorem exists_lt_getLsbD_iff (h : x.toNat.bitIndices = p :: ps) (j : ℕ) :
    (∃ i < j, x.getLsbD i = true) ↔ p < j := by
  have hmem : ∀ i, x.getLsbD i = true ↔ i ∈ p :: ps := fun i => by
    rw [← h, Nat.mem_bitIndices, BitVec.testBit_toNat]
  have hlow : ∀ i ∈ ps, p < i := by
    have hsorted := Nat.bitIndices_sorted (n := x.toNat)
    rw [h] at hsorted
    exact (List.pairwise_cons.mp hsorted.pairwise).1
  constructor
  · rintro ⟨i, hij, hi⟩
    rcases List.mem_cons.mp ((hmem i).mp hi) with rfl | hi
    · exact hij
    · exact (hlow i hi).trans hij
  · exact fun hp => ⟨p, hp, (hmem p).mpr List.mem_cons_self⟩

theorem getLsbD_of_mem (h : x.toNat.bitIndices = p :: ps) {j : ℕ} :
    x.getLsbD j = true ↔ j = p ∨ j ∈ ps := by
  rw [← List.mem_cons, ← h, Nat.mem_bitIndices, BitVec.testBit_toNat]

/-- `x & -x` keeps the lowest set bit alone. -/
theorem getLsbD_and_neg (h : x.toNat.bitIndices = p :: ps) (j : ℕ) :
    (x &&& -x).getLsbD j = decide (j = p) := by
  have hx : x.getLsbD p = true := (getLsbD_of_mem h).mpr (.inl rfl)
  have hpw : p < w := BitVec.lt_of_getLsbD hx
  simp only [BitVec.getLsbD_and, BitVec.getLsbD_neg, exists_lt_getLsbD_iff h]
  rcases Nat.lt_trichotomy j p with hj | hj | hj
  · have hxj : x.getLsbD j = false := by
      rw [Bool.eq_false_iff]
      exact fun hxj => absurd ((exists_lt_getLsbD_iff h p).mp ⟨j, hj, hxj⟩) (lt_irrefl p)
    simp [hxj, hj.ne]
  · simp [hj, hx]
  · cases hxj : x.getLsbD j with
    | false => simp [hj.ne']
    | true => simp [hj, hj.ne', BitVec.lt_of_getLsbD hxj]

/-- `x & (x - 1)` clears the lowest set bit alone. -/
theorem bitIndices_and_sub_one (h : x.toNat.bitIndices = p :: ps) :
    (x &&& (x - 1#w)).toNat.bitIndices = ps := by
  have hsorted := Nat.bitIndices_sorted (n := x.toNat)
  rw [h] at hsorted
  obtain ⟨hlow, hps⟩ := List.pairwise_cons.mp hsorted.pairwise
  refine bitIndices_eq hps.sortedLT fun j => ?_
  -- `x - 1` is the complement of `-x`
  have hcompl : x - 1#w = ~~~(-x) := by rw [BitVec.not_neg]
  have hand : (x &&& (x - 1#w)).getLsbD j = (x.getLsbD j && !(x &&& -x).getLsbD j) := by
    rw [hcompl, BitVec.getLsbD_and, BitVec.getLsbD_and, BitVec.getLsbD_not]
    cases hxj : x.getLsbD j with
    | false => rfl
    | true => simp [BitVec.lt_of_getLsbD hxj]
  rw [BitVec.testBit_toNat, hand, getLsbD_and_neg h, Bool.and_eq_true, getLsbD_of_mem h,
    Bool.not_eq_true', decide_eq_false_iff_not]
  constructor
  · exact fun hj => ⟨.inr hj, (hlow j hj).ne'⟩
  · rintro ⟨rfl | hj, hne⟩
    · exact absurd rfl hne
    · exact hj

/-- The lowest set bit of `x` tests one bit of `y`. -/
theorem and_and_neg_eq_zero_iff (h : x.toNat.bitIndices = p :: ps) (y : BitVec w) :
    x &&& y &&& -x = 0#w ↔ y.getLsbD p = false := by
  have hbit : ∀ j, (x &&& y &&& -x).getLsbD j = (y.getLsbD j && decide (j = p)) := by
    intro j
    rw [← getLsbD_and_neg h j, BitVec.getLsbD_and, BitVec.getLsbD_and, BitVec.getLsbD_and,
      Bool.and_comm (x.getLsbD j), Bool.and_assoc]
  constructor
  · intro hzero
    have hp := hbit p
    rwa [hzero, BitVec.getLsbD_zero, decide_eq_true rfl, Bool.and_true, eq_comm] at hp
  · intro hy
    refine BitVec.eq_of_getLsbD_eq fun j _ => ?_
    rw [hbit, BitVec.getLsbD_zero]
    rcases eq_or_ne j p with rfl | hj
    · rw [hy, Bool.false_and]
    · rw [decide_eq_false hj, Bool.and_false]

end Lowest

/-! ### Packing bits -/

/-- The number whose bits are `bs`, the lowest first. -/
def pack : List Bool → ℕ
  | [] => 0
  | b :: bs => b.toNat + 2 * pack bs

theorem pack_append (as bs : List Bool) : pack (as ++ bs) = pack as + 2 ^ as.length * pack bs := by
  induction as with
  | nil => simp [pack]
  | cons a as ih =>
      rw [List.cons_append, pack, ih, pack, List.length_cons, Nat.pow_succ]
      ring

theorem pack_lt (bs : List Bool) : pack bs < 2 ^ bs.length := by
  induction bs with
  | nil => exact Nat.one_pos
  | cons b bs ih =>
      rw [pack, List.length_cons, Nat.pow_succ]
      have hbit := b.toNat_lt
      omega

theorem testBit_pack (bs : List Bool) (j : ℕ) : (pack bs).testBit j = bs[j]?.getD false := by
  induction bs generalizing j with
  | nil => simp [pack]
  | cons b bs ih =>
      rw [pack, Nat.add_comm, ← Nat.bit_val]
      cases j with
      | zero => simp
      | succ j => rw [Nat.testBit_bit_succ, ih, List.getElem?_cons_succ]

/-! ### Parallel bit extract -/

/-- The bits of `data` at the set positions of `mask`, packed. -/
def pext (mask data : ℕ) : ℕ := pack (mask.bitIndices.map data.testBit)

theorem testBit_pext (mask data j : ℕ) : (pext mask data).testBit j
    = if h : j < mask.bitIndices.length then data.testBit mask.bitIndices[j] else false := by
  rw [pext, testBit_pack, List.getElem?_map]
  split
  · next h => rw [List.getElem?_eq_getElem h]; rfl
  · next h => rw [List.getElem?_eq_none (Nat.le_of_not_lt h)]; rfl

theorem pext_lt (mask data : ℕ) : pext mask data < 2 ^ mask.bitIndices.length := by
  simpa [pext] using pack_lt (mask.bitIndices.map data.testBit)

@[simp] theorem pext_zero_left (data : ℕ) : pext 0 data = 0 := by simp [pext, pack]

/-- A mask of the low `w` bits copies them. -/
theorem pext_low_ones {w data : ℕ} (h : data < 2 ^ w) : pext (2 ^ w - 1) data = data := by
  have hmask : (2 ^ w - 1).bitIndices = List.range w :=
    bitIndices_eq List.pairwise_lt_range.sortedLT fun i => by simp [Nat.testBit_two_pow_sub_one]
  refine Nat.eq_of_testBit_eq fun j => ?_
  simp only [testBit_pext, hmask, List.length_range, List.getElem_range, dite_eq_ite]
  split
  · rfl
  · next hj =>
      refine (Nat.testBit_lt_two_pow (h.trans_le ?_)).symm
      exact Nat.pow_le_pow_right Nat.two_pos (Nat.le_of_not_lt hj)

/-- The low `k` bits of mask and data pick the low bits of the result. -/
theorem pext_split (k mask data : ℕ) : pext mask data
    = pext (mask % 2 ^ k) (data % 2 ^ k)
      + 2 ^ (mask % 2 ^ k).bitIndices.length * pext (mask / 2 ^ k) (data / 2 ^ k) := by
  have hlow : (mask % 2 ^ k).bitIndices.map data.testBit
      = (mask % 2 ^ k).bitIndices.map (data % 2 ^ k).testBit :=
    List.map_congr_left fun i hi => by
      rw [Nat.mem_bitIndices, Nat.testBit_mod_two_pow, Bool.and_eq_true] at hi
      rw [Nat.testBit_mod_two_pow, hi.1, Bool.true_and]
  have hhigh : ((mask / 2 ^ k).bitIndices.map (k + ·)).map data.testBit
      = (mask / 2 ^ k).bitIndices.map (data / 2 ^ k).testBit := by
    rw [List.map_map]
    exact List.map_congr_left fun i _ => by
      rw [Function.comp_apply, Nat.testBit_div_two_pow, Nat.add_comm]
  rw [pext, bitIndices_split k mask, List.map_append, pack_append, List.length_map, hlow, hhigh]
  rfl

/-- One more mask bit puts at most one data bit on top. -/
theorem pext_mod_succ (k mask data : ℕ) : pext (mask % 2 ^ (k + 1)) data
    = pext (mask % 2 ^ k) data + if mask.testBit k
        then 2 ^ (mask % 2 ^ k).bitIndices.length * (data.testBit k).toNat else 0 := by
  rw [pext, bitIndices_mod_succ, List.map_append, pack_append, List.length_map]
  split <;> simp [pext, pack]

/-- The extraction from the low `k` bits, bit by bit: the packed bits and how many
they are. -/
def scan (mask data : ℕ) : ℕ → ℕ × ℕ
  | 0 => (0, 0)
  | k + 1 =>
      let (value, len) := scan mask data k
      if mask.testBit k then (value + 2 ^ len * (data.testBit k).toNat, len + 1) else (value, len)

theorem scan_eq (mask data k : ℕ) :
    scan mask data k = (pext (mask % 2 ^ k) data, (mask % 2 ^ k).bitIndices.length) := by
  induction k with
  | zero => simp [scan, Nat.mod_one]
  | succ k ih =>
      rw [scan, ih, pext_mod_succ, bitIndices_mod_succ, List.length_append]
      cases mask.testBit k <;> rfl

theorem pext_cons {mask mask' data p : ℕ} (h : mask.bitIndices = p :: mask'.bitIndices) :
    pext mask data = (data.testBit p).toNat + 2 * pext mask' data := by
  rw [pext, h, List.map_cons, pack]
  rfl

/-! ### An extraction in progress -/

/-- `len` bits of the extraction of `data₀` under `mask₀` are in `out`; `mask`
and `data` hold the rest. -/
structure Extracting (mask₀ data₀ mask data out len : ℕ) : Prop where
  value : pext mask₀ data₀ = out + 2 ^ len * pext mask data
  out_lt : out < 2 ^ len
  length : len + mask.bitIndices.length = mask₀.bitIndices.length

namespace Extracting

variable {mask₀ data₀ mask data out len : ℕ}

theorem start (mask data : ℕ) : Extracting mask data mask data 0 0 :=
  ⟨by simp, by simp, by simp⟩

/-- Bits put above `out` are added to it. -/
theorem or_eq_add (h : Extracting mask₀ data₀ mask data out len) (v : ℕ) :
    out ||| v <<< len = out + 2 ^ len * v := by
  rw [Nat.or_comm, Nat.shiftLeft_eq, Nat.mul_comm, ← Nat.two_pow_add_eq_or_of_lt h.out_lt,
    Nat.add_comm]

/-- **A chunk.**  The `k` low bits of mask and data leave for the output. -/
theorem chunk (h : Extracting mask₀ data₀ mask data out len) (k : ℕ) :
    Extracting mask₀ data₀ (mask / 2 ^ k) (data / 2 ^ k)
      (out ||| pext (mask % 2 ^ k) (data % 2 ^ k) <<< len)
      (len + (mask % 2 ^ k).bitIndices.length) where
  value := by
    rw [h.or_eq_add, h.value, pext_split k mask data, Nat.pow_add]
    ring
  out_lt := by
    have hv := pext_lt (mask % 2 ^ k) (data % 2 ^ k)
    have hmul := Nat.mul_le_mul_left (2 ^ len) (Nat.succ_le_of_lt hv)
    have hout := h.out_lt
    rw [h.or_eq_add, Nat.pow_add]
    rw [Nat.mul_succ] at hmul
    omega
  length := by
    rw [← h.length, bitIndices_split k mask, List.length_append, List.length_map, Nat.add_assoc]

/-- **A bit.**  The lowest set bit leaves the mask, and the data bit there goes
to the output. -/
theorem lowest {mask' p : ℕ} (h : Extracting mask₀ data₀ mask data out len)
    (hp : mask.bitIndices = p :: mask'.bitIndices) :
    Extracting mask₀ data₀ mask' data (out ||| (data.testBit p).toNat <<< len) (len + 1) where
  value := by
    rw [h.or_eq_add, h.value, pext_cons hp, Nat.pow_succ]
    ring
  out_lt := by
    have hbit := (data.testBit p).toNat_lt
    have hout := h.out_lt
    have hmul := Nat.mul_le_mul_left (2 ^ len) (Nat.le_of_lt_succ hbit)
    rw [h.or_eq_add, Nat.pow_succ]
    omega
  length := by
    rw [← h.length, hp, List.length_cons]
    omega

theorem len_le (h : Extracting mask₀ data₀ mask data out len) {w : ℕ} (hw : mask₀ < 2 ^ w) :
    len + mask.bitIndices.length ≤ w :=
  h.length ▸ length_bitIndices_le hw

/-- What stays below the width of the word is not cut off by the shift. -/
theorem toNat_or_shiftLeft {w : ℕ} {mask out value : BitVec w} {n : ℕ}
    (h : Extracting mask₀ data₀ mask.toNat data out.toNat len) (hw : mask₀ < 2 ^ w)
    (hn : n ≤ mask.toNat.bitIndices.length) (hv : value.toNat < 2 ^ n) :
    (out ||| value <<< len).toNat = out.toNat ||| value.toNat <<< len := by
  have hlen := h.len_le hw
  have hlt : value.toNat <<< len < 2 ^ w := by
    calc value.toNat <<< len = value.toNat * 2 ^ len := Nat.shiftLeft_eq _ _
      _ < 2 ^ n * 2 ^ len := Nat.mul_lt_mul_of_pos_right hv (Nat.two_pow_pos len)
      _ = 2 ^ (n + len) := (Nat.pow_add 2 n len).symm
      _ ≤ 2 ^ w := Nat.pow_le_pow_right Nat.two_pos (by omega)
  rw [BitVec.toNat_or, BitVec.toNat_shiftLeft, Nat.mod_eq_of_lt hlt]

/-- A chunk, in words. -/
theorem chunkWord {w : ℕ} {mask data out value : BitVec w}
    (h : Extracting mask₀ data₀ mask.toNat data.toNat out.toNat len) (hw : mask₀ < 2 ^ w) {k : ℕ}
    (hv : value.toNat = pext (mask.toNat % 2 ^ k) (data.toNat % 2 ^ k)) :
    Extracting mask₀ data₀ (mask >>> k).toNat (data >>> k).toNat (out ||| value <<< len).toNat
      (len + (mask.toNat % 2 ^ k).bitIndices.length) := by
  have hn : (mask.toNat % 2 ^ k).bitIndices.length ≤ mask.toNat.bitIndices.length := by
    rw [bitIndices_split k mask.toNat, List.length_append]
    exact Nat.le_add_right _ _
  rw [h.toNat_or_shiftLeft hw hn (hv ▸ pext_lt _ _), hv]
  simp only [BitVec.toNat_ushiftRight, Nat.shiftRight_eq_div_pow]
  exact h.chunk k

/-- A bit, in words: a weight stands for it, or 0. -/
theorem lowestWord {w : ℕ} {mask data out : BitVec w} {p : ℕ} {ps : List ℕ}
    (h : Extracting mask₀ data₀ mask.toNat data.toNat out.toNat len) (hw : mask₀ < 2 ^ w)
    (hp : mask.toNat.bitIndices = p :: ps) :
    Extracting mask₀ data₀ (mask &&& (mask - 1#w)).toNat data.toNat
      (out ||| if mask &&& data &&& -mask = 0#w then 0#w else 1#w <<< len).toNat (len + 1) := by
  have hlen := h.len_le hw
  rw [hp, List.length_cons] at hlen
  have hone : (1#w).toNat = 1 := by
    rw [BitVec.toNat_ofNat, Nat.mod_eq_of_lt (Nat.one_lt_two_pow (by omega))]
  have hbit : (if mask &&& data &&& -mask = 0#w then 0#w else 1#w <<< len)
      = (BitVec.ofNat w (data.toNat.testBit p).toNat) <<< len := by
    rw [BitVec.testBit_toNat]
    cases hd : data.getLsbD p with
    | false =>
        rw [if_pos ((and_and_neg_eq_zero_iff hp data).mpr hd)]
        simp
    | true =>
        rw [if_neg fun hz => ?_]
        · rfl
        · rw [(and_and_neg_eq_zero_iff hp data).mp hz] at hd
          cases hd
  have hv : (BitVec.ofNat w (data.toNat.testBit p).toNat).toNat = (data.toNat.testBit p).toNat := by
    cases data.toNat.testBit p with
    | false => simp
    | true => exact hone
  rw [hbit, h.toNat_or_shiftLeft hw (n := 1) (by rw [hp]; simp) (by
    rw [hv]
    exact (data.toNat.testBit p).toNat_lt), hv]
  exact h.lowest (by rw [hp, bitIndices_and_sub_one hp])

theorem done (h : Extracting mask₀ data₀ 0 data out len) : out = pext mask₀ data₀ := by
  simp [h.value]

end Extracting

end MyTests.Lib
