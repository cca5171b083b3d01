/-
MyTests/Utf8/Pattern.lean

What the bytes of a unit mean.  `pattern k v` is the unit with `k` continuation
bytes for the value `v`: the lead byte has `k + 1` high bits (none for `k = 0`)
and the bits of `v` above the `6 k` low ones, which follow in groups of six.
A value that fits in `k` continuation bytes fits in more of them as well, so it
has several patterns; the encoder takes the shortest (`encodeUtf8_pattern`).
-/
import MyTests.Lib.Positional
import MyTests.Utf8.Ceph

namespace MyTests.Utf8

open Lib

/-! ### Patterns -/

/-- The high bits of a lead byte. -/
def leadMark (k : ℕ) : ℕ := if k = 0 then 0 else 2 ^ 8 - 2 ^ (7 - k)

/-- The values with a pattern of `k` continuation bytes are those below. -/
def capacity (k : ℕ) : ℕ := if k = 0 then 2 ^ 7 else 2 ^ (6 - k) * 64 ^ k

def continuation (d : ℕ) : Byte := BitVec.ofNat 8 (128 + d)

def pattern (k v : ℕ) : List Byte :=
  BitVec.ofNat 8 (leadMark k + v / 64 ^ k) :: (digitsOf 64 k v).map continuation

@[simp] theorem length_pattern (k v : ℕ) : (pattern k v).length = k + 1 := by
  simp [pattern]

/-- `k` continuation bytes are the fewest for `v`. -/
def Shortest (k v : ℕ) : Prop := v < capacity k ∧ ∀ j < k, capacity j ≤ v

theorem exists_shortest {v : ℕ} (hv : v < 2 ^ 31) : ∃ k ≤ 5, Shortest k v := by
  have hex : ∃ k, v < capacity k := ⟨5, hv⟩
  refine ⟨Nat.find hex, Nat.find_min' hex hv, Nat.find_spec hex, fun j hj => ?_⟩
  exact not_lt.mp (Nat.find_min hex hj)

/-! ### Words and bytes as numbers -/

theorem toNat_shiftRight_six (u : ULong) : (u >>> 6).toNat = u.toNat / 64 := by
  rw [BitVec.toNat_ushiftRight, Nat.shiftRight_eq_div_pow]

/-- A mark in the bits that are free below it. -/
theorem mark_or {m x i : ℕ} (hx : x < 2 ^ i) : 2 ^ i * m ||| x = 2 ^ i * m + x :=
  (Nat.two_pow_add_eq_or_of_lt hx m).symm

theorem setWidth_continuation (u : ULong) :
    (0x80#64 ||| (u &&& 0x3f#64)).setWidth 8 = continuation (u.toNat % 64) := by
  have hlow : u.toNat &&& 63 = u.toNat % 64 := Nat.and_two_pow_sub_one_eq_mod u.toNat 6
  have hor : 128 ||| u.toNat % 64 = 128 + u.toNat % 64 :=
    mark_or (m := 2) (i := 6) (Nat.mod_lt _ (by decide))
  have hmod : (63#64).toNat = 63 := rfl
  have hmark : (0x80#64).toNat = 128 := rfl
  apply BitVec.eq_of_toNat_eq
  rw [BitVec.toNat_setWidth, BitVec.toNat_or, BitVec.toNat_and, hmod, hmark, hlow, hor, continuation,
    BitVec.toNat_ofNat]

/-! ### What the encoder writes -/

/-- The bytes of `l` from `o` on. -/
def patch (o : ℕ) (l : List Byte) (buf : Memory) : Memory :=
  fun i => if i < o then buf i else (l[i - o]?).getD (buf i)

theorem patch_concat (o : ℕ) (l : List Byte) (c : Byte) (buf : Memory) :
    patch o l (Function.update buf (o + l.length) c) = patch o (l ++ [c]) buf := by
  funext i
  unfold patch
  by_cases hio : i < o
  · rw [if_pos hio, if_pos hio, Function.update_of_ne (by omega)]
  · rw [if_neg hio, if_neg hio]
    rcases lt_trichotomy (i - o) l.length with hlt | heq | hgt
    · simp [List.getElem?_append_left hlt, List.getElem?_eq_getElem hlt]
    · obtain rfl : i = o + l.length := by omega
      simp
    · rw [List.getElem?_eq_none hgt.le, List.getElem?_eq_none (by simpa using hgt),
        Option.getD_none, Option.getD_none, Function.update_of_ne (by omega)]

theorem patch_cons (l : List Byte) (c : Byte) (buf : Memory) :
    Function.update (patch 1 l buf) 0 c = patch 0 (c :: l) buf := by
  funext i
  cases i with
  | zero => simp [patch]
  | succ i => simp [patch]

theorem patch_beyond {l : List Byte} {buf : Memory} {i : ℕ} (hi : l.length ≤ i) :
    patch 0 l buf i = buf i := by
  simp [patch, List.getElem?_eq_none hi]

theorem output_patch (l : List Byte) (buf : Memory) :
    output ((l.length : ℤ), patch 0 l buf) = l := by
  refine List.ext_getElem (by simp [output]) fun i hi hl => ?_
  simp [output, patch, List.getElem?_eq_getElem hl]

/-- The loop writes the low digits, and leaves the rest of the value. -/
theorem encodeLoop_eq (k : ℕ) (u : ULong) (buf : Memory) :
    (encodeLoop k u buf).1.toNat = u.toNat / 64 ^ k ∧
      (encodeLoop k u buf).2 = patch 1 ((digitsOf 64 k u.toNat).map continuation) buf := by
  induction k generalizing u buf with
  | zero =>
      refine ⟨(Nat.div_one _).symm, funext fun i => ?_⟩
      simp [encodeLoop, patch, digitsOf]
  | succ k ih =>
      obtain ⟨hrest, hmem⟩ := ih (u >>> 6) (store buf (k + 1) (0x80#64 ||| (u &&& 0x3f#64)))
      rw [toNat_shiftRight_six] at hrest hmem
      refine ⟨?_, ?_⟩
      · show (encodeLoop k _ _).1.toNat = _
        rw [hrest, Nat.div_div_eq_div_mul, ← Nat.pow_succ']
      · have hconcat := patch_concat 1 ((digitsOf 64 k (u.toNat / 64)).map continuation)
          (continuation (u.toNat % 64)) buf
        rw [List.length_map, length_digitsOf, Nat.add_comm 1 k] at hconcat
        show (encodeLoop k _ _).2 = _
        rw [hmem, store, setWidth_continuation, hconcat, digitsOf_succ, List.map_append,
          List.map_singleton]

/-- `max_val` holds the largest value for each length. -/
theorem findIdx_of_shortest {k : ℕ} {u : ULong} (hk : k ≤ 5) (hs : Shortest k u.toNat) :
    (maxVal.findIdx fun m => u ≤ m) = k := by
  have hcap : ∀ i : Fin 6, (maxVal[i]).toNat + 1 = capacity i := by decide
  have hlength : k < maxVal.length := Nat.lt_succ_of_le hk
  rw [List.findIdx_eq hlength]
  refine ⟨decide_eq_true ?_, fun j hj => decide_eq_false ?_⟩
  · have hbound : (maxVal[k]).toNat + 1 = capacity k := hcap ⟨k, hlength⟩
    have hlt := hs.1
    rw [BitVec.le_def]
    omega
  · have hbound : (maxVal[j]).toNat + 1 = capacity j := hcap ⟨j, hj.trans hlength⟩
    have hle := hs.2 j hj
    rw [BitVec.le_def]
    omega

theorem setWidth_lead {k : ℕ} {rest : ULong} (h0 : 0 < k) (hk : k ≤ 5)
    (hrest : rest.toNat < 2 ^ (6 - k)) :
    ((leadMask k).setWidth 64 ||| rest).setWidth 8 = BitVec.ofNat 8 (leadMark k + rest.toNat) := by
  have hmask : ∀ i : Fin 6, 0 < i → ((leadMask i).setWidth 64).toNat
      = 2 ^ (6 - i.val) * (2 ^ (i.val + 2) - 2) := by decide
  have hmark : ∀ i : Fin 6, 0 < i → leadMark i = 2 ^ (6 - i.val) * (2 ^ (i.val + 2) - 2) := by decide
  have hk6 : k < 6 := Nat.lt_succ_of_le hk
  apply BitVec.eq_of_toNat_eq
  rw [BitVec.toNat_setWidth, BitVec.toNat_or, hmask ⟨k, hk6⟩ h0, mark_or hrest,
    ← hmark ⟨k, hk6⟩ h0, BitVec.toNat_ofNat]

/-- **The encoder writes the shortest pattern.** -/
theorem encodeUtf8_pattern {k : ℕ} {u : ULong} (hk : k ≤ 5) (hs : Shortest k u.toNat)
    (buf : Memory) : encodeUtf8 u buf = ((k : ℤ) + 1, patch 0 (pattern k u.toNat) buf) := by
  have hidx := findIdx_of_shortest hk hs
  rcases k.eq_zero_or_pos with rfl | h0
  · have hlead : pattern 0 u.toNat = [u.setWidth 8] := by
      have hbyte : BitVec.ofNat 8 u.toNat = u.setWidth 8 := BitVec.eq_of_toNat_eq (by
        rw [BitVec.toNat_ofNat, BitVec.toNat_setWidth])
      rw [pattern, leadMark, if_pos rfl, Nat.zero_add, Nat.pow_zero, Nat.div_one, hbyte]
      rfl
    simp only [encodeUtf8, hidx]
    rw [hlead]
    refine congrArg (Prod.mk (1 : ℤ)) ?_
    rw [← patch_cons]
    refine congrArg (Function.update · 0 _) (funext fun i => ?_)
    simp [patch]
  · obtain ⟨hrest, hmem⟩ := encodeLoop_eq k u buf
    -- what the loop leaves fits into the lead byte
    have hlt : (encodeLoop k u buf).1.toNat < 2 ^ (6 - k) := by
      have hcap := hs.1
      rw [capacity, if_neg h0.ne', Nat.mul_comm] at hcap
      rw [hrest]
      exact Nat.div_lt_of_lt_mul hcap
    rw [encodeUtf8_eq_loop hidx h0 (Nat.lt_succ_of_le hk), store, setWidth_lead h0 hk hlt, hmem,
      hrest, patch_cons]
    rfl

theorem encodeUtf8_too_big {u : ULong} (hu : 2 ^ 31 ≤ u.toNat) (buf : Memory) :
    encodeUtf8 u buf = (-1, buf) := by
  have hnone : (maxVal.findIdx fun m => u ≤ m) = maxVal.length := by
    refine List.findIdx_eq_length.mpr fun m hm => decide_eq_false ?_
    have hall : ∀ m ∈ maxVal, m.toNat < 2 ^ 31 := by simp [maxVal]
    have hlt := hall m hm
    rw [BitVec.le_def]
    omega
  simp only [encodeUtf8, hnone, if_true]

/-- **The optimised encoder equals the original.**  They return the same and
leave the same memory; the value is -1 exactly above 0x7FFFFFFF and else a
length from 1 to 6, and no byte from the returned length on is touched. -/
theorem encodeUtf8Quick_eq (u : ULong) (buf : Memory) :
    encodeUtf8Quick u buf = encodeUtf8 u buf ∧
      ((encodeUtf8 u buf).1 = -1 ↔ 0x7FFFFFFF < u.toNat) ∧
      ((encodeUtf8 u buf).1 ≠ -1 → 1 ≤ (encodeUtf8 u buf).1 ∧ (encodeUtf8 u buf).1 ≤ 6) ∧
      ∀ i : ℕ, (encodeUtf8 u buf).1 ≤ i → (encodeUtf8 u buf).2 i = buf i := by
  refine ⟨encodeUtf8Quick_eq_encodeUtf8 u buf, ?_⟩
  rcases lt_or_ge u.toNat (2 ^ 31) with hlt | hge
  · obtain ⟨k, hk, hs⟩ := exists_shortest hlt
    rw [encodeUtf8_pattern hk hs buf]
    refine ⟨by dsimp only; omega, fun _ => by dsimp only; omega, fun i hi => patch_beyond ?_⟩
    dsimp only at hi
    rw [length_pattern]
    omega
  · rw [encodeUtf8_too_big hge buf]
    exact ⟨iff_of_true rfl hge, fun hne => absurd rfl hne, fun i _ => rfl⟩

end MyTests.Utf8
