/-
MyTests/Bmi/PextTable.lean

`pext_u64_simu` of `cpp/pext.cc` and the table it looks up, for every width of a
chunk.

Whatever the language leaves undefined makes the model give no result: a table
index out of range, and a shift of a 64-bit word by 64 or more.  The loop runs a
fixed number of trips and leaves early once the mask is empty; the source keeps
a `while` loop in its place under `#if 0`.  All three are here, with one body.
-/
import MyTests.Lib.BitSelect

namespace MyTests.Bmi

open MyTests.Lib

/-- `kLookupBits`: the bits of a chunk fit the bytes of the table. -/
structure LookupBits where
  k : ℕ
  pos : 1 ≤ k
  le : k ≤ 8

/-! ### The table -/

/-- One bit of an entry, on `bit_value` and `bit_len`. -/
def entryStep (mask data : ℕ) (entry : ℕ × ℕ) (i : ℕ) : ℕ × ℕ :=
  if mask &&& 1 <<< i ≠ 0 then (entry.1 ||| ((data >>> i) &&& 1) <<< entry.2, entry.2 + 1) else entry

/-- `pext_table[mask][data]`, before it is stored. -/
def entryOf (k mask data : ℕ) : ℕ × ℕ := (List.range k).foldl (entryStep mask data) (0, 0)

/-- `gen_pext_lookup_table`. -/
def genPextLookupTable (k : ℕ) : List (List (BitVec 8)) :=
  (List.range (1 <<< k)).map fun mask =>
    (List.range (1 <<< k)).map fun data => BitVec.ofNat 8 (entryOf k mask data).1

theorem entryOf_eq_scan (k mask data : ℕ) : entryOf k mask data = scan mask data k := by
  induction k with
  | zero => rfl
  | succ k ih =>
      have hlow : (scan mask data k).1 < 2 ^ (scan mask data k).2 := by
        rw [scan_eq]
        exact pext_lt _ _
      have hmask : mask &&& 1 <<< k ≠ 0 ↔ mask.testBit k = true := by
        rw [Nat.one_shiftLeft, Nat.and_two_pow, Nat.mul_ne_zero_iff]
        simp
      have hbit : (data >>> k) &&& 1 = (data.testBit k).toNat := by
        rw [Nat.and_one_is_mod, Nat.shiftRight_eq_div_pow, Nat.toNat_testBit]
      rw [entryOf, List.range_succ, List.foldl_append, ← entryOf, ih, List.foldl_cons, List.foldl_nil,
        entryStep, scan, hbit]
      simp only [hmask]
      rw [Nat.or_comm, Nat.shiftLeft_eq, Nat.mul_comm, ← Nat.two_pow_add_eq_or_of_lt hlow, Nat.add_comm]

/-- **A table entry is the extraction of its data index under its mask index.** -/
theorem genPextLookupTable_getElem {k mask data : ℕ} (hk : k ≤ 8) (hmask : mask < 2 ^ k)
    (hdata : data < 2 ^ k) : ((genPextLookupTable k)[mask]?.bind (·[data]?)).map BitVec.toNat
      = some (pext mask data) := by
  have hlt : pext mask data < 2 ^ 8 := (pext_lt mask data).trans_le
    (Nat.pow_le_pow_right Nat.two_pos ((length_bitIndices_le hmask).trans hk))
  rw [genPextLookupTable, List.getElem?_map, List.getElem?_range (by rwa [Nat.one_shiftLeft])]
  simp only [Option.map_some, Option.bind_some]
  rw [List.getElem?_map, List.getElem?_range (by rwa [Nat.one_shiftLeft])]
  simp only [Option.map_some, BitVec.toNat_ofNat]
  rw [entryOf_eq_scan, scan_eq, Nat.mod_eq_of_lt hmask, Nat.mod_eq_of_lt hlt]

/-! ### The loops -/

/-- The locals of `pext_u64_simu`. -/
structure Simu where
  mask : BitVec 64
  data : BitVec 64
  out : BitVec 64
  outLen : ℕ

/-- `x << n`, undefined from 64 on. -/
def shl (x : BitVec 64) (n : ℕ) : Option (BitVec 64) := if n < 64 then some (x <<< n) else none

/-- `__builtin_popcount`. -/
def builtinPopcount (x : BitVec 32) : ℕ := x.cpop.toNat

def kLookupMask (k : ℕ) : BitVec 64 := BitVec.ofNat 64 (1 <<< k - 1)

/-- The body of the loop, up to the test of the mask. -/
def simuBody (k : ℕ) (s : Simu) : Option Simu := do
  let maskValue := s.mask &&& kLookupMask k
  let maskLen := builtinPopcount (maskValue.setWidth 32)
  let row ← (genPextLookupTable k)[maskValue.toNat]?
  let value ← row[(s.data &&& kLookupMask k).toNat]?
  let shifted ← shl (value.setWidth 64) s.outLen
  some { mask := s.mask >>> k, data := s.data >>> k, out := s.out ||| shifted, outLen := s.outLen + maskLen }

/-- `trips` more trips; the loop may leave early. -/
def forLoop (early : Bool) (k : ℕ) : ℕ → Simu → Option Simu
  | 0, s => some s
  | trips + 1, s => do
      let s ← simuBody k s
      if early && s.mask == 0#64 then some s else forLoop early k trips s

/-- `(64 + kLookupBits - 1) / kLookupBits`. -/
def tripCount (k : ℕ) : ℕ := (64 + k - 1) / k

/-- `pext_u64_simu`. -/
def pextU64Simu (k : LookupBits) (mask data : BitVec 64) : Option (BitVec 64) :=
  (forLoop true k.k (tripCount k.k) ⟨mask, data, 0#64, 0⟩).map Simu.out

/-- `pext_u64_simu` without the early `break`. -/
def pextU64SimuFixed (k : LookupBits) (mask data : BitVec 64) : Option (BitVec 64) :=
  (forLoop false k.k (tripCount k.k) ⟨mask, data, 0#64, 0⟩).map Simu.out

theorem simuBody_mask {k : ℕ} {s s' : Simu} (h : simuBody k s = some s') : s'.mask = s.mask >>> k := by
  simp only [simuBody, Option.bind_eq_bind, Option.bind_eq_some_iff, Option.some.injEq] at h
  obtain ⟨-, -, -, -, -, -, rfl⟩ := h
  rfl

/-- `while (mask != 0)`, the loop that is compiled out. -/
def whileLoop (k : LookupBits) (s : Simu) : Option Simu :=
  if _hne : s.mask ≠ 0#64 then
    match _h : simuBody k.k s with
    | none => none
    | some s' => if s'.mask = 0#64 then some s' else whileLoop k s'
  else some s
termination_by s.mask.toNat
decreasing_by
  rw [simuBody_mask _h, BitVec.toNat_ushiftRight, Nat.shiftRight_eq_div_pow]
  exact Nat.div_lt_self (Nat.pos_of_ne_zero fun h0 => _hne (BitVec.eq_of_toNat_eq h0))
    (Nat.one_lt_two_pow (Nat.ne_of_gt k.pos))

/-- `pext_u64_simu` with the `while` loop. -/
def pextU64SimuWhile (k : LookupBits) (mask data : BitVec 64) : Option (BitVec 64) :=
  (whileLoop k ⟨mask, data, 0#64, 0⟩).map Simu.out

/-! ### One trip -/

theorem toNat_and_kLookupMask {k : ℕ} (hk : k ≤ 8) (x : BitVec 64) :
    (x &&& kLookupMask k).toNat = x.toNat % 2 ^ k := by
  have hlt : 1 <<< k - 1 < 2 ^ 64 := by
    have hpow := Nat.pow_le_pow_right Nat.two_pos hk
    rw [Nat.one_shiftLeft]
    omega
  rw [BitVec.toNat_and, kLookupMask, BitVec.toNat_ofNat, Nat.mod_eq_of_lt hlt, Nat.one_shiftLeft,
    Nat.and_two_pow_sub_one_eq_mod]

/-- The locals after some trips: `consumed` bits of the mask are gone. -/
structure Tripping (mask₀ data₀ : BitVec 64) (consumed : ℕ) (s : Simu) : Prop where
  extracting : Extracting mask₀.toNat data₀.toNat s.mask.toNat s.data.toNat s.out.toNat s.outLen
  outLen_le : s.outLen ≤ consumed
  mask_lt : s.mask.toNat * 2 ^ consumed < 2 ^ 64

variable {mask₀ data₀ : BitVec 64} {consumed : ℕ} {s : Simu}

theorem Tripping.start (mask data : BitVec 64) : Tripping mask data 0 ⟨mask, data, 0#64, 0⟩ :=
  ⟨Extracting.start _ _, le_rfl, by simpa using mask.isLt⟩

/-- **A trip.**  While the shift is defined, a chunk is consumed. -/
theorem Tripping.trip (h : Tripping mask₀ data₀ consumed s) (k : LookupBits) (hlen : s.outLen < 64) :
    ∃ s', simuBody k.k s = some s' ∧ Tripping mask₀ data₀ (consumed + k.k) s' := by
  have hmask := toNat_and_kLookupMask k.le s.mask
  have hdata := toNat_and_kLookupMask k.le s.data
  have hpos : 0 < 2 ^ k.k := Nat.two_pow_pos k.k
  have hentry := genPextLookupTable_getElem k.le (Nat.mod_lt s.mask.toNat hpos)
    (Nat.mod_lt s.data.toNat hpos)
  obtain ⟨value, hget, hvalue⟩ := Option.map_eq_some_iff.mp hentry
  obtain ⟨row, hrow, hcell⟩ := Option.bind_eq_some_iff.mp hget
  -- the chunk has as many results as ones in its part of the mask
  have hpop : builtinPopcount ((s.mask &&& kLookupMask k.k).setWidth 32)
      = (s.mask.toNat % 2 ^ k.k).bitIndices.length := by
    have hlt : s.mask.toNat % 2 ^ k.k < 2 ^ 32 := (Nat.mod_lt _ hpos).trans_le
      (Nat.pow_le_pow_right Nat.two_pos (k.le.trans (by decide)))
    rw [builtinPopcount, toNat_cpop_eq_length, BitVec.toNat_setWidth, hmask, Nat.mod_eq_of_lt hlt]
  -- the entry of the table is the extraction from the chunk
  have hword : (value.setWidth 64).toNat = pext (s.mask.toNat % 2 ^ k.k) (s.data.toNat % 2 ^ k.k) := by
    rw [BitVec.toNat_setWidth, hvalue, Nat.mod_eq_of_lt]
    exact hvalue ▸ value.isLt.trans (by decide)
  have hones := length_bitIndices_le (Nat.mod_lt s.mask.toNat hpos)
  refine ⟨⟨s.mask >>> k.k, s.data >>> k.k, s.out ||| value.setWidth 64 <<< s.outLen,
    s.outLen + (s.mask.toNat % 2 ^ k.k).bitIndices.length⟩, ?_,
    h.extracting.chunkWord mask₀.isLt hword, Nat.add_le_add h.outLen_le hones, ?_⟩
  · simp only [simuBody, hmask, hdata, hrow, hcell, shl, if_pos hlen, hpop, Option.bind_eq_bind,
      Option.bind_some]
  · show (s.mask >>> k.k).toNat * 2 ^ (consumed + k.k) < 2 ^ 64
    rw [BitVec.toNat_ushiftRight, Nat.shiftRight_eq_div_pow, Nat.pow_add, Nat.mul_comm (2 ^ consumed),
      ← Nat.mul_assoc]
    exact (Nat.mul_le_mul_right _ (Nat.div_mul_le_self _ _)).trans_lt h.mask_lt

theorem Tripping.done (h : Tripping mask₀ data₀ consumed s) (hzero : s.mask = 0#64) :
    s.out = BitVec.ofNat 64 (pext mask₀.toNat data₀.toNat) := by
  have hext := h.extracting
  rw [hzero] at hext
  rw [← hext.done, BitVec.ofNat_toNat, BitVec.setWidth_eq]

/-! ### The three loops -/

/-- The fixed number of trips is enough, and no trip shifts too far. -/
theorem forLoop_eq (early : Bool) (k : LookupBits) {trips : ℕ} (h : Tripping mask₀ data₀ consumed s)
    (hlast : consumed + trips * k.k < 64 + k.k) (hall : 64 ≤ consumed + trips * k.k) :
    (forLoop early k.k trips s).map Simu.out
      = some (BitVec.ofNat 64 (pext mask₀.toNat data₀.toNat)) := by
  induction trips generalizing s consumed with
  | zero =>
      -- all 64 bits are consumed, so nothing of the mask is left
      have hzero : s.mask = 0#64 := by
        refine BitVec.eq_of_toNat_eq (Nat.eq_zero_of_not_pos fun hpos => ?_)
        have hpow := Nat.pow_le_pow_right Nat.two_pos (show 64 ≤ consumed by omega)
        have hmul := Nat.mul_le_mul_right (2 ^ consumed) hpos
        have hlt := h.mask_lt
        omega
      exact congrArg some (h.done hzero)
  | succ trips ih =>
      rw [Nat.succ_mul, Nat.add_comm (trips * k.k), ← Nat.add_assoc] at hlast hall
      have hlen := h.outLen_le
      obtain ⟨s', hbody, htrip⟩ := h.trip k (by omega)
      rw [forLoop, hbody, Option.bind_eq_bind, Option.bind_some]
      split
      · next hleave =>
          have hzero : s'.mask = 0#64 := beq_iff_eq.mp (Bool.and_eq_true_iff.mp hleave).2
          exact congrArg some (htrip.done hzero)
      · exact ih htrip hlast hall

theorem tripCount_bounds (k : LookupBits) :
    64 ≤ tripCount k.k * k.k ∧ tripCount k.k * k.k < 64 + k.k := by
  have hk := k.pos
  have hdiv := Nat.div_add_mod (64 + k.k - 1) k.k
  have hmod := Nat.mod_lt (64 + k.k - 1) (by omega : k.k > 0)
  rw [Nat.mul_comm] at hdiv
  rw [tripCount]
  omega

/-- While the mask is not empty a bit of it is missing from the output. -/
theorem Tripping.outLen_lt (h : Tripping mask₀ data₀ consumed s) (hne : s.mask ≠ 0#64) :
    s.outLen < 64 := by
  have hlen := h.extracting.len_le mask₀.isLt
  have hpos : 0 < s.mask.toNat.bitIndices.length := List.length_pos_iff.mpr fun hnil =>
    hne (BitVec.eq_of_toNat_eq (bitIndices_eq_nil_iff.mp hnil))
  omega

theorem whileLoop_eq (k : LookupBits) (s : Simu) {consumed : ℕ} (h : Tripping mask₀ data₀ consumed s) :
    (whileLoop k s).map Simu.out = some (BitVec.ofNat 64 (pext mask₀.toNat data₀.toNat)) := by
  fun_induction whileLoop k s generalizing consumed with
  | case1 s hne hbody =>
      obtain ⟨s', hsome, -⟩ := h.trip k (h.outLen_lt hne)
      cases hbody.symm.trans hsome
  | case2 s hne s' hbody hzero =>
      obtain ⟨t, hsome, htrip⟩ := h.trip k (h.outLen_lt hne)
      obtain rfl := Option.some.inj (hbody.symm.trans hsome)
      exact congrArg some (htrip.done hzero)
  | case3 s hne s' hbody hmore ih =>
      obtain ⟨t, hsome, htrip⟩ := h.trip k (h.outLen_lt hne)
      obtain rfl := Option.some.inj (hbody.symm.trans hsome)
      exact ih htrip
  | case4 s hzero => exact congrArg some (h.done (not_not.mp hzero))

/-- **The emulation is `pext` for every width.**  No lookup is out of range and no
shift is by 64 or more; bit `j` of the result is the bit of `data` at the `j`-th
lowest set position of `mask`, and 0 where there is none; without the early
`break`, and with the `while` loop, the result is the same. -/
theorem pextU64Simu_pext (k : LookupBits) (mask data : BitVec 64) :
    (∃ out, pextU64Simu k mask data = some out
      ∧ ∀ j, out.getLsbD j = if h : j < mask.toNat.bitIndices.length
          then data.getLsbD mask.toNat.bitIndices[j] else false)
    ∧ pextU64SimuFixed k mask data = pextU64Simu k mask data
    ∧ pextU64SimuWhile k mask data = pextU64Simu k mask data := by
  have hstart := Tripping.start mask data
  obtain ⟨hall, hlast⟩ := tripCount_bounds k
  rw [← Nat.zero_add (tripCount k.k * k.k)] at hall hlast
  have hsimu : pextU64Simu k mask data = _ := forLoop_eq true k hstart hlast hall
  have hfixed : pextU64SimuFixed k mask data = _ := forLoop_eq false k hstart hlast hall
  have hwhile : pextU64SimuWhile k mask data = _ := whileLoop_eq k _ hstart
  refine ⟨⟨_, hsimu, fun j => ?_⟩, hfixed.trans hsimu.symm, hwhile.trans hsimu.symm⟩
  have hlt : pext mask.toNat data.toNat < 2 ^ 64 := (pext_lt _ _).trans_le
    (Nat.pow_le_pow_right Nat.two_pos (length_bitIndices_le mask.isLt))
  rw [← BitVec.testBit_toNat, BitVec.toNat_ofNat, Nat.mod_eq_of_lt hlt, testBit_pext]
  simp only [BitVec.testBit_toNat]

end MyTests.Bmi
