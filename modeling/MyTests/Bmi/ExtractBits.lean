/-
MyTests/Bmi/ExtractBits.lean

`ExtractBitsGo` of `go/bmi/bmi.go`, the portable `_pext_u64`.

Both words are consumed in chunks of `lookupBits` bits.  The value of a chunk is
one byte of the hand-written table, and goes above what the chunks before it
gave.  An all-ones and an all-zero mask take a shortcut.

The table holds `pext` of its two indices (`pextTable_eq`), so a turn of the loop
is the chunk rule of an extraction in progress.  64 is not a multiple of 5: the
last chunk has zeros above the end of the word in both the mask and the data.
-/
import MyTests.Lib.BitSelect

namespace MyTests.Bmi

open MyTests.Lib

/-! ### The table -/

def lookupBits : ℕ := 5

/-- `[1 << lookupBits][1 << lookupBits]uint8`, by mask and data. -/
def pextTable : Vector (Vector (BitVec 8) 32) 32 := #v[
  #v[0x00, 0x00, 0x00, 0x00, 0x00, 0x00, 0x00, 0x00, 0x00, 0x00, 0x00, 0x00, 0x00, 0x00, 0x00, 0x00,
     0x00, 0x00, 0x00, 0x00, 0x00, 0x00, 0x00, 0x00, 0x00, 0x00, 0x00, 0x00, 0x00, 0x00, 0x00, 0x00],
  #v[0x00, 0x01, 0x00, 0x01, 0x00, 0x01, 0x00, 0x01, 0x00, 0x01, 0x00, 0x01, 0x00, 0x01, 0x00, 0x01,
     0x00, 0x01, 0x00, 0x01, 0x00, 0x01, 0x00, 0x01, 0x00, 0x01, 0x00, 0x01, 0x00, 0x01, 0x00, 0x01],
  #v[0x00, 0x00, 0x01, 0x01, 0x00, 0x00, 0x01, 0x01, 0x00, 0x00, 0x01, 0x01, 0x00, 0x00, 0x01, 0x01,
     0x00, 0x00, 0x01, 0x01, 0x00, 0x00, 0x01, 0x01, 0x00, 0x00, 0x01, 0x01, 0x00, 0x00, 0x01, 0x01],
  #v[0x00, 0x01, 0x02, 0x03, 0x00, 0x01, 0x02, 0x03, 0x00, 0x01, 0x02, 0x03, 0x00, 0x01, 0x02, 0x03,
     0x00, 0x01, 0x02, 0x03, 0x00, 0x01, 0x02, 0x03, 0x00, 0x01, 0x02, 0x03, 0x00, 0x01, 0x02, 0x03],
  #v[0x00, 0x00, 0x00, 0x00, 0x01, 0x01, 0x01, 0x01, 0x00, 0x00, 0x00, 0x00, 0x01, 0x01, 0x01, 0x01,
     0x00, 0x00, 0x00, 0x00, 0x01, 0x01, 0x01, 0x01, 0x00, 0x00, 0x00, 0x00, 0x01, 0x01, 0x01, 0x01],
  #v[0x00, 0x01, 0x00, 0x01, 0x02, 0x03, 0x02, 0x03, 0x00, 0x01, 0x00, 0x01, 0x02, 0x03, 0x02, 0x03,
     0x00, 0x01, 0x00, 0x01, 0x02, 0x03, 0x02, 0x03, 0x00, 0x01, 0x00, 0x01, 0x02, 0x03, 0x02, 0x03],
  #v[0x00, 0x00, 0x01, 0x01, 0x02, 0x02, 0x03, 0x03, 0x00, 0x00, 0x01, 0x01, 0x02, 0x02, 0x03, 0x03,
     0x00, 0x00, 0x01, 0x01, 0x02, 0x02, 0x03, 0x03, 0x00, 0x00, 0x01, 0x01, 0x02, 0x02, 0x03, 0x03],
  #v[0x00, 0x01, 0x02, 0x03, 0x04, 0x05, 0x06, 0x07, 0x00, 0x01, 0x02, 0x03, 0x04, 0x05, 0x06, 0x07,
     0x00, 0x01, 0x02, 0x03, 0x04, 0x05, 0x06, 0x07, 0x00, 0x01, 0x02, 0x03, 0x04, 0x05, 0x06, 0x07],
  #v[0x00, 0x00, 0x00, 0x00, 0x00, 0x00, 0x00, 0x00, 0x01, 0x01, 0x01, 0x01, 0x01, 0x01, 0x01, 0x01,
     0x00, 0x00, 0x00, 0x00, 0x00, 0x00, 0x00, 0x00, 0x01, 0x01, 0x01, 0x01, 0x01, 0x01, 0x01, 0x01],
  #v[0x00, 0x01, 0x00, 0x01, 0x00, 0x01, 0x00, 0x01, 0x02, 0x03, 0x02, 0x03, 0x02, 0x03, 0x02, 0x03,
     0x00, 0x01, 0x00, 0x01, 0x00, 0x01, 0x00, 0x01, 0x02, 0x03, 0x02, 0x03, 0x02, 0x03, 0x02, 0x03],
  #v[0x00, 0x00, 0x01, 0x01, 0x00, 0x00, 0x01, 0x01, 0x02, 0x02, 0x03, 0x03, 0x02, 0x02, 0x03, 0x03,
     0x00, 0x00, 0x01, 0x01, 0x00, 0x00, 0x01, 0x01, 0x02, 0x02, 0x03, 0x03, 0x02, 0x02, 0x03, 0x03],
  #v[0x00, 0x01, 0x02, 0x03, 0x00, 0x01, 0x02, 0x03, 0x04, 0x05, 0x06, 0x07, 0x04, 0x05, 0x06, 0x07,
     0x00, 0x01, 0x02, 0x03, 0x00, 0x01, 0x02, 0x03, 0x04, 0x05, 0x06, 0x07, 0x04, 0x05, 0x06, 0x07],
  #v[0x00, 0x00, 0x00, 0x00, 0x01, 0x01, 0x01, 0x01, 0x02, 0x02, 0x02, 0x02, 0x03, 0x03, 0x03, 0x03,
     0x00, 0x00, 0x00, 0x00, 0x01, 0x01, 0x01, 0x01, 0x02, 0x02, 0x02, 0x02, 0x03, 0x03, 0x03, 0x03],
  #v[0x00, 0x01, 0x00, 0x01, 0x02, 0x03, 0x02, 0x03, 0x04, 0x05, 0x04, 0x05, 0x06, 0x07, 0x06, 0x07,
     0x00, 0x01, 0x00, 0x01, 0x02, 0x03, 0x02, 0x03, 0x04, 0x05, 0x04, 0x05, 0x06, 0x07, 0x06, 0x07],
  #v[0x00, 0x00, 0x01, 0x01, 0x02, 0x02, 0x03, 0x03, 0x04, 0x04, 0x05, 0x05, 0x06, 0x06, 0x07, 0x07,
     0x00, 0x00, 0x01, 0x01, 0x02, 0x02, 0x03, 0x03, 0x04, 0x04, 0x05, 0x05, 0x06, 0x06, 0x07, 0x07],
  #v[0x00, 0x01, 0x02, 0x03, 0x04, 0x05, 0x06, 0x07, 0x08, 0x09, 0x0A, 0x0B, 0x0C, 0x0D, 0x0E, 0x0F,
     0x00, 0x01, 0x02, 0x03, 0x04, 0x05, 0x06, 0x07, 0x08, 0x09, 0x0A, 0x0B, 0x0C, 0x0D, 0x0E, 0x0F],
  #v[0x00, 0x00, 0x00, 0x00, 0x00, 0x00, 0x00, 0x00, 0x00, 0x00, 0x00, 0x00, 0x00, 0x00, 0x00, 0x00,
     0x01, 0x01, 0x01, 0x01, 0x01, 0x01, 0x01, 0x01, 0x01, 0x01, 0x01, 0x01, 0x01, 0x01, 0x01, 0x01],
  #v[0x00, 0x01, 0x00, 0x01, 0x00, 0x01, 0x00, 0x01, 0x00, 0x01, 0x00, 0x01, 0x00, 0x01, 0x00, 0x01,
     0x02, 0x03, 0x02, 0x03, 0x02, 0x03, 0x02, 0x03, 0x02, 0x03, 0x02, 0x03, 0x02, 0x03, 0x02, 0x03],
  #v[0x00, 0x00, 0x01, 0x01, 0x00, 0x00, 0x01, 0x01, 0x00, 0x00, 0x01, 0x01, 0x00, 0x00, 0x01, 0x01,
     0x02, 0x02, 0x03, 0x03, 0x02, 0x02, 0x03, 0x03, 0x02, 0x02, 0x03, 0x03, 0x02, 0x02, 0x03, 0x03],
  #v[0x00, 0x01, 0x02, 0x03, 0x00, 0x01, 0x02, 0x03, 0x00, 0x01, 0x02, 0x03, 0x00, 0x01, 0x02, 0x03,
     0x04, 0x05, 0x06, 0x07, 0x04, 0x05, 0x06, 0x07, 0x04, 0x05, 0x06, 0x07, 0x04, 0x05, 0x06, 0x07],
  #v[0x00, 0x00, 0x00, 0x00, 0x01, 0x01, 0x01, 0x01, 0x00, 0x00, 0x00, 0x00, 0x01, 0x01, 0x01, 0x01,
     0x02, 0x02, 0x02, 0x02, 0x03, 0x03, 0x03, 0x03, 0x02, 0x02, 0x02, 0x02, 0x03, 0x03, 0x03, 0x03],
  #v[0x00, 0x01, 0x00, 0x01, 0x02, 0x03, 0x02, 0x03, 0x00, 0x01, 0x00, 0x01, 0x02, 0x03, 0x02, 0x03,
     0x04, 0x05, 0x04, 0x05, 0x06, 0x07, 0x06, 0x07, 0x04, 0x05, 0x04, 0x05, 0x06, 0x07, 0x06, 0x07],
  #v[0x00, 0x00, 0x01, 0x01, 0x02, 0x02, 0x03, 0x03, 0x00, 0x00, 0x01, 0x01, 0x02, 0x02, 0x03, 0x03,
     0x04, 0x04, 0x05, 0x05, 0x06, 0x06, 0x07, 0x07, 0x04, 0x04, 0x05, 0x05, 0x06, 0x06, 0x07, 0x07],
  #v[0x00, 0x01, 0x02, 0x03, 0x04, 0x05, 0x06, 0x07, 0x00, 0x01, 0x02, 0x03, 0x04, 0x05, 0x06, 0x07,
     0x08, 0x09, 0x0A, 0x0B, 0x0C, 0x0D, 0x0E, 0x0F, 0x08, 0x09, 0x0A, 0x0B, 0x0C, 0x0D, 0x0E, 0x0F],
  #v[0x00, 0x00, 0x00, 0x00, 0x00, 0x00, 0x00, 0x00, 0x01, 0x01, 0x01, 0x01, 0x01, 0x01, 0x01, 0x01,
     0x02, 0x02, 0x02, 0x02, 0x02, 0x02, 0x02, 0x02, 0x03, 0x03, 0x03, 0x03, 0x03, 0x03, 0x03, 0x03],
  #v[0x00, 0x01, 0x00, 0x01, 0x00, 0x01, 0x00, 0x01, 0x02, 0x03, 0x02, 0x03, 0x02, 0x03, 0x02, 0x03,
     0x04, 0x05, 0x04, 0x05, 0x04, 0x05, 0x04, 0x05, 0x06, 0x07, 0x06, 0x07, 0x06, 0x07, 0x06, 0x07],
  #v[0x00, 0x00, 0x01, 0x01, 0x00, 0x00, 0x01, 0x01, 0x02, 0x02, 0x03, 0x03, 0x02, 0x02, 0x03, 0x03,
     0x04, 0x04, 0x05, 0x05, 0x04, 0x04, 0x05, 0x05, 0x06, 0x06, 0x07, 0x07, 0x06, 0x06, 0x07, 0x07],
  #v[0x00, 0x01, 0x02, 0x03, 0x00, 0x01, 0x02, 0x03, 0x04, 0x05, 0x06, 0x07, 0x04, 0x05, 0x06, 0x07,
     0x08, 0x09, 0x0A, 0x0B, 0x08, 0x09, 0x0A, 0x0B, 0x0C, 0x0D, 0x0E, 0x0F, 0x0C, 0x0D, 0x0E, 0x0F],
  #v[0x00, 0x00, 0x00, 0x00, 0x01, 0x01, 0x01, 0x01, 0x02, 0x02, 0x02, 0x02, 0x03, 0x03, 0x03, 0x03,
     0x04, 0x04, 0x04, 0x04, 0x05, 0x05, 0x05, 0x05, 0x06, 0x06, 0x06, 0x06, 0x07, 0x07, 0x07, 0x07],
  #v[0x00, 0x01, 0x00, 0x01, 0x02, 0x03, 0x02, 0x03, 0x04, 0x05, 0x04, 0x05, 0x06, 0x07, 0x06, 0x07,
     0x08, 0x09, 0x08, 0x09, 0x0A, 0x0B, 0x0A, 0x0B, 0x0C, 0x0D, 0x0C, 0x0D, 0x0E, 0x0F, 0x0E, 0x0F],
  #v[0x00, 0x00, 0x01, 0x01, 0x02, 0x02, 0x03, 0x03, 0x04, 0x04, 0x05, 0x05, 0x06, 0x06, 0x07, 0x07,
     0x08, 0x08, 0x09, 0x09, 0x0A, 0x0A, 0x0B, 0x0B, 0x0C, 0x0C, 0x0D, 0x0D, 0x0E, 0x0E, 0x0F, 0x0F],
  #v[0x00, 0x01, 0x02, 0x03, 0x04, 0x05, 0x06, 0x07, 0x08, 0x09, 0x0A, 0x0B, 0x0C, 0x0D, 0x0E, 0x0F,
     0x10, 0x11, 0x12, 0x13, 0x14, 0x15, 0x16, 0x17, 0x18, 0x19, 0x1A, 0x1B, 0x1C, 0x1D, 0x1E, 0x1F]]

/-- **Every byte of the table is the extraction of its data index under its mask
index.** -/
theorem pextTable_eq (mask data : Fin 32) :
    pextTable[mask][data] = BitVec.ofNat 8 (scan mask data lookupBits).1 := by
  revert mask data
  decide +kernel

/-! ### The loop -/

/-- `uint64((uint(1) << lookupBits) - 1)`. -/
def lookupMask : BitVec 64 := (1#64 <<< lookupBits) - 1#64

theorem toNat_and_lookupMask (x : BitVec 64) : (x &&& lookupMask).toNat = x.toNat % 2 ^ lookupBits := by
  rw [BitVec.toNat_and]
  exact Nat.and_two_pow_sub_one_eq_mod x.toNat 5

/-- The table index `x & lookupMask`. -/
def chunk (x : BitVec 64) : Fin 32 :=
  ⟨(x &&& lookupMask).toNat, toNat_and_lookupMask x ▸ Nat.mod_lt _ (Nat.two_pow_pos 5)⟩

@[simp] theorem val_chunk (x : BitVec 64) : (chunk x : ℕ) = x.toNat % 2 ^ lookupBits :=
  toNat_and_lookupMask x

/-- `bits.OnesCount32`. -/
def onesCount32 (x : BitVec 32) : ℕ := x.cpop.toNat

/-- `for selectBitmap != 0`, from `bitValue` and `bitLen` on. -/
def extractLoop (bitmap selectBitmap bitValue : BitVec 64) (bitLen : ℕ) : BitVec 64 :=
  if selectBitmap ≠ 0 then
    let maskLen := onesCount32 ((selectBitmap &&& lookupMask).setWidth 32)
    let value := pextTable[chunk selectBitmap][chunk bitmap]
    extractLoop (bitmap >>> lookupBits) (selectBitmap >>> lookupBits)
      (bitValue ||| value.setWidth 64 <<< bitLen) (bitLen + maskLen)
  else bitValue
termination_by selectBitmap.toNat
decreasing_by
  rw [BitVec.toNat_ushiftRight, Nat.shiftRight_eq_div_pow]
  exact Nat.div_lt_self (Nat.pos_of_ne_zero fun h0 => ‹selectBitmap ≠ 0› (BitVec.eq_of_toNat_eq h0))
    (by decide)

/-- `ExtractBitsGo`. -/
def extractBitsGo (bitmap selectBitmap : BitVec 64) : BitVec 64 :=
  if selectBitmap = ~~~0#64 then bitmap
  else if selectBitmap = 0#64 then 0#64
  else extractLoop bitmap selectBitmap 0#64 0

/-! ### The loop is `pext` -/

theorem onesCount32_chunk (x : BitVec 64) : onesCount32 ((x &&& lookupMask).setWidth 32)
    = (x.toNat % 2 ^ lookupBits).bitIndices.length := by
  have hlt : x.toNat % 2 ^ lookupBits < 2 ^ 32 :=
    (Nat.mod_lt _ (Nat.two_pow_pos 5)).trans (by decide)
  rw [onesCount32, toNat_cpop_eq_length, BitVec.toNat_setWidth, toNat_and_lookupMask,
    Nat.mod_eq_of_lt hlt]

theorem toNat_pextTable (selectBitmap bitmap : BitVec 64) :
    (pextTable[chunk selectBitmap][chunk bitmap].setWidth 64).toNat
      = pext (selectBitmap.toNat % 2 ^ lookupBits) (bitmap.toNat % 2 ^ lookupBits) := by
  have hmod : selectBitmap.toNat % 2 ^ lookupBits % 2 ^ lookupBits
      = selectBitmap.toNat % 2 ^ lookupBits := Nat.mod_mod _ _
  have hlt : pext (selectBitmap.toNat % 2 ^ lookupBits) (bitmap.toNat % 2 ^ lookupBits) < 2 ^ 5 :=
    (pext_lt _ _).trans_le (Nat.pow_le_pow_right Nat.two_pos
      (length_bitIndices_le (Nat.mod_lt _ (Nat.two_pow_pos 5))))
  rw [pextTable_eq, scan_eq, val_chunk, val_chunk, hmod, BitVec.toNat_setWidth, BitVec.toNat_ofNat,
    Nat.mod_eq_of_lt (hlt.trans (by decide)), Nat.mod_eq_of_lt (hlt.trans (by decide))]

/-- The loop finishes an extraction in progress. -/
theorem extractLoop_eq {mask₀ data₀ : BitVec 64} (bitmap selectBitmap bitValue : BitVec 64)
    (bitLen : ℕ) (h : Extracting mask₀.toNat data₀.toNat selectBitmap.toNat bitmap.toNat
      bitValue.toNat bitLen) :
    (extractLoop bitmap selectBitmap bitValue bitLen).toNat = pext mask₀.toNat data₀.toNat := by
  fun_induction extractLoop bitmap selectBitmap bitValue bitLen with
  | case1 bitmap selectBitmap bitValue bitLen hne maskLen value ih =>
      refine ih ?_
      rw [show maskLen = _ from onesCount32_chunk selectBitmap]
      exact h.chunkWord mask₀.isLt (toNat_pextTable selectBitmap bitmap)
  | case2 bitmap selectBitmap bitValue bitLen hzero =>
      rw [not_not.mp hzero] at h
      exact h.done

theorem toNat_extractLoop (bitmap selectBitmap : BitVec 64) :
    (extractLoop bitmap selectBitmap 0#64 0).toNat = pext selectBitmap.toNat bitmap.toNat :=
  extractLoop_eq bitmap selectBitmap 0#64 0 (Extracting.start _ _)

/-- The two shortcuts return what the loop would. -/
theorem extractBitsGo_eq_extractLoop (bitmap selectBitmap : BitVec 64) :
    extractBitsGo bitmap selectBitmap = extractLoop bitmap selectBitmap 0#64 0 := by
  rw [extractBitsGo]
  split
  · next hones =>
      refine BitVec.eq_of_toNat_eq ?_
      rw [toNat_extractLoop, hones]
      exact (pext_low_ones bitmap.isLt).symm
  · split
    · next hzero =>
        refine BitVec.eq_of_toNat_eq ?_
        rw [toNat_extractLoop, hzero]
        exact (pext_zero_left _).symm
    · rfl

theorem toNat_extractBitsGo (bitmap selectBitmap : BitVec 64) :
    (extractBitsGo bitmap selectBitmap).toNat = pext selectBitmap.toNat bitmap.toNat := by
  rw [extractBitsGo_eq_extractLoop, toNat_extractLoop]

/-- **The portable bit extractor is `pext`.**  Bit `j` of the result is the bit of
`bitmap` at the `j`-th lowest set position of `selectBitmap`, and 0 where the
mask has no more positions; both shortcuts agree with the loop. -/
theorem extractBitsGo_pext (bitmap selectBitmap : BitVec 64) :
    (∀ j, (extractBitsGo bitmap selectBitmap).getLsbD j
      = if h : j < selectBitmap.toNat.bitIndices.length
          then bitmap.getLsbD selectBitmap.toNat.bitIndices[j] else false)
    ∧ extractBitsGo bitmap selectBitmap = extractLoop bitmap selectBitmap 0#64 0
    ∧ (∀ d, extractLoop d (~~~0#64) 0#64 0 = d) ∧ ∀ d, extractLoop d 0#64 0#64 0 = 0#64 := by
  refine ⟨fun j => ?_, extractBitsGo_eq_extractLoop bitmap selectBitmap, fun d => ?_, fun d => ?_⟩
  · rw [← BitVec.testBit_toNat, toNat_extractBitsGo, testBit_pext]
    simp only [BitVec.testBit_toNat]
  · rw [← extractBitsGo_eq_extractLoop, extractBitsGo, if_pos rfl]
  · rw [← extractBitsGo_eq_extractLoop, extractBitsGo, if_neg (by decide), if_pos rfl]

end MyTests.Bmi
