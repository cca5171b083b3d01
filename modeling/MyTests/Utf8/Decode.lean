/-
MyTests/Utf8/Decode.lean

What the decoder accepts, and what the validation in `main` makes of it.

`decode_utf8` accepts patterns, of up to seven continuation bytes, unless their
value is one of those it rejects (`decodeUtf8_cases`).  The patterns that the
encoder writes are among them, so that encoded text decodes to itself
(`decodeText_encoded`).  But a pattern need not be the shortest for its value,
nor have at most six bytes, and the decoder asks for neither.
-/
import MyTests.Utf8.Pattern

namespace MyTests.Utf8

open Lib

/-! ### Bytes -/

/-- The number of high bits of a byte. -/
def highBits (c : ℕ) : ℕ :=
  if c < 0x80 then 0 else if c < 0xC0 then 1 else if c < 0xE0 then 2 else if c < 0xF0 then 3
  else if c < 0xF8 then 4 else if c < 0xFC then 5 else if c < 0xFE then 6 else if c < 0xFF then 7
  else 8

/-- `high_bits_set` counts them, within its rounds. -/
theorem highBitsSet_promote (c : Byte) : highBitsSet (promote c) = .ok (highBits c.toNat) := by
  have hbytes : ∀ c : Byte, highBitsSet (promote c) = .ok (highBits c.toNat) := by decide +kernel
  exact hbytes c

/-- The lead bytes of patterns with several bytes. -/
theorem highBits_eq {k c : ℕ} (h0 : 0 < k) (hk : k ≤ 7) (hc : c < 2 ^ 8) :
    highBits c = k + 1 ↔ leadMark k ≤ c ∧ c - leadMark k < 2 ^ (6 - k) := by
  have hbytes : ∀ k : Fin 8, 0 < k → ∀ c : Fin 256,
      highBits c = k.val + 1 ↔ leadMark k ≤ c ∧ c.val - leadMark k < 2 ^ (6 - k.val) := by
    decide +kernel
  exact hbytes ⟨k, Nat.lt_succ_of_le hk⟩ h0 ⟨c, hc⟩

theorem highBits_le (c : ℕ) : highBits c ≤ 8 := by
  unfold highBits
  split_ifs <;> decide

/-- The payload of a lead byte. -/
theorem toNat_leadBits {k : ℕ} {c : Byte} (h0 : 0 < k) (hk : k ≤ 7)
    (hc : highBits c.toNat = k + 1) :
    (toULong (promote c &&& 0xff#32 >>> (k + 1))).toNat = c.toNat - leadMark k := by
  have hbytes : ∀ k : Fin 8, ∀ c : Byte, highBits c.toNat = k.val + 1 → 0 < k →
      (toULong (promote c &&& 0xff#32 >>> (k.val + 1))).toNat = c.toNat - leadMark k := by
    decide +kernel
  exact hbytes ⟨k, Nat.lt_succ_of_le hk⟩ c hc h0

/-- `c` is of the form 10xxxxxx. -/
def IsContinuationByte (c : Byte) : Prop := continuation (c.toNat % 64) = c

theorem isContinuationByte_iff (c : Byte) :
    promote c &&& 0xc0#32 = 0x80#32 ↔ IsContinuationByte c := by
  have hbytes : ∀ c : Byte, promote c &&& 0xc0#32 = 0x80#32 ↔ continuation (c.toNat % 64) = c := by
    decide +kernel
  exact hbytes c

theorem toNat_continuationBits (c : Byte) : (toULong (promote c &&& 0x3f#32)).toNat = c.toNat % 64 := by
  have hbytes : ∀ c : Byte, (toULong (promote c &&& 0x3f#32)).toNat = c.toNat % 64 := by
    decide +kernel
  exact hbytes c

/-- The bits of a byte below the continuation mark. -/
def payload (c : Byte) : ℕ := c.toNat % 64

theorem payload_lt (c : Byte) : payload c < 64 := Nat.mod_lt _ (by decide)

theorem toNat_continuation {d : ℕ} (hd : d < 64) : (continuation d).toNat = 128 + d := by
  rw [continuation, BitVec.toNat_ofNat]
  omega

theorem payload_continuation {d : ℕ} (hd : d < 64) : payload (continuation d) = d := by
  rw [payload, toNat_continuation hd]
  omega

theorem isContinuationByte_continuation {d : ℕ} (hd : d < 64) :
    IsContinuationByte (continuation d) :=
  congrArg continuation (payload_continuation hd)

/-! ### The loop -/

variable {buf : List Byte}

theorem decodeLoop_succ {n j : ℕ} {code : ULong} (hj : j < buf.length) :
    decodeLoop buf (n + 1) j code =
      if promote buf[j] &&& 0xc0#32 = 0x80#32 then
        decodeLoop buf n (j + 1) ((code <<< 6) ||| toULong (promote buf[j] &&& 0x3f#32))
      else .ok none := by
  rw [decodeLoop, readAt_eq hj, ← ite_not]
  rfl

/-- A byte is shifted in, as long as there is room for it. -/
theorem toNat_shiftIn {code : ULong} (c : Byte) (hcode : (code.toNat + 1) * 64 ≤ 2 ^ 64) :
    ((code <<< 6) ||| toULong (promote c &&& 0x3f#32)).toNat = code.toNat * 64 + payload c := by
  have hfit : 64 * code.toNat < 2 ^ 64 := by omega
  have hor : 64 * code.toNat ||| payload c = 64 * code.toNat + payload c :=
    mark_or (i := 6) (payload_lt c)
  rw [BitVec.toNat_or, BitVec.toNat_shiftLeft, toNat_continuationBits, Nat.shiftLeft_eq,
    Nat.mul_comm]
  show 64 * code.toNat % 2 ^ 64 ||| payload c = _
  rw [Nat.mod_eq_of_lt hfit, hor, Nat.mul_comm]

/-- Inside the buffer, the loop shifts in every byte of its range, or stops at
one that is no continuation byte. -/
theorem decodeLoop_eq {n j : ℕ} {code : ULong} (hfit : j + n ≤ buf.length)
    (hcode : (code.toNat + 1) * 64 ^ n ≤ 2 ^ 64) :
    (∃ r : ULong, decodeLoop buf n j code = .ok (some r) ∧
      r.toNat = carry 64 code.toNat (((buf.drop j).take n).map payload) ∧
      ∀ c ∈ (buf.drop j).take n, IsContinuationByte c) ∨
    (decodeLoop buf n j code = .ok none ∧ ¬ ∀ c ∈ (buf.drop j).take n, IsContinuationByte c) := by
  induction n generalizing j code with
  | zero => exact Or.inl ⟨code, rfl, rfl, by simp⟩
  | succ n ih =>
      have hj : j < buf.length := by omega
      have htake : (buf.drop j).take (n + 1) = buf[j] :: (buf.drop (j + 1)).take n := by
        rw [List.drop_eq_getElem_cons hj, List.take_succ_cons]
      have hpos : 0 < 64 ^ n := Nat.pow_pos (by decide)
      -- there is room for this byte, and afterwards still for the rest
      have hone : (code.toNat + 1) * 64 ≤ 2 ^ 64 :=
        le_trans (Nat.mul_le_mul_left _ (by rw [Nat.pow_succ]; omega)) hcode
      have hin := toNat_shiftIn buf[j] hone
      have hnext : (code.toNat * 64 + payload buf[j] + 1) * 64 ^ n ≤ 2 ^ 64 := by
        have hlt := payload_lt buf[j]
        calc (code.toNat * 64 + payload buf[j] + 1) * 64 ^ n
            ≤ ((code.toNat + 1) * 64) * 64 ^ n := Nat.mul_le_mul_right _ (by omega)
          _ = (code.toNat + 1) * 64 ^ (n + 1) := by rw [Nat.mul_assoc, ← Nat.pow_succ']
          _ ≤ 2 ^ 64 := hcode
      rw [decodeLoop_succ hj, htake, List.forall_mem_cons, List.map_cons, carry_cons,
        ← isContinuationByte_iff, ← hin]
      by_cases hc : promote buf[j] &&& 0xc0#32 = 0x80#32
      · rw [if_pos hc]
        simpa only [hc, true_and] using ih (by omega) (by rwa [hin])
      · rw [if_neg hc]
        exact Or.inr ⟨rfl, fun h => hc h.1⟩

/-! ### One unit -/

theorem decodeUtf8_one (c : Byte) (rest : List Byte) :
    decodeUtf8 (c :: rest) 1
      = if c.toNat < 2 ^ 7 then .ok (BitVec.ofNat 64 c.toNat) else .ok invalidUtf8Char := by
  have hbytes : ∀ c : Byte, (0x80 ≤ promote c ↔ ¬ c.toNat < 2 ^ 7) ∧
      toULong (promote c) = BitVec.ofNat 64 c.toNat := by decide
  obtain ⟨hle, hcode⟩ := hbytes c
  show (if 0x80 ≤ promote c then Except.ok invalidUtf8Char else .ok (toULong (promote c))) = _
  simp only [hle, hcode, ite_not]

theorem decodeUtf8_many {c : Byte} {rest : List Byte} {k : ℕ} (h0 : 0 < k) :
    decodeUtf8 (c :: rest) ((k + 1 : ℕ) : ℤ) =
      if highBits c.toNat = k + 1 then
        decodeLoop (c :: rest) k 1 (toULong (promote c &&& 0xff#32 >>> (k + 1))) >>= fun r =>
          .ok (r.elim invalidUtf8Char checkCode)
      else .ok invalidUtf8Char := by
  unfold decodeUtf8
  rw [if_neg (by omega), if_neg (by omega)]
  show (highBitsSet (promote c) >>= fun i => _) = _
  rw [highBitsSet_promote]
  show (if ((highBits c.toNat : ℕ) : ℤ) ≠ ((k + 1 : ℕ) : ℤ) then _ else _) = _
  rw [ite_not]
  by_cases hhigh : highBits c.toNat = k + 1
  · rw [if_pos hhigh, if_pos (congrArg _ hhigh), hhigh, Int.toNat_natCast, Nat.add_sub_cancel]
  · rw [if_neg hhigh, if_neg (fun heq => hhigh (Int.natCast_inj.mp heq))]

/-- The payload of a lead byte leaves room for all that is shifted in. -/
theorem room {k x : ℕ} (hk : k ≤ 7) (hx : x < 2 ^ (6 - k)) : (x + 1) * 64 ^ k ≤ 2 ^ 64 :=
  calc (x + 1) * 64 ^ k ≤ 2 ^ 6 * 64 ^ 7 :=
        Nat.mul_le_mul (le_trans hx (Nat.pow_le_pow_right (by decide) (by omega)))
          (Nat.pow_le_pow_right (by decide) hk)
    _ ≤ 2 ^ 64 := by norm_num

/-- The lead byte of a pattern, read back. -/
theorem lead_eq {k v : ℕ} (h0 : 0 < k) (hk : k ≤ 7) (hv : v < capacity k) :
    (BitVec.ofNat 8 (leadMark k + v / 64 ^ k)).toNat = leadMark k + v / 64 ^ k ∧
      v / 64 ^ k < 2 ^ (6 - k) := by
  rw [capacity, if_neg h0.ne', Nat.mul_comm] at hv
  have hlt : v / 64 ^ k < 2 ^ (6 - k) := Nat.div_lt_of_lt_mul hv
  have hfit : ∀ k : Fin 8, 0 < k → leadMark k + 2 ^ (6 - k.val) ≤ 2 ^ 8 := by decide
  have hle : leadMark k + 2 ^ (6 - k) ≤ 2 ^ 8 := hfit ⟨k, Nat.lt_succ_of_le hk⟩ h0
  exact ⟨by rw [BitVec.toNat_ofNat]; exact Nat.mod_eq_of_lt (by omega), hlt⟩

/-- The decoder reads the value of a pattern, whatever follows it. -/
theorem decodeUtf8_pattern {k v : ℕ} (hk : k ≤ 7) (hv : v < capacity k) (rest : List Byte) :
    decodeUtf8 (pattern k v ++ rest) ((k + 1 : ℕ) : ℤ) = .ok (checkCode (BitVec.ofNat 64 v)) := by
  rcases k.eq_zero_or_pos with rfl | h0
  · have hv7 : v < 2 ^ 7 := hv
    have hlead : pattern 0 v = [BitVec.ofNat 8 v] := by simp [pattern, leadMark, digitsOf]
    have hbyte : (BitVec.ofNat 8 v).toNat = v := by
      rw [BitVec.toNat_ofNat]
      omega
    have hcheck : ∀ v : Fin 128, checkCode (BitVec.ofNat 64 v) = BitVec.ofNat 64 v := by
      decide
    rw [hlead]
    refine (decodeUtf8_one _ rest).trans ?_
    rw [hbyte, if_pos hv7]
    exact congrArg _ (hcheck ⟨v, hv7⟩).symm
  · obtain ⟨hbyte, hlt⟩ := lead_eq h0 hk hv
    have hread : (v / 64 ^ k) * 64 ^ k + v % 64 ^ k = v := by
      rw [Nat.mul_comm]
      exact Nat.div_add_mod v _
    have hpattern : pattern k v = BitVec.ofNat 8 (leadMark k + v / 64 ^ k) ::
        (digitsOf 64 k v).map continuation := rfl
    -- the lead byte `c` carries `x`, the continuation bytes the digits below it
    generalize v / 64 ^ k = x at hbyte hlt hread hpattern
    generalize BitVec.ofNat 8 (leadMark k + x) = c at hbyte hpattern
    have hhigh : highBits c.toNat = k + 1 := by
      rw [highBits_eq h0 hk c.isLt, hbyte]
      omega
    have hlead : (toULong (promote c &&& 0xff#32 >>> (k + 1))).toNat = x := by
      rw [toNat_leadBits h0 hk hhigh, hbyte]
      omega
    have hdigits : ∀ d ∈ digitsOf 64 k v, d < 64 := fun d hd => digit_lt (by decide) hd
    have htake : ((c :: ((digitsOf 64 k v).map continuation ++ rest)).drop 1).take k
        = (digitsOf 64 k v).map continuation := by
      rw [List.drop_one, List.tail_cons, List.take_left' (by simp)]
    have hpayload : ((digitsOf 64 k v).map continuation).map payload = digitsOf 64 k v := by
      rw [List.map_map]
      refine (List.map_congr_left fun d hd => ?_).trans (List.map_id _)
      exact payload_continuation (hdigits d hd)
    rw [hpattern, List.cons_append, decodeUtf8_many h0, if_pos hhigh]
    have hfit : 1 + k ≤ (c :: ((digitsOf 64 k v).map continuation ++ rest)).length := by
      simp only [List.length_cons, List.length_append, List.length_map, length_digitsOf]
      omega
    have hroom := room hk hlt
    rw [← hlead] at hroom
    obtain ⟨r, hloop, hr, -⟩ | ⟨-, hnot⟩ := decodeLoop_eq hfit hroom
    · rw [htake, hpayload, hlead, carry_digitsOf, hread] at hr
      rw [hloop]
      show Except.ok (checkCode r) = _
      rw [← hr, BitVec.ofNat_toNat, BitVec.setWidth_eq]
    · -- every byte that follows the lead byte of a pattern is a continuation byte
      refine absurd (fun b hb => ?_) hnot
      rw [htake] at hb
      obtain ⟨d, hd, rfl⟩ := List.mem_map.mp hb
      exact isContinuationByte_continuation (hdigits d hd)

/-- Anything but a pattern is rejected. -/
theorem decodeUtf8_cases (hne : buf ≠ []) :
    (∃ k ≤ 7, ∃ v < capacity k, buf = pattern k v) ∨
      decodeUtf8 buf buf.length = .ok invalidUtf8Char := by
  obtain ⟨c, rest, rfl⟩ := List.exists_cons_of_ne_nil hne
  rcases rest.length.eq_zero_or_pos with hnil | h0
  · obtain rfl := List.length_eq_zero_iff.mp hnil
    -- a single byte is a pattern when its high bit is clear
    by_cases hc : c.toNat < 2 ^ 7
    · refine Or.inl ⟨0, by decide, c.toNat, hc, ?_⟩
      simp [pattern, leadMark, digitsOf]
    · exact Or.inr ((decodeUtf8_one c []).trans (if_neg hc))
  · have hmany := @decodeUtf8_many c rest _ h0
    -- the lead byte must say as many bytes as there are
    by_cases hhigh : highBits c.toNat = rest.length + 1
    · have hk : rest.length ≤ 7 := by
        have hle := highBits_le c.toNat
        omega
      obtain ⟨hge, hlt⟩ := (highBits_eq h0 hk c.isLt).mp hhigh
      have hlead := toNat_leadBits h0 hk hhigh
      have htake : ((c :: rest).drop 1).take rest.length = rest := List.take_length
      have hroom := room hk hlt
      rw [← hlead] at hroom
      rw [if_pos hhigh] at hmany
      obtain ⟨r, -, -, hall⟩ | ⟨hloop, -⟩ := decodeLoop_eq (j := 1)
        (show 1 + rest.length ≤ (c :: rest).length by rw [List.length_cons]; omega) hroom
      · -- the pattern is that of the value read
        rw [htake] at hall
        have hpayload : ∀ d ∈ rest.map payload, d < 64 := by
          intro d hd
          obtain ⟨b, -, rfl⟩ := List.mem_map.mp hd
          exact payload_lt b
        have hdiv := carry_div (b := 64) (a := c.toNat - leadMark rest.length) (by decide) hpayload
        have hdigits := digitsOf_carry (b := 64) (a := c.toNat - leadMark rest.length) (by decide)
          hpayload
        rw [List.length_map] at hdiv hdigits
        generalize carry 64 (c.toNat - leadMark rest.length) (rest.map payload) = v at hdiv hdigits
        have hbytes : (rest.map payload).map continuation = rest := by
          rw [List.map_map]
          exact (List.map_congr_left fun b hb => hall b hb).trans (List.map_id _)
        refine Or.inl ⟨rest.length, hk, v, ?_, ?_⟩
        · rw [capacity, if_neg h0.ne', ← Nat.div_lt_iff_lt_mul (Nat.pow_pos (by decide)), hdiv]
          exact hlt
        · rw [pattern, hdiv, hdigits, hbytes, Nat.add_sub_cancel' hge, BitVec.ofNat_toNat,
            BitVec.setWidth_eq]
      · rw [hloop] at hmany
        exact Or.inr hmany
    · exact Or.inr (hmany.trans (if_neg hhigh))

/-! ### Text -/

/-- The values that the last checks of the decoder let through. -/
def Permitted (v : ℕ) : Prop := v ≠ 0xFFFE ∧ v ≠ 0xFFFF ∧ ¬ (0xD800 ≤ v ∧ v ≤ 0xDFFF)

instance : DecidablePred Permitted := fun _ => inferInstanceAs (Decidable (_ ∧ _))

theorem checkCode_eq (u : ULong) :
    checkCode u = if Permitted u.toNat then u else invalidUtf8Char := by
  have hfffe : u = 0xFFFE ↔ u.toNat = 0xFFFE := BitVec.toNat_inj.symm
  have hffff : u = 0xFFFF ↔ u.toNat = 0xFFFF := BitVec.toNat_inj.symm
  have hlow : 0xD800 ≤ u ↔ 0xD800 ≤ u.toNat := BitVec.le_def
  have hhigh : u ≤ 0xDFFF ↔ u.toNat ≤ 0xDFFF := BitVec.le_def
  simp only [checkCode, hfffe, hffff, hlow, hhigh]
  by_cases h1 : u.toNat = 0xFFFE
  · rw [if_pos h1, if_neg fun hp => hp.1 h1]
  by_cases h2 : u.toNat = 0xFFFF
  · rw [if_neg h1, if_pos h2, if_neg fun hp => hp.2.1 h2]
  by_cases h3 : 0xD800 ≤ u.toNat ∧ u.toNat ≤ 0xDFFF
  · rw [if_neg h1, if_neg h2, if_pos h3, if_neg fun hp => hp.2.2 h3]
  · rw [if_neg h1, if_neg h2, if_neg h3, if_pos ⟨h1, h2, h3⟩]

theorem invalidUtf8Char_toNat : invalidUtf8Char.toNat = 0xFFFFFFFF := rfl

/-- The bytes of an encoded value, wherever they are written. -/
theorem output_encodeUtf8 {k : ℕ} {u : ULong} (hk : k ≤ 5) (hs : Shortest k u.toNat)
    (mem : Memory) : output (encodeUtf8 u mem) = pattern k u.toNat := by
  have houtput := output_patch (pattern k u.toNat) mem
  rw [length_pattern] at houtput
  rw [encodeUtf8_pattern hk hs]
  exact houtput

/-- A lead byte tells the length of its unit. -/
theorem unitLength_pattern {k v : ℕ} (hk : k ≤ 7) (hv : v < capacity k) :
    ∃ c cs, pattern k v = c :: cs ∧ unitLength (highBits c.toNat) = k + 1 := by
  refine ⟨_, _, rfl, ?_⟩
  rcases k.eq_zero_or_pos with rfl | h0
  · have hv7 : v < 2 ^ 7 := hv
    have hbyte : (BitVec.ofNat 8 (leadMark 0 + v / 64 ^ 0)).toNat = v := by
      rw [BitVec.toNat_ofNat, leadMark, if_pos rfl, Nat.zero_add, Nat.pow_zero, Nat.div_one]
      omega
    rw [hbyte, highBits, if_pos (show v < 0x80 from hv7)]
    rfl
  · obtain ⟨hbyte, hlt⟩ := lead_eq h0 hk hv
    have hhigh : highBits (BitVec.ofNat 8 (leadMark k + v / 64 ^ k)).toNat = k + 1 := by
      rw [highBits_eq h0 hk (BitVec.isLt _), hbyte, Nat.add_sub_cancel_left]
      exact ⟨Nat.le_add_right _ _, hlt⟩
    rw [hhigh, unitLength, if_neg (Nat.succ_ne_zero k)]

/-- One round of the validation loop, on an encoded value. -/
theorem mainLoop_unit {before rest : List Byte} {u : ULong} (hu : u.toNat ≤ 0x7FFFFFFF)
    (hp : Permitted u.toNat) (mem : Memory) (fuel : ℕ) (decoded : List ULong) :
    mainLoop (before ++ (output (encodeUtf8 u mem) ++ rest)) (fuel + 1) before.length decoded
      = mainLoop (before ++ (output (encodeUtf8 u mem) ++ rest)) fuel
          (before ++ output (encodeUtf8 u mem)).length (decoded ++ [u]) := by
  obtain ⟨k, hk, hs⟩ := exists_shortest (Nat.lt_succ_of_le hu)
  have hk7 : k ≤ 7 := hk.trans (by decide)
  rw [output_encodeUtf8 hk hs]
  obtain ⟨c, cs, hcs, hunit⟩ := unitLength_pattern hk7 hs.1
  set data := before ++ (pattern k u.toNat ++ rest) with hdata
  have hlt : before.length < data.length := by
    rw [hdata, hcs]
    simp
  have hlead : data[before.length] = c := by
    simp [hdata, hcs]
  have hdrop : data.drop before.length = pattern k u.toNat ++ rest := List.drop_left
  have hdecode : decodeUtf8 (data.drop before.length) ((k + 1 : ℕ) : ℤ) = .ok u := by
    rw [hdrop, decodeUtf8_pattern hk7 hs.1, BitVec.ofNat_toNat, BitVec.setWidth_eq, checkCode_eq,
      if_pos hp]
  -- the value for errors is above all that is encoded
  have hvalid : u ≠ invalidUtf8Char := fun h => by
    rw [h, invalidUtf8Char_toNat] at hu
    omega
  rw [mainLoop, if_pos hlt, readAt_eq hlt, hlead]
  show (highBitsSet (promote c) >>= fun n => _) = _
  rw [highBitsSet_promote]
  show (decodeUtf8 (data.drop before.length) (unitLength (highBits c.toNat) : ℕ) >>= fun code => _) = _
  rw [hunit, hdecode]
  show (if u = invalidUtf8Char then _ else _) = _
  rw [if_neg hvalid, List.length_append, length_pattern]

/-- The text of encoded values. -/
def encodedText (calls : List (ULong × Memory)) : List Byte :=
  calls.flatMap fun c => output (encodeUtf8Quick c.1 c.2)

/-- The loop takes the units of an encoded text one by one. -/
theorem mainLoop_encoded {calls : List (ULong × Memory)}
    (hcalls : ∀ c ∈ calls, c.1.toNat ≤ 0x7FFFFFFF ∧ Permitted c.1.toNat) (before : List Byte)
    {fuel : ℕ} (decoded : List ULong) (hfuel : (encodedText calls).length < fuel) :
    mainLoop (before ++ encodedText calls) fuel before.length decoded
      = .ok ((before ++ encodedText calls).length, decoded ++ calls.map Prod.fst) := by
  induction calls generalizing before fuel decoded with
  | nil =>
      obtain ⟨fuel, rfl⟩ : ∃ n, fuel = n + 1 := ⟨fuel - 1, by omega⟩
      have hdone : before ++ encodedText [] = before := List.append_nil before
      rw [hdone, mainLoop, if_neg (lt_irrefl _), List.map_nil, List.append_nil]
  | cons c calls ih =>
      obtain ⟨⟨hle, hp⟩, hrest⟩ := List.forall_mem_cons.mp hcalls
      obtain ⟨fuel, rfl⟩ : ∃ n, fuel = n + 1 := ⟨fuel - 1, by omega⟩
      have htext : encodedText (c :: calls)
          = output (encodeUtf8 c.1 c.2) ++ encodedText calls := by
        rw [← encodeUtf8Quick_eq_encodeUtf8]
        rfl
      have hunit : 0 < (output (encodeUtf8 c.1 c.2)).length := by
        obtain ⟨k, hk, hs⟩ := exists_shortest (Nat.lt_succ_of_le hle)
        rw [output_encodeUtf8 hk hs, length_pattern]
        exact Nat.succ_pos k
      -- every unit has a byte, so the fuel lasts
      rw [htext, List.length_append] at hfuel
      rw [htext, mainLoop_unit hle hp, ← List.append_assoc, ih hrest _ _ (by omega), List.map_cons,
        List.append_assoc decoded, List.singleton_append]

/-- **Encoded text decodes back.**  For every list of permitted values, each
encoded into any memory, the validation loop consumes the text exactly and
finds the list. -/
theorem decodeText_encoded (calls : List (ULong × Memory))
    (hcalls : ∀ c ∈ calls, c.1.toNat ≤ 0x7FFFFFFF ∧ Permitted c.1.toNat) :
    decodeText (encodedText calls) = .ok ((encodedText calls).length, calls.map Prod.fst) :=
  mainLoop_encoded hcalls [] [] (Nat.lt_succ_self _)

theorem decodeText_encoded_cases :
    decodeText (encodedText [(0x7F, fun _ => 0), (0xFFFD, fun _ => 0), (0x7FFFFFFF, fun _ => 0)])
      = .ok (10, [0x7F, 0xFFFD, 0x7FFFFFFF]) :=
  decodeText_encoded [(0x7F, fun _ => 0), (0xFFFD, fun _ => 0), (0x7FFFFFFF, fun _ => 0)]
    (by simp [Permitted])

/-! ### What is accepted -/

/-- `decode_utf8(buf, n)`, on a buffer of `n` bytes, differs from
`INVALID_UTF8_CHAR`. -/
def Accepts (buf : List Byte) (code : ULong) : Prop :=
  decodeUtf8 buf buf.length = .ok code ∧ code ≠ invalidUtf8Char

/-- The bytes are the encoding of `u`. -/
def Encodes (u : ULong) (buf : List Byte) : Prop :=
  u.toNat ≤ 0x7FFFFFFF ∧ Permitted u.toNat ∧ ∀ mem, output (encodeUtf8 u mem) = buf

/-- The bytes are a pattern of a value that is let through, and either longer
than six bytes or longer than the value needs. -/
def Overlong (buf : List Byte) : Prop :=
  ∃ k ≤ 7, ∃ v < capacity k, buf = pattern k v ∧ (Permitted v ∧ v ≠ 0xFFFFFFFF) ∧
    (6 ≤ k ∨ ∃ j < k, v < capacity j)

theorem toNat_ofNat_of_lt_capacity {k v : ℕ} (hk : k ≤ 7) (hv : v < capacity k) :
    (BitVec.ofNat 64 v).toNat = v := by
  have hcap : ∀ k : Fin 8, capacity k < 2 ^ 64 := by decide
  have hlt : capacity k < 2 ^ 64 := hcap ⟨k, Nat.lt_succ_of_le hk⟩
  rw [BitVec.toNat_ofNat]
  exact Nat.mod_eq_of_lt (hv.trans hlt)

/-- A pattern is accepted when its value is let through. -/
theorem accepts_pattern {k v : ℕ} (hk : k ≤ 7) (hv : v < capacity k) {code : ULong} :
    Accepts (pattern k v) code ↔
      code = BitVec.ofNat 64 v ∧ Permitted v ∧ v ≠ 0xFFFFFFFF := by
  have hdecode := decodeUtf8_pattern hk hv []
  have hnat := toNat_ofNat_of_lt_capacity hk hv
  have hvalid : BitVec.ofNat 64 v ≠ invalidUtf8Char ↔ v ≠ 0xFFFFFFFF := by
    rw [ne_eq, ← BitVec.toNat_inj, hnat, invalidUtf8Char_toNat]
  rw [List.append_nil, checkCode_eq, hnat] at hdecode
  rw [Accepts, length_pattern, hdecode, Except.ok.injEq]
  by_cases hp : Permitted v
  · rw [if_pos hp]
    constructor
    · rintro ⟨rfl, hne⟩
      exact ⟨rfl, hp, hvalid.mp hne⟩
    · rintro ⟨rfl, -, hne⟩
      exact ⟨rfl, hvalid.mpr hne⟩
  · rw [if_neg hp]
    exact iff_of_false (fun h => h.2 h.1.symm) fun h => hp h.2.1

/-- The encodings are the shortest patterns. -/
theorem encodes_iff {u : ULong} {buf : List Byte} :
    Encodes u buf ↔ ∃ k ≤ 5, Shortest k u.toNat ∧ Permitted u.toNat ∧ buf = pattern k u.toNat := by
  constructor
  · rintro ⟨hle, hp, houtput⟩
    obtain ⟨k, hk, hs⟩ := exists_shortest (Nat.lt_succ_of_le hle)
    exact ⟨k, hk, hs, hp, by rw [← houtput fun _ => 0, output_encodeUtf8 hk hs]⟩
  · rintro ⟨k, hk, hs, hp, rfl⟩
    have hcap : ∀ k : Fin 6, capacity k ≤ 2 ^ 31 := by decide
    have hle : capacity k ≤ 2 ^ 31 := hcap ⟨k, Nat.lt_succ_of_le hk⟩
    have hlt := hs.1
    exact ⟨by omega, hp, output_encodeUtf8 hk hs⟩

/-- Only patterns are accepted. -/
theorem Accepts.exists_pattern {code : ULong} (ha : Accepts buf code) :
    ∃ k ≤ 7, ∃ v < capacity k, buf = pattern k v := by
  obtain ⟨hdecode, hne⟩ := ha
  by_cases hnil : buf = []
  · subst hnil
    exact absurd (Except.ok.inj hdecode).symm hne
  · obtain hpattern | hinvalid := decodeUtf8_cases hnil
    · exact hpattern
    · rw [hinvalid] at hdecode
      exact absurd (Except.ok.inj hdecode).symm hne

/-- An encoding is accepted as the value that it encodes. -/
theorem Encodes.accepts {u : ULong} (he : Encodes u buf) : Accepts buf u := by
  have hle := he.1
  obtain ⟨k, hk, hs, hp, rfl⟩ := encodes_iff.mp he
  refine (accepts_pattern (hk.trans (by decide)) hs.1).mpr ⟨?_, hp, by omega⟩
  rw [BitVec.ofNat_toNat, BitVec.setWidth_eq]

/-- **What the decoder accepts.**  It accepts a buffer exactly when the buffer
encodes a permitted value, which it then returns, so that encoding again gives
the buffer: unless the buffer is overlong, when it does not. -/
theorem decodeUtf8_faithful_iff (buf : List Byte) :
    (((∃ code, Accepts buf code) ↔ ∃ u, Encodes u buf) ∧
      ∀ code, Accepts buf code →
        code.toNat ≤ 0x7FFFFFFF ∧ ∀ mem, output (encodeUtf8 code mem) = buf) ↔
    ¬ Overlong buf := by
  constructor
  · rintro ⟨hiff, -⟩ ⟨k, hk, v, hv, rfl, hvalid, hlong⟩
    have haccepts : Accepts (pattern k v) (BitVec.ofNat 64 v) :=
      (accepts_pattern hk hv).mpr ⟨rfl, hvalid⟩
    obtain ⟨u, he⟩ := hiff.mp ⟨_, haccepts⟩
    -- the shortest pattern of `u` is this one, of the same length and the same value
    have hu : u.toNat = v := by
      rw [((accepts_pattern hk hv).mp he.accepts).1, toNat_ofNat_of_lt_capacity hk hv]
    obtain ⟨j, hj, hs, -, heq⟩ := encodes_iff.mp he
    have hjk : k = j := by simpa using congrArg List.length heq
    subst hjk
    rcases hlong with h6 | ⟨i, hi, hlt⟩
    · omega
    · exact absurd hlt (hu ▸ hs.2 i hi).not_gt
  · intro hshort
    have hencodes : ∀ code, Accepts buf code → Encodes code buf := by
      intro code ha
      obtain ⟨k, hk, v, hv, rfl⟩ := ha.exists_pattern
      obtain ⟨rfl, hvalid⟩ := (accepts_pattern hk hv).mp ha
      have hnot : ¬ (6 ≤ k ∨ ∃ j < k, v < capacity j) := fun hlong =>
        hshort ⟨k, hk, v, hv, rfl, hvalid, hlong⟩
      obtain ⟨h6, hleast⟩ := not_or.mp hnot
      refine encodes_iff.mpr ⟨k, by omega, ?_⟩
      rw [toNat_ofNat_of_lt_capacity hk hv]
      exact ⟨⟨hv, fun j hj => not_lt.mp fun hlt => hleast ⟨j, hj, hlt⟩⟩, hvalid.1, rfl⟩
    exact ⟨⟨fun ⟨code, ha⟩ => ⟨code, hencodes code ha⟩, fun ⟨u, he⟩ => ⟨u, he.accepts⟩⟩,
      fun code ha => ⟨(hencodes code ha).1, (hencodes code ha).2.2⟩⟩

/-- The two bytes C0 80 are accepted as 0, which is encoded as one byte. -/
theorem decodeUtf8_overlong_zero :
    (∃ code, Accepts [0xC0, 0x80] code) ∧ ¬ ∃ u, Encodes u [0xC0, 0x80] := by
  refine ⟨⟨0, by decide, by decide⟩, fun ⟨u, he⟩ => ?_⟩
  have hzero : Accepts [0xC0, 0x80] 0 := ⟨by decide, by decide⟩
  have hu : u = 0 := Except.ok.inj (he.accepts.1.symm.trans hzero.1)
  have houtput := he.2.2 fun _ => 0
  rw [hu] at houtput
  exact absurd houtput (by decide)

end MyTests.Utf8
