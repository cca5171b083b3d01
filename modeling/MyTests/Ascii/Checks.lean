/-
MyTests/Ascii/Checks.lean

`ascii_u64` and `ascii_neon` of `ascii.c`.

A pointer is an offset into the buffer, and a load that leaves the buffer gives no
result.  Both routines gather the bytes by `|`: `ascii_u64` in two words of eight
bytes, `ascii_neon` in two vectors of sixteen, and the rest byte by byte.  What
matters of an accumulator is whether a top bit is set in it, and that is a
statement about the bytes gathered so far (`Clean`).

A length is not negative here: the tests `len >= 16` and `len--` of the source are
those of an `int` that starts at 0 or above.
-/
import MyTests.Lib.LittleEndian

namespace MyTests.Ascii

open MyTests.Lib

/-! ### Loads -/

/-- `*(const uint64_t *)p`. -/
def load64 (buf : List (BitVec 8)) (p : ℕ) : Option (BitVec 64) :=
  if p + 8 ≤ buf.length then some (word64 fun i => buf.getD (p + i) 0#8) else none

/-- `uint8x16_t`, by lanes. -/
abbrev U8x16 := Fin 16 → BitVec 8

/-- `vld1q_u8`. -/
def vld1q (buf : List (BitVec 8)) (p : ℕ) : Option U8x16 :=
  if p + 16 ≤ buf.length then some fun i => buf.getD (p + i) 0#8 else none

/-- `vdupq_n_u8`. -/
def vdupq (x : BitVec 8) : U8x16 := fun _ => x

/-- `vorrq_u8`. -/
def vorrq (a b : U8x16) : U8x16 := fun i => a i ||| b i

/-- `vmaxvq_u8`. -/
def vmaxvq (a : U8x16) : ℕ := (List.ofFn fun i => (a i).toNat).foldl max 0

/-! ### The checks -/

/-- The locals of a block loop; `α` is the type of the accumulators. -/
structure Blocks (α : Type) where
  data : ℕ
  data2 : ℕ
  len : ℕ
  or1 : α
  or2 : α

/-- The body of the `do` loop. -/
def u64Body (buf : List (BitVec 8)) (s : Blocks (BitVec 64)) : Option (Blocks (BitVec 64)) := do
  let w1 ← load64 buf s.data
  let w2 ← load64 buf s.data2
  some ⟨s.data + 16, s.data2 + 16, s.len - 16, s.or1 ||| w1, s.or2 ||| w2⟩

theorem u64Body_len {buf : List (BitVec 8)} {s s' : Blocks (BitVec 64)} (h : u64Body buf s = some s') :
    s'.len = s.len - 16 := by
  simp only [u64Body, Option.bind_eq_bind, Option.bind_eq_some_iff, Option.some.injEq] at h
  obtain ⟨-, -, -, -, rfl⟩ := h
  rfl

/-- `do { ... } while (len >= 16)`. -/
def u64Loop (buf : List (BitVec 8)) (s : Blocks (BitVec 64)) : Option (Blocks (BitVec 64)) :=
  match _h : u64Body buf s with
  | none => none
  | some s' => if _hlen : 16 ≤ s'.len then u64Loop buf s' else some s'
termination_by s.len
decreasing_by
  rw [u64Body_len _h] at _hlen ⊢
  omega

/-- `while (len--) orall |= *data++`. -/
def tailLoop (buf : List (BitVec 8)) : ℕ → ℕ → BitVec 8 → Option (BitVec 8)
  | 0, _, orall => some orall
  | len + 1, data, orall => do
      let b ← buf[data]?
      tailLoop buf len (data + 1) (orall ||| b)

/-- `!x` of a word, an `int`. -/
def bang (x : BitVec 64) : ℤ := if x = 0#64 then 1 else 0

/-- `ascii_u64`. -/
def asciiU64 (buf : List (BitVec 8)) (data len : ℕ) : Option ℕ := do
  if 16 ≤ len then
    let s ← u64Loop buf ⟨data, data + 8, len, 0#64, 0#64⟩
    let orall := BitVec.ofInt 8 (bang ((s.or1 ||| s.or2) &&& 0x8080808080808080#64) - 1)
    let orall ← tailLoop buf s.len s.data orall
    return (decide (orall < 0x80#8)).toNat
  else
    let orall ← tailLoop buf len data 0#8
    return (decide (orall < 0x80#8)).toNat

/-- `while (len >= 32)`. -/
def neonLoop (buf : List (BitVec 8)) (s : Blocks U8x16) : Option (Blocks U8x16) :=
  if 32 ≤ s.len then do
    let input1 ← vld1q buf s.data
    let input2 ← vld1q buf s.data2
    neonLoop buf ⟨s.data + 32, s.data2 + 32, s.len - 32, vorrq s.or1 input1, vorrq s.or2 input2⟩
  else some s
termination_by s.len

/-- `ascii_neon`. -/
def asciiNeon (buf : List (BitVec 8)) (data len : ℕ) : Option ℕ := do
  if 32 ≤ len then
    let s ← neonLoop buf ⟨data, data + 16, len, vdupq 0#8, vdupq 0#8⟩
    if 0x80 ≤ vmaxvq (vorrq s.or1 s.or2) then return 0
    asciiU64 buf s.data s.len
  else asciiU64 buf data len

/-! ### Clean stretches -/

/-- The bytes from `a` to `b` are below 0x80. -/
def Clean (buf : List (BitVec 8)) (a b : ℕ) : Prop := ∀ i, a ≤ i → i < b → buf.getD i 0#8 < 0x80#8

variable {buf : List (BitVec 8)} {a b c : ℕ}

theorem clean_append (hab : a ≤ b) (hbc : b ≤ c) : Clean buf a c ↔ Clean buf a b ∧ Clean buf b c := by
  constructor
  · exact fun h => ⟨fun i ha hb => h i ha (hb.trans_le hbc), fun i hb hc => h i (hab.trans hb) hc⟩
  · rintro ⟨hl, hr⟩ i ha hc
    rcases Nat.lt_or_ge i b with hb | hb
    · exact hl i ha hb
    · exact hr i hb hc

theorem clean_iff_forall_lt (p n : ℕ) :
    Clean buf p (p + n) ↔ ∀ i < n, buf.getD (p + i) 0#8 < 0x80#8 := by
  constructor
  · exact fun h i hi => h _ (Nat.le_add_right _ _) (Nat.add_lt_add_left hi p)
  · intro h i hp hi
    have hi' := h (i - p) (by omega)
    rwa [Nat.add_sub_cancel' hp] at hi'

theorem clean_length : Clean buf 0 buf.length ↔ ∀ x ∈ buf, x < 0x80#8 := by
  rw [← Nat.zero_add buf.length, clean_iff_forall_lt]
  constructor
  · intro h x hx
    obtain ⟨i, hi, rfl⟩ := List.getElem_of_mem hx
    simpa [List.getD_eq_getElem, hi] using h i hi
  · intro h i hi
    rw [Nat.zero_add, List.getD_eq_getElem _ _ hi]
    exact h _ (List.getElem_mem hi)

/-! ### Accumulators -/

theorem or_lt_iff (x y : BitVec 8) : x ||| y < 0x80#8 ↔ x < 0x80#8 ∧ y < 0x80#8 := by
  have h : ∀ x : BitVec 8, x < 0x80#8 ↔ x &&& 0x80#8 = 0#8 := by decide +kernel
  rw [h, h, h, BitVec.and_or_distrib_right, BitVec.or_eq_zero_iff]

/-- The top bits of a word. -/
def tops (w : BitVec 64) : BitVec 64 := w &&& 0x8080808080808080#64

theorem tops_or (x y : BitVec 64) : tops (x ||| y) = 0#64 ↔ tops x = 0#64 ∧ tops y = 0#64 := by
  rw [tops, BitVec.and_or_distrib_right, BitVec.or_eq_zero_iff]
  rfl

theorem load64_clean {p : ℕ} (h : p + 8 ≤ buf.length) :
    ∃ w, load64 buf p = some w ∧ (tops w = 0#64 ↔ Clean buf p (p + 8)) := by
  refine ⟨_, if_pos h, ?_⟩
  rw [tops, word64_msb_eq_zero, clean_iff_forall_lt]

/-- No lane has its top bit set. -/
def Quiet (v : U8x16) : Prop := ∀ i, v i < 0x80#8

theorem quiet_vorrq (x y : U8x16) : Quiet (vorrq x y) ↔ Quiet x ∧ Quiet y := by
  simp only [Quiet, vorrq, or_lt_iff]
  exact forall_and

theorem quiet_vdupq : Quiet (vdupq 0#8) := by
  intro i
  show 0#8 < 0x80#8
  decide

theorem vmaxvq_lt_iff (v : U8x16) : vmaxvq v < 0x80 ↔ Quiet v := by
  have hmax : ∀ (l : List ℕ) (a : ℕ), l.foldl max a < 0x80 ↔ a < 0x80 ∧ ∀ x ∈ l, x < 0x80 := by
    intro l
    induction l with
    | nil => simp
    | cons x l ih =>
        intro a
        rw [List.foldl_cons, ih, max_lt_iff, List.forall_mem_cons, and_assoc]
  rw [vmaxvq, hmax, List.forall_mem_ofFn_iff]
  exact ⟨fun h i => BitVec.lt_def.mpr (h.2 i), fun h => ⟨by decide, fun i => BitVec.lt_def.mp (h i)⟩⟩

theorem vld1q_clean {p : ℕ} (h : p + 16 ≤ buf.length) :
    ∃ v, vld1q buf p = some v ∧ (Quiet v ↔ Clean buf p (p + 16)) := by
  refine ⟨_, if_pos h, ?_⟩
  rw [clean_iff_forall_lt]
  exact ⟨fun hv i hi => hv ⟨i, hi⟩, fun hv i => hv i i.isLt⟩

/-! ### The loops -/

/-- A block of `n` bytes is gathered in two halves. -/
theorem clean_block {p n : ℕ} :
    Clean buf p (p + (n + n)) ↔ Clean buf p (p + n) ∧ Clean buf (p + n) (p + n + n) := by
  rw [← Nat.add_assoc]
  exact clean_append (Nat.le_add_right _ _) (Nat.le_add_right _ _)

theorem u64Body_spec {s : Blocks (BitVec 64)} (hlen : 16 ≤ s.len) (hdata2 : s.data2 = s.data + 8)
    (hbuf : s.data + s.len ≤ buf.length) :
    ∃ s', u64Body buf s = some s' ∧ s'.data = s.data + 16 ∧ s'.data2 = s'.data + 8
      ∧ s'.len = s.len - 16
      ∧ (tops (s'.or1 ||| s'.or2) = 0#64 ↔ tops (s.or1 ||| s.or2) = 0#64 ∧ Clean buf s.data s'.data) := by
  obtain ⟨w1, hw1, hclean1⟩ := load64_clean (show s.data + 8 ≤ buf.length by omega)
  obtain ⟨w2, hw2, hclean2⟩ := load64_clean (show s.data2 + 8 ≤ buf.length by omega)
  refine ⟨⟨s.data + 16, s.data2 + 16, s.len - 16, s.or1 ||| w1, s.or2 ||| w2⟩, ?_, rfl, ?_, rfl, ?_⟩
  · rw [u64Body, hw1, hw2]
    rfl
  · rw [hdata2, Nat.add_right_comm]
  · rw [tops_or, tops_or, tops_or, tops_or, hclean1, hclean2, hdata2]
    show _ ↔ _ ∧ Clean buf s.data (s.data + (8 + 8))
    rw [clean_block]
    exact and_and_and_comm

/-- **The word loop.**  It stops with less than a block left, and its accumulators
have no top bit set just when they had none and the bytes between are clean. -/
theorem u64Loop_spec {s : Blocks (BitVec 64)} (hlen : 16 ≤ s.len) (hdata2 : s.data2 = s.data + 8)
    (hbuf : s.data + s.len ≤ buf.length) :
    ∃ s', u64Loop buf s = some s' ∧ s.data ≤ s'.data ∧ s'.data + s'.len = s.data + s.len
      ∧ (tops (s'.or1 ||| s'.or2) = 0#64 ↔ tops (s.or1 ||| s.or2) = 0#64 ∧ Clean buf s.data s'.data) := by
  fun_induction u64Loop buf s with
  | case1 s h =>
      obtain ⟨s', hbody, -⟩ := u64Body_spec hlen hdata2 hbuf
      cases h.symm.trans hbody
  | case2 s s' h hmore ih =>
      obtain ⟨t, hbody, hdata, hdata2', hlen', htops⟩ := u64Body_spec hlen hdata2 hbuf
      obtain rfl := Option.some.inj (h.symm.trans hbody)
      obtain ⟨r, hloop, hle, hsum, hclean⟩ := ih hmore hdata2' (by omega)
      refine ⟨r, hloop, by omega, by omega, ?_⟩
      rw [hclean, htops, clean_append (by omega : s.data ≤ s'.data) hle, and_assoc]
  | case3 s s' h hstop =>
      obtain ⟨t, hbody, hdata, -, hlen', htops⟩ := u64Body_spec hlen hdata2 hbuf
      obtain rfl := Option.some.inj (h.symm.trans hbody)
      exact ⟨s', rfl, by omega, by omega, htops⟩

/-- **The byte loop.** -/
theorem tailLoop_spec {len data : ℕ} (orall : BitVec 8) (hbuf : data + len ≤ buf.length) :
    ∃ r, tailLoop buf len data orall = some r
      ∧ (r < 0x80#8 ↔ orall < 0x80#8 ∧ Clean buf data (data + len)) := by
  induction len generalizing data orall with
  | zero => exact ⟨orall, rfl, (and_iff_left fun i ha hb => absurd hb (Nat.not_lt.mpr ha)).symm⟩
  | succ len ih =>
      have hdata : data < buf.length := by omega
      obtain ⟨r, hrun, hr⟩ := ih (orall ||| buf[data]) (by omega : data + 1 + len ≤ buf.length)
      refine ⟨r, ?_, ?_⟩
      · rw [tailLoop, List.getElem?_eq_getElem hdata]
        exact hrun
      · have hone : Clean buf data (data + 1) ↔ buf[data] < 0x80#8 := by
          rw [clean_iff_forall_lt, Nat.forall_lt_succ_left]
          simp [List.getElem?_eq_getElem hdata]
        rw [hr, or_lt_iff, Nat.add_comm len 1, ← Nat.add_assoc,
          clean_append (Nat.le_succ data) (Nat.le_add_right _ _), hone, and_assoc]

/-- The flag that the word loop leaves for the byte loop. -/
theorem flag_lt_iff (w : BitVec 64) : BitVec.ofInt 8 (bang (tops w) - 1) < 0x80#8 ↔ tops w = 0#64 := by
  rw [bang]
  split
  · next h => exact ⟨fun _ => h, fun _ => by decide⟩
  · next h => exact ⟨fun hlt => absurd hlt (by decide), fun h' => absurd h' h⟩

/-! ### Both checks are exact -/

/-- The check of the bytes from `data` to `data + len`. -/
theorem asciiU64_spec {data len : ℕ} (hbuf : data + len ≤ buf.length) :
    ∃ ok : Bool, asciiU64 buf data len = some ok.toNat ∧ (ok = true ↔ Clean buf data (data + len)) := by
  rw [asciiU64]
  split
  · next hlen =>
      obtain ⟨s, hloop, hle, hsum, hclean⟩ :=
        u64Loop_spec (s := ⟨data, data + 8, len, 0#64, 0#64⟩) hlen rfl hbuf
      have hrest : s.data + s.len ≤ buf.length := hsum.trans_le hbuf
      -- the flag of the blocks is where the loop over the tail starts
      obtain ⟨r, htail, hr⟩ :=
        tailLoop_spec (BitVec.ofInt 8 (bang (tops (s.or1 ||| s.or2)) - 1)) hrest
      refine ⟨decide (r < 0x80#8), ?_, ?_⟩
      · rw [hloop]
        show (tailLoop buf s.len s.data
          (BitVec.ofInt 8 (bang (tops (s.or1 ||| s.or2)) - 1))).bind _ = _
        rw [htail]
        rfl
      · rw [decide_eq_true_iff, hr, flag_lt_iff, hclean, ← hsum,
          clean_append hle (Nat.le_add_right _ _), and_iff_right (by decide : tops (0#64 ||| 0#64) = 0#64)]
  · obtain ⟨r, htail, hr⟩ := tailLoop_spec (0#8) hbuf
    refine ⟨decide (r < 0x80#8), ?_, ?_⟩
    · rw [htail]
      rfl
    · rw [decide_eq_true_iff, hr, and_iff_right (by decide : 0#8 < 0x80#8)]

/-- **The vector loop.** -/
theorem neonLoop_spec {s : Blocks U8x16} (hdata2 : s.data2 = s.data + 16)
    (hbuf : s.data + s.len ≤ buf.length) :
    ∃ s', neonLoop buf s = some s' ∧ s.data ≤ s'.data ∧ s'.data + s'.len = s.data + s.len
      ∧ (Quiet (vorrq s'.or1 s'.or2) ↔ Quiet (vorrq s.or1 s.or2) ∧ Clean buf s.data s'.data) := by
  fun_induction neonLoop buf s with
  | case1 s hmore ih =>
      obtain ⟨v1, hv1, hclean1⟩ := vld1q_clean (show s.data + 16 ≤ buf.length by omega)
      obtain ⟨v2, hv2, hclean2⟩ := vld1q_clean (show s.data2 + 16 ≤ buf.length by omega)
      have hnext := ih v1 v2
      dsimp only at hnext
      obtain ⟨r, hloop, hle, hsum, hquiet⟩ := hnext (by omega) (by omega)
      -- a round reads two vectors, one behind the other
      have hblock : Clean buf s.data (s.data + 32) ↔ Quiet v1 ∧ Quiet v2 := by
        rw [hclean1, hclean2, hdata2]
        exact clean_block (n := 16)
      refine ⟨r, ?_, by omega, by omega, ?_⟩
      · rw [hv1, hv2]
        exact hloop
      · simp only [quiet_vorrq] at hquiet ⊢
        rw [hquiet, clean_append (Nat.le_add_right s.data 32) hle, hblock]
        rw [and_and_and_comm, and_assoc]
  | case2 s hstop =>
      exact ⟨s, rfl, le_rfl, rfl, (and_iff_left fun i ha hb => absurd hb (Nat.not_lt.mpr ha)).symm⟩

theorem asciiNeon_spec {data len : ℕ} (hbuf : data + len ≤ buf.length) :
    ∃ ok : Bool, asciiNeon buf data len = some ok.toNat ∧ (ok = true ↔ Clean buf data (data + len)) := by
  rw [asciiNeon]
  split
  · next hlen =>
      obtain ⟨s, hloop, hle, hsum, hquiet⟩ :=
        neonLoop_spec (s := ⟨data, data + 16, len, vdupq 0#8, vdupq 0#8⟩) rfl hbuf
      have hstart : Quiet (vorrq (vdupq 0#8) (vdupq 0#8)) :=
        (quiet_vorrq _ _).mpr ⟨quiet_vdupq, quiet_vdupq⟩
      have hclean : Clean buf data (data + len)
          ↔ Quiet (vorrq s.or1 s.or2) ∧ Clean buf s.data (s.data + s.len) := by
        rw [hquiet, and_iff_right hstart, ← hsum]
        exact clean_append hle (Nat.le_add_right _ _)
      simp only [Option.bind_eq_bind, hloop, Option.bind_some]
      split
      -- a high bit in the blocks: the rest is not looked at
      · next hbad =>
          refine ⟨false, rfl, iff_of_false Bool.false_ne_true fun h => ?_⟩
          have hlt := (vmaxvq_lt_iff _).mpr (hclean.mp h).1
          omega
      · next hgood =>
          obtain ⟨ok, hrun, hok⟩ := asciiU64_spec (hsum.trans_le hbuf)
          refine ⟨ok, hrun, ?_⟩
          rw [hok, hclean, and_iff_right ((vmaxvq_lt_iff _).mp (Nat.lt_of_not_le hgood))]
  · exact asciiU64_spec hbuf

/-- **The vectorised checks are exact.**  On a buffer of any length both stay inside
it and return 1 just when all its bytes are below 0x80. -/
theorem checks_exact (buf : List (BitVec 8)) :
    asciiU64 buf 0 buf.length = some (if ∀ x ∈ buf, x < 0x80#8 then 1 else 0)
    ∧ asciiNeon buf 0 buf.length = some (if ∀ x ∈ buf, x < 0x80#8 then 1 else 0) := by
  have hvalue : ∀ {ok : Bool}, (ok = true ↔ Clean buf 0 (0 + buf.length)) →
      ok.toNat = if ∀ x ∈ buf, x < 0x80#8 then 1 else 0 := by
    intro ok hok
    rw [Nat.zero_add, clean_length] at hok
    cases ok with
    | false => exact (if_neg (hok.not.mp Bool.false_ne_true)).symm
    | true => exact (if_pos (hok.mp rfl)).symm
  have hbuf : 0 + buf.length ≤ buf.length := (Nat.zero_add _).le
  obtain ⟨ok, hrun, hok⟩ := asciiU64_spec hbuf
  obtain ⟨ok', hrun', hok'⟩ := asciiNeon_spec hbuf
  rw [hrun, hrun', hvalue hok, hvalue hok']
  exact ⟨rfl, rfl⟩

end MyTests.Ascii
