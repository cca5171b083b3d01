/-
MyTests/Utf8/Ceph.lean

The UTF-8 codec of Ceph: `src/ceph-utf8/ceph-utf8.c`, with the original encoder,
the optimised one, the decoder, and the validation that `main` runs on them.

An encoder writes into memory: `Memory` is what stands at and after the pointer
`buf`, without an end, so that a write behind the six bytes would be seen.  The
decoder reads from a buffer with an end (`readAt`); a pointer into the text is
the text from there on.

Main result: the two encoders are equal, on every 64-bit input and all of memory
(`encodeUtf8Quick_eq`).
-/
import MyTests.Utf8.Buffer

namespace MyTests.Utf8

/-- `unsigned long`. -/
abbrev ULong := BitVec 64

/-- The bytes from `buf` on. -/
abbrev Memory := ℕ → Byte

def invalidUtf8Char : ULong := 0xffffffff

/-- An `unsigned char` in an integer expression. -/
def promote (c : Byte) : BitVec 32 := c.zeroExtend 32

/-- An `int` where an `unsigned long` is wanted. -/
def toULong (x : BitVec 32) : ULong := x.signExtend 64

/-! ### `high_bits_set` -/

/-- `while (1)`, for an `int`. -/
def highBitsLoop : ℕ → BitVec 32 → ℕ → Except Halt ℕ
  | 0, _, _ => .error .outOfFuel
  | fuel + 1, c, ret =>
      if c &&& 0x80#32 ≠ 0x80#32 then .ok ret else highBitsLoop fuel (c <<< 1) (ret + 1)

/-- `high_bits_set(c)`: after eight shifts the tested bit is 0. -/
def highBitsSet (c : BitVec 32) : Except Halt ℕ := highBitsLoop 9 c 0

/-! ### The encoders -/

def maxVal : List ULong := [0x0000007f, 0x000007ff, 0x0000ffff, 0x001fffff, 0x03ffffff, 0x7fffffff]

/-- `buf[i] = value`, which keeps the low eight bits. -/
def store (buf : Memory) (i : ℕ) (value : ULong) : Memory :=
  Function.update buf i (value.setWidth 8)

/-- `for (j = i; j > 0; --j)`, with the value that is left. -/
def encodeLoop : ℕ → ULong → Memory → ULong × Memory
  | 0, u, buf => (u, buf)
  | j + 1, u, buf => encodeLoop j (u >>> 6) (store buf (j + 1) (0x80#64 ||| (u &&& 0x3f#64)))

/-- `~(0xFF >> (i + 1))`, as an `unsigned char`. -/
def leadMask (i : ℕ) : Byte := (~~~(0xFF#32 >>> (i + 1))).setWidth 8

/-- The return value, and the memory afterwards. -/
def encodeUtf8 (u : ULong) (buf : Memory) : ℤ × Memory :=
  let i := maxVal.findIdx fun m => u ≤ m
  if i = maxVal.length then (-1, buf)
  else if i = 0 then (i + 1, store buf 0 u)
  else
    let (rest, buf) := encodeLoop i u buf
    (i + 1, store buf 0 ((leadMask i).setWidth 64 ||| rest))

def encodeUtf8Quick (u : ULong) (buf : Memory) : ℤ × Memory :=
  if u ≤ 0x0000007F then (1, store buf 0 u)
  else if u ≤ 0x000007FF then
    let buf := store buf 0 (0xC0#64 ||| (u >>> 6))
    let buf := store buf 1 (0x80#64 ||| (u &&& 0x3F#64))
    (2, buf)
  else if u ≤ 0x0000FFFF then
    let buf := store buf 0 (0xE0#64 ||| (u >>> 12))
    let buf := store buf 1 (0x80#64 ||| ((u >>> 6) &&& 0x3F#64))
    let buf := store buf 2 (0x80#64 ||| (u &&& 0x3F#64))
    (3, buf)
  else if u ≤ 0x001FFFFF then
    let buf := store buf 0 (0xF0#64 ||| (u >>> 18))
    let buf := store buf 1 (0x80#64 ||| ((u >>> 12) &&& 0x3F#64))
    let buf := store buf 2 (0x80#64 ||| ((u >>> 6) &&& 0x3F#64))
    let buf := store buf 3 (0x80#64 ||| (u &&& 0x3F#64))
    (4, buf)
  else if u ≤ 0x03FFFFFF then
    let (rest, buf) := encodeLoop 4 u buf
    (5, store buf 0 (0xF8#64 ||| rest))
  else if u ≤ 0x7FFFFFFF then
    let (rest, buf) := encodeLoop 5 u buf
    (6, store buf 0 (0xFC#64 ||| rest))
  else (-1, buf)

/-! ### The decoder -/

/-- The `for` loop over `j`: `n` more bytes; `none` where it returns
`INVALID_UTF8_CHAR`. -/
def decodeLoop (buf : List Byte) : ℕ → ℕ → ULong → Except Halt (Option ULong)
  | 0, _, code => .ok (some code)
  | n + 1, j, code => do
      let c ← readAt buf j
      if promote c &&& 0xc0#32 ≠ 0x80#32 then .ok none
      else decodeLoop buf n (j + 1) ((code <<< 6) ||| toULong (promote c &&& 0x3f#32))

/-- The checks at the end of `decode_utf8`. -/
def checkCode (code : ULong) : ULong :=
  if code = 0xFFFE then invalidUtf8Char
  else if code = 0xFFFF then invalidUtf8Char
  else if 0xD800 ≤ code ∧ code ≤ 0xDFFF then invalidUtf8Char
  else code

def decodeUtf8 (buf : List Byte) (nbytes : ℤ) : Except Halt ULong :=
  if nbytes ≤ 0 then .ok invalidUtf8Char
  else if nbytes = 1 then do
    let c ← readAt buf 0
    if 0x80 ≤ promote c then .ok invalidUtf8Char else .ok (toULong (promote c))
  else do
    let c ← readAt buf 0
    let i ← highBitsSet (promote c)
    if (i : ℤ) ≠ nbytes then .ok invalidUtf8Char
    else do
      let r ← decodeLoop buf (nbytes.toNat - 1) 1 (toULong (promote c &&& 0xff#32 >>> i))
      .ok (r.elim invalidUtf8Char checkCode)

/-! ### The validation in `main` -/

/-- `n += !n`. -/
def unitLength (n : ℕ) : ℕ := n + if n = 0 then 1 else 0

/-- `while (data2 < data2_end)`; the place where it stops, and what is decoded. -/
def mainLoop (data : List Byte) : ℕ → ℕ → List ULong → Except Halt (ℕ × List ULong)
  | 0, _, _ => .error .outOfFuel
  | fuel + 1, data2, decoded =>
      if data2 < data.length then do
        let c ← readAt data data2
        let n ← highBitsSet (promote c)
        let code ← decodeUtf8 (data.drop data2) (unitLength n)
        if code = invalidUtf8Char then .error (.assertion "*decoded2 != INVALID_UTF8_CHAR")
        else mainLoop data fuel (data2 + unitLength n) (decoded ++ [code])
      else .ok (data2, decoded)

/-- The decode loop on the text `data`. -/
def decodeText (data : List Byte) : Except Halt (ℕ × List ULong) :=
  mainLoop data (data.length + 1) 0 []

/-- The bytes that an encoder returns. -/
def output (r : ℤ × Memory) : List Byte := (List.range r.1.toNat).map r.2

/-! ### The two encoders -/

theorem findIdx_maxVal (u : ULong) : (maxVal.findIdx fun m => u ≤ m) =
    if u ≤ 0x7f then 0 else if u ≤ 0x7ff then 1 else if u ≤ 0xffff then 2
      else if u ≤ 0x1fffff then 3 else if u ≤ 0x3ffffff then 4 else if u ≤ 0x7fffffff then 5
      else 6 := by
  simp only [maxVal, List.findIdx_cons, List.findIdx_nil, cond_eq_ite, decide_eq_true_eq]
  split_ifs <;> rfl

/-- Stores at different places commute. -/
theorem store_comm {buf : Memory} {i j : ℕ} {x y : ULong} (hij : i ≠ j) :
    store (store buf i x) j y = store (store buf j y) i x :=
  Function.update_comm hij _ _ _

theorem shiftRight_shiftRight (u : ULong) (m n : ℕ) : u >>> m >>> n = u >>> (m + n) :=
  (BitVec.shiftRight_add u m n).symm

/-- The lead byte and the stores of a unit of several bytes. -/
theorem encodeUtf8_eq_loop {u : ULong} {buf : Memory} {i : ℕ}
    (hi : (maxVal.findIdx fun m => u ≤ m) = i) (h0 : 0 < i) (h6 : i < 6) :
    encodeUtf8 u buf = ((i : ℤ) + 1, store (encodeLoop i u buf).2 0
      ((leadMask i).setWidth 64 ||| (encodeLoop i u buf).1)) := by
  have hlength : i ≠ maxVal.length := by
    show i ≠ 6
    omega
  unfold encodeUtf8
  simp only [hi, if_neg hlength, if_neg h0.ne']

/-- **The optimised encoder is the original one**, in its return value and in
all that it stores. -/
theorem encodeUtf8Quick_eq_encodeUtf8 (u : ULong) (buf : Memory) :
    encodeUtf8Quick u buf = encodeUtf8 u buf := by
  have hidx := findIdx_maxVal u
  unfold encodeUtf8Quick
  -- one case for each branch; the loop stores from the last byte to the first
  by_cases h1 : u ≤ 0x7f
  · rw [if_pos h1] at hidx ⊢
    simp only [encodeUtf8, hidx]
    rfl
  rw [if_neg h1] at hidx ⊢
  by_cases h2 : u ≤ 0x7ff
  · rw [if_pos h2] at hidx ⊢
    dsimp only
    rw [encodeUtf8_eq_loop hidx (by decide) (by decide), store_comm zero_ne_one]
    rfl
  rw [if_neg h2] at hidx ⊢
  by_cases h3 : u ≤ 0xffff
  · rw [if_pos h3] at hidx ⊢
    dsimp only
    rw [encodeUtf8_eq_loop hidx (by decide) (by decide), store_comm zero_ne_one,
      store_comm (by decide : 0 ≠ 2), store_comm (by decide : 1 ≠ 2), ← shiftRight_shiftRight u 6 6]
    rfl
  rw [if_neg h3] at hidx ⊢
  by_cases h4 : u ≤ 0x1fffff
  · rw [if_pos h4] at hidx ⊢
    dsimp only
    rw [encodeUtf8_eq_loop hidx (by decide) (by decide), store_comm zero_ne_one,
      store_comm (by decide : 0 ≠ 2), store_comm (by decide : 1 ≠ 2),
      store_comm (by decide : 0 ≠ 3), store_comm (by decide : 1 ≠ 3), store_comm (by decide : 2 ≠ 3),
      ← shiftRight_shiftRight u 12 6, ← shiftRight_shiftRight u 6 6]
    rfl
  rw [if_neg h4] at hidx ⊢
  by_cases h5 : u ≤ 0x3ffffff
  · rw [if_pos h5] at hidx ⊢
    rw [encodeUtf8_eq_loop hidx (by decide) (by decide)]
    rfl
  rw [if_neg h5] at hidx ⊢
  by_cases h6 : u ≤ 0x7fffffff
  · rw [if_pos h6] at hidx ⊢
    rw [encodeUtf8_eq_loop hidx (by decide) (by decide)]
    rfl
  rw [if_neg h6] at hidx ⊢
  simp only [encodeUtf8, hidx]
  rfl

example : decodeText [0x55, 0xC7, 0x99, 0xEF, 0x88, 0xBF] = .ok (6, [0x55, 0x1D9, 0xF23F]) := by
  decide +kernel

end MyTests.Utf8
