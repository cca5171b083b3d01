/-
MyTests/Ascii/ReadLe.lean

`bench_char_char` and `bench_uchar_char` of `read-le.cc`, and `bench`, which
calls them.

Both gather the bytes of a buffer by `|`, in two words of eight bytes that are
copied from the buffer one by one, and then byte by byte.  They differ in the
type of the pointer that is copied from, which changes no bit.  What they return
is the `|` of all bytes, whatever the length (`benchRead_eq`): the byte of which
the top bit answers the question of `ascii_u64`.  So the verdict that `bench`
prints is that of `ascii_u64` on the same bytes (`bench_verdict`).

The clock of `bench` and the rate it prints are left out.
-/
import MyTests.Ascii.Checks

namespace MyTests.Ascii

open MyTests.Lib

variable {buf : List (BitVec 8)} {l m : List (BitVec 8)} {p n : ℕ}

/-! ### The functions -/

/-- `std::copy_n(p, n, datum)`: the bytes of `datum`. -/
def copyN (buf : List (BitVec 8)) : ℕ → ℕ → Option (List (BitVec 8))
  | _, 0 => some []
  | p, n + 1 => do
      let b ← buf[p]?
      let bytes ← copyN buf (p + 1) n
      some (b :: bytes)

/-- A `uint64_t` of the given bytes. -/
def datum64 (bytes : List (BitVec 8)) : BitVec 64 := word64 fun i => bytes.getD i 0#8

/-- `read_le_char<uint64_t>`; a conversion to `char` keeps the bits. -/
def readLeChar (buf : List (BitVec 8)) (p : ℕ) : Option (BitVec 64) := (copyN buf p 8).map datum64

/-- `read_le_uchar<uint64_t>` -/
def readLeUchar (buf : List (BitVec 8)) (p : ℕ) : Option (BitVec 64) := (copyN buf p 8).map datum64

/-- `while (len >= 16)`, with either reader. -/
def leLoop (read : List (BitVec 8) → ℕ → Option (BitVec 64)) (buf : List (BitVec 8))
    (s : Blocks (BitVec 64)) : Option (Blocks (BitVec 64)) :=
  if 16 ≤ s.len then do
    let w1 ← read buf s.data
    let w2 ← read buf s.data2
    leLoop read buf ⟨s.data + 16, s.data2 + 16, s.len - 16, s.or1 ||| w1, s.or2 ||| w2⟩
  else some s
termination_by s.len

/-- `for (int i = 0; i < 8; ++i) orall |= orr.u8[i]` -/
def orBytes (orall : BitVec 8) (u64 : BitVec 64) : BitVec 8 :=
  (List.range 8).foldl (fun orall i => orall ||| byteOf u64 i) orall

/-- What the two functions share. -/
def benchRead (read : List (BitVec 8) → ℕ → Option (BitVec 64)) (buf : List (BitVec 8))
    (data len : ℕ) : Option (BitVec 8) := do
  if 16 ≤ len then
    let s ← leLoop read buf ⟨data, data + 8, len, 0#64, 0#64⟩
    tailLoop buf s.len s.data (orBytes 0#8 (s.or1 ||| s.or2))
  else
    tailLoop buf len data 0#8

/-- `bench_char_char` -/
def benchCharChar : List (BitVec 8) → ℕ → ℕ → Option (BitVec 8) := benchRead readLeChar

/-- `bench_uchar_char` -/
def benchUcharChar : List (BitVec 8) → ℕ → ℕ → Option (BitVec 8) := benchRead readLeUchar

/-- `for (int i = 0; i < loops; ++i) ret |= func(data, len)`. -/
def benchLoop (func : List (BitVec 8) → ℕ → ℕ → Option (BitVec 8)) (buf : List (BitVec 8))
    (data len : ℕ) : ℕ → BitVec 8 → Option (BitVec 8)
  | 0, ret => some ret
  | loops + 1, ret => do
      let r ← func buf data len
      benchLoop func buf data len loops (ret ||| r)

/-- `bench`: the verdict it prints and the `int` it returns.  A division by a length
of zero has no result. -/
def bench (func : List (BitVec 8) → ℕ → ℕ → Option (BitVec 8)) (buf : List (BitVec 8))
    (data len : ℕ) : Option (String × ℕ) :=
  if len = 0 then none
  else do
    let ret ← benchLoop func buf data len (1024 * 1024 * 1024 / len) 0#8
    some (if ret < 0x80#8 then "pass" else "FAIL", ret.toNat)

/-! ### The `|` of some bytes -/

/-- The `|` of all of them. -/
def gather (l : List (BitVec 8)) : BitVec 8 := l.foldl (· ||| ·) 0#8

theorem foldl_or (x : BitVec 8) (l : List (BitVec 8)) : l.foldl (· ||| ·) x = x ||| gather l := by
  induction l generalizing x with
  | nil => exact (BitVec.or_zero).symm
  | cons b l ih =>
      unfold gather
      rw [List.foldl_cons, List.foldl_cons, ih, ih, BitVec.zero_or, BitVec.or_assoc]

theorem gather_cons (b : BitVec 8) (l : List (BitVec 8)) : gather (b :: l) = b ||| gather l := by
  show l.foldl (· ||| ·) (0#8 ||| b) = _
  rw [foldl_or, BitVec.zero_or]

theorem gather_append (l m : List (BitVec 8)) : gather (l ++ m) = gather l ||| gather m := by
  show (l ++ m).foldl (· ||| ·) 0#8 = _
  rw [List.foldl_append, foldl_or]
  rfl

theorem gather_map_or {ι : Type} (f g : ι → BitVec 8) (is : List ι) :
    gather (is.map fun i => f i ||| g i) = gather (is.map f) ||| gather (is.map g) := by
  induction is with
  | nil => exact BitVec.or_self.symm
  | cons i is ih =>
      simp only [List.map_cons, gather_cons, ih]
      ac_rfl

/-- The bytes from `p` on. -/
def stretch (buf : List (BitVec 8)) (p n : ℕ) : List (BitVec 8) := (buf.drop p).take n

theorem stretch_succ (hp : p < buf.length) (n : ℕ) :
    stretch buf p (n + 1) = buf[p] :: stretch buf (p + 1) n := by
  unfold stretch
  rw [List.drop_eq_getElem_cons hp, List.take_succ_cons]

theorem stretch_add (buf : List (BitVec 8)) (p m n : ℕ) :
    stretch buf p (m + n) = stretch buf p m ++ stretch buf (p + m) n := by
  unfold stretch
  rw [List.take_add, List.drop_drop]

/-! ### Words -/

/-- The `|` of the bytes of a word. -/
theorem orBytes_zero (w : BitVec 64) : orBytes 0#8 w = gather ((List.range 8).map (byteOf w)) := by
  unfold orBytes gather
  rw [List.foldl_map]

theorem orBytes_or (x y : BitVec 64) : orBytes 0#8 (x ||| y) = orBytes 0#8 x ||| orBytes 0#8 y := by
  rw [orBytes_zero, orBytes_zero, orBytes_zero, ← gather_map_or]
  congr 1
  apply List.map_congr_left
  intro i _
  exact BitVec.extractLsb'_or

theorem orBytes_datum64 {bytes : List (BitVec 8)} (h : bytes.length = 8) :
    orBytes 0#8 (datum64 bytes) = gather bytes := by
  rw [orBytes_zero]
  congr 1
  apply List.ext_getElem
  · rw [List.length_map, List.length_range, h]
  · intro i hi hi'
    rw [List.getElem_map, List.getElem_range]
    rw [h] at hi'
    unfold datum64
    rw [byteOf_word64 _ hi', List.getD_eq_getElem]

theorem copyN_eq (h : p + n ≤ buf.length) : copyN buf p n = some (stretch buf p n) := by
  induction n generalizing p with
  | zero => rfl
  | succ n ih =>
      have hp : p < buf.length := by omega
      rw [copyN, List.getElem?_eq_getElem hp, ih (by omega), stretch_succ hp]
      rfl

/-- What the block loop needs of a reader. -/
def Reads (read : List (BitVec 8) → ℕ → Option (BitVec 64)) : Prop :=
  ∀ {buf : List (BitVec 8)} {p : ℕ}, p + 8 ≤ buf.length →
    ∃ w, read buf p = some w ∧ orBytes 0#8 w = gather (stretch buf p 8)

theorem reads_readLeChar : Reads readLeChar := by
  intro buf p h
  refine ⟨datum64 (stretch buf p 8), ?_, orBytes_datum64 ?_⟩
  · rw [readLeChar, copyN_eq h]
    rfl
  · rw [stretch, List.length_take, List.length_drop]
    omega

theorem reads_readLeUchar : Reads readLeUchar := reads_readLeChar

/-! ### The loops -/

/-- The byte loop gathers what is left. -/
theorem tailLoop_gather {len data : ℕ} (orall : BitVec 8) (hbuf : data + len ≤ buf.length) :
    tailLoop buf len data orall = some (orall ||| gather (stretch buf data len)) := by
  induction len generalizing data orall with
  | zero => exact congrArg some BitVec.or_zero.symm
  | succ len ih =>
      have hdata : data < buf.length := by omega
      rw [tailLoop, List.getElem?_eq_getElem hdata, stretch_succ hdata, gather_cons,
        ← BitVec.or_assoc]
      exact ih (orall ||| buf[data]) (by omega)

theorem gather_lt_iff {data len : ℕ} (hbuf : data + len ≤ buf.length) :
    gather (stretch buf data len) < 0x80#8 ↔ Clean buf data (data + len) := by
  obtain ⟨r, hrun, hr⟩ := tailLoop_spec (0#8) hbuf
  rw [tailLoop_gather _ hbuf, BitVec.zero_or] at hrun
  rw [Option.some.inj hrun, hr, and_iff_right (by decide : 0#8 < 0x80#8)]

/-- What the words hold, and what is still to be read. -/
def Blocks.total (buf : List (BitVec 8)) (s : Blocks (BitVec 64)) : BitVec 8 :=
  orBytes 0#8 (s.or1 ||| s.or2) ||| gather (stretch buf s.data s.len)

/-- One block changes the place of its bytes and not the total. -/
theorem total_block {s : Blocks (BitVec 64)} {w1 w2 : BitVec 64} (hlen : 16 ≤ s.len)
    (h1 : orBytes 0#8 w1 = gather (stretch buf s.data 8))
    (h2 : orBytes 0#8 w2 = gather (stretch buf (s.data + 8) 8)) :
    Blocks.total buf ⟨s.data + 16, s.data2 + 16, s.len - 16, s.or1 ||| w1, s.or2 ||| w2⟩
      = s.total buf := by
  have hsplit : stretch buf s.data s.len = stretch buf s.data 8
      ++ (stretch buf (s.data + 8) 8 ++ stretch buf (s.data + 16) (s.len - 16)) := by
    rw [← stretch_add, ← stretch_add]
    congr 1
    omega
  show orBytes 0#8 ((s.or1 ||| w1) ||| (s.or2 ||| w2))
      ||| gather (stretch buf (s.data + 16) (s.len - 16))
    = orBytes 0#8 (s.or1 ||| s.or2) ||| gather (stretch buf s.data s.len)
  rw [hsplit, gather_append, gather_append, orBytes_or, orBytes_or, orBytes_or, orBytes_or, h1, h2]
  -- the sixteen bytes have passed from the buffer to the two words
  ac_rfl

/-- **The block loop.**  It stays inside the buffer and keeps the total. -/
theorem leLoop_spec {read : List (BitVec 8) → ℕ → Option (BitVec 64)} (hread : Reads read)
    {s : Blocks (BitVec 64)} (hdata2 : s.data2 = s.data + 8) (hbuf : s.data + s.len ≤ buf.length) :
    ∃ t, leLoop read buf s = some t ∧ t.data + t.len = s.data + s.len ∧ t.total buf = s.total buf := by
  induction hn : s.len using Nat.strong_induction_on generalizing s with
  | _ n ih =>
      subst hn
      rw [leLoop]
      split
      · next hlen =>
          obtain ⟨w1, hw1, h1⟩ := hread (show s.data + 8 ≤ buf.length by omega)
          obtain ⟨w2, hw2, h2⟩ := hread (show s.data2 + 8 ≤ buf.length by omega)
          have hnext : s.data + 16 + (s.len - 16) = s.data + s.len := by omega
          obtain ⟨t, hrun, hsum, htotal⟩ :=
            @ih (s.len - 16) (by omega)
              ⟨s.data + 16, s.data2 + 16, s.len - 16, s.or1 ||| w1, s.or2 ||| w2⟩
              (congrArg (· + 16) hdata2) (hnext.trans_le hbuf) rfl
          refine ⟨t, ?_, hsum.trans hnext, ?_⟩
          · rw [hw1, hw2]
            exact hrun
          · rw [hdata2] at h2
            rw [htotal, total_block hlen h1 h2]
      · exact ⟨s, rfl, rfl, rfl⟩

/-- **Both functions return the `|` of all bytes.** -/
theorem benchRead_eq {read : List (BitVec 8) → ℕ → Option (BitVec 64)} (hread : Reads read)
    {data len : ℕ} (hbuf : data + len ≤ buf.length) :
    benchRead read buf data len = some (gather (stretch buf data len)) := by
  unfold benchRead
  split
  · obtain ⟨t, hrun, hsum, htotal⟩ :=
      @leLoop_spec buf read hread ⟨data, data + 8, len, 0#64, 0#64⟩ rfl hbuf
    rw [hrun]
    show tailLoop buf t.len t.data (orBytes 0#8 (t.or1 ||| t.or2)) = _
    rw [tailLoop_gather _ (hsum.trans_le hbuf)]
    congr 1
    -- what is returned is the total where the block loop stops; it began with empty words
    calc t.total buf
        = orBytes 0#8 (0#64 ||| 0#64) ||| gather (stretch buf data len) := htotal
      _ = gather (stretch buf data len) := by
          rw [show orBytes 0#8 (0#64 ||| 0#64) = 0#8 by decide, BitVec.zero_or]
  · rw [tailLoop_gather _ hbuf, BitVec.zero_or]

/-! ### The benchmark -/

section

variable {func : List (BitVec 8) → ℕ → ℕ → Option (BitVec 8)} {data len : ℕ} {r : BitVec 8}

theorem benchLoop_eq (hfunc : func buf data len = some r) (loops : ℕ) (ret : BitVec 8) :
    benchLoop func buf data len (loops + 1) ret = some (ret ||| r) := by
  induction loops generalizing ret with
  | zero =>
      rw [benchLoop, hfunc]
      rfl
  | succ loops ih =>
      rw [benchLoop, hfunc]
      show benchLoop func buf data len (loops + 1) (ret ||| r) = _
      rw [ih, BitVec.or_assoc, BitVec.or_self]

/-- However often the function is called, its value is returned. -/
theorem bench_eq (hfunc : func buf data len = some r) (hlen : 0 < len)
    (hmax : len ≤ 1024 * 1024 * 1024) :
    bench func buf data len = some (if r < 0x80#8 then "pass" else "FAIL", r.toNat) := by
  obtain ⟨loops, hloops⟩ := Nat.exists_eq_add_one.mpr (Nat.div_pos hmax hlen)
  rw [bench, if_neg hlen.ne', hloops, benchLoop_eq hfunc, BitVec.zero_or]
  rfl

end

theorem asciiU64_eq_one_iff {data len : ℕ} (hbuf : data + len ≤ buf.length) :
    asciiU64 buf data len = some 1 ↔ gather (stretch buf data len) < 0x80#8 := by
  obtain ⟨ok, hrun, hok⟩ := asciiU64_spec hbuf
  rw [hrun, gather_lt_iff hbuf, ← hok]
  cases ok <;> decide

/-- **The two readers agree with each other and with `ascii_u64`.**  On a length of
which the benchmark makes at least one round, either function gives the `|` of the
bytes, and the verdict is "pass" just when `ascii_u64` answers 1. -/
theorem bench_verdict {data len : ℕ} (hlen : 0 < len) (hmax : len ≤ 1024 * 1024 * 1024)
    (hbuf : data + len ≤ buf.length) :
    bench benchCharChar buf data len
        = some (if asciiU64 buf data len = some 1 then "pass" else "FAIL",
            (gather (stretch buf data len)).toNat)
    ∧ bench benchUcharChar buf data len = bench benchCharChar buf data len := by
  have hchar : benchCharChar buf data len = some _ := benchRead_eq reads_readLeChar hbuf
  have huchar : benchUcharChar buf data len = some _ := benchRead_eq reads_readLeUchar hbuf
  rw [bench_eq hchar hlen hmax, bench_eq huchar hlen hmax]
  simp only [asciiU64_eq_one_iff hbuf, and_self]

/-- Two blocks and three bytes, the last of them above 0x7F. -/
theorem bench_verdict_last :
    bench benchCharChar (List.replicate 34 0x41#8 ++ [0xC3#8]) 0 35 = some ("FAIL", 0xC3)
    ∧ bench benchUcharChar (List.replicate 34 0x41#8 ++ [0xC3#8]) 0 35
        = bench benchCharChar (List.replicate 34 0x41#8 ++ [0xC3#8]) 0 35 := by
  obtain ⟨hchar, huchar⟩ := @bench_verdict (List.replicate 34 0x41#8 ++ [0xC3#8])
    0 35 (by decide) (by decide) (by decide)
  refine ⟨?_, huchar⟩
  have hgather : gather (stretch (List.replicate 34 0x41#8 ++ [0xC3#8]) 0 35) = 0xC3#8 := by decide
  rw [hchar, if_neg, hgather]
  · rfl
  · rw [asciiU64_eq_one_iff (by decide), hgather]
    decide

end MyTests.Ascii
