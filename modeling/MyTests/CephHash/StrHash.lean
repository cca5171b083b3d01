/-
MyTests/CephHash/StrHash.lean

The string hash of Ceph, `src/ceph-hash.c`: the same loop over an `unsigned` and over
an `unsigned long`.

Both functions return an `unsigned`, so the old one truncates once, after the loop,
and the new one after every character.  The body of the loop is a sum and a product:
what truncation leaves of one accumulator is the other at every step (`narrows_round`).
-/
import MyTests.Lib.Narrow
import MyTests.Utf8.Ceph

namespace MyTests.CephHash

open MyTests.Lib MyTests.Utf8

/-! ### The two functions -/

/-- `unsigned char c = *str`: a `char` has a sign, `c` has the value modulo 256. -/
def toUChar (ch : Int8) : Byte := BitVec.ofInt 8 ch.toInt

/-- The characters that `while (length--)` takes from `*str++`. -/
def characters (str : ℕ → Int8) (length : BitVec 32) : List Int8 :=
  (List.range length.toNat).map str

/-- The body of the loop, with an `unsigned` accumulator. -/
def roundNew (hash : BitVec 32) (ch : Int8) : BitVec 32 :=
  let c := promote (toUChar ch)
  (hash + (c <<< 4) + c.sshiftRight 4) * 11#32

/-- The body of the loop, with an `unsigned long` accumulator. -/
def roundOld (hash : ULong) (ch : Int8) : ULong :=
  let c := promote (toUChar ch)
  (hash + toULong (c <<< 4) + toULong (c.sshiftRight 4)) * 11#64

def cephStrHashLinuxNew (str : ℕ → Int8) (length : BitVec 32) : BitVec 32 :=
  (characters str length).foldl roundNew 0#32

/-- `return hash` keeps the low half. -/
def cephStrHashLinuxOld (str : ℕ → Int8) (length : BitVec 32) : BitVec 32 :=
  ((characters str length).foldl roundOld 0#64).setWidth 32

/-! ### The two accumulators -/

/-- **One character.** -/
theorem narrows_round (a : BitVec 32) (b : ULong) (ch : Int8) (h : Narrows a b) :
    Narrows (roundNew a ch) (roundOld b ch) := by
  have hwv : 32 ≤ 64 := by decide
  refine Narrows.mul hwv ?_ (Narrows.ofNat hwv 11)
  exact ((h.add hwv (Narrows.signExtend hwv _)).add hwv (Narrows.signExtend hwv _))

/-- **The narrow hash is the wide one**, for every text and every length. -/
theorem cephStrHashLinuxNew_eq_old (str : ℕ → Int8) (length : BitVec 32) :
    cephStrHashLinuxNew str length = cephStrHashLinuxOld str length := by
  have hrun : Narrows ((characters str length).foldl roundNew 0#32)
      ((characters str length).foldl roundOld 0#64) :=
    Narrows.foldl narrows_round _ (Narrows.ofNat (by decide) 0)
  exact hrun.symm

end MyTests.CephHash
