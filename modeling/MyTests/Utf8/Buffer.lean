/-
MyTests/Utf8/Buffer.lean

Buffers of bytes, as the UTF-8 programs read them.  A buffer is the list of its
bytes, and a read outside it is a fault of its own (`Halt.outOfBounds`), apart
from the ways in which the programs stop by themselves.
-/
import Mathlib

namespace MyTests.Utf8

/-- `unsigned char`, or the bits of a `char`. -/
abbrev Byte := BitVec 8

inductive Halt where
  /-- `printf` and `exit` -/
  | exit (printed : String) (status : ℕ)
  /-- an `assert` that fails -/
  | assertion (expression : String)
  /-- a read at this index, outside the buffer -/
  | outOfBounds (index : ℕ)
  | outOfFuel
deriving DecidableEq

/-- `data[i]`. -/
def readAt (data : List Byte) (i : ℕ) : Except Halt Byte :=
  match data[i]? with
  | some c => .ok c
  | none => .error (.outOfBounds i)

theorem readAt_eq {data : List Byte} {i : ℕ} (hi : i < data.length) :
    readAt data i = .ok data[i] := by
  rw [readAt, List.getElem?_eq_getElem hi]

end MyTests.Utf8
