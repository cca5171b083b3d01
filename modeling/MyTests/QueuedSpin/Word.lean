/-
MyTests/QueuedSpin/Word.lean

The packed 32-bit lock word of `include/qspinlock_types.h` and the tail code
of `qspinlock.c`.

`struct qspinlock` is a union.  Read little endian, the locked byte is bits
0-7 of `val`, the pending byte bits 8-15, and the tail half-word bits 16-31.
The structure below keeps the three sub-words and `val` packs them, so a byte
or half-word store is a record update and a whole-word atomic goes through
`val` and `ofVal`, which are inverse to each other.

The masks are written the way `_Q_SET_MASK` writes them.  The lemmas turn
every mask test that the lock makes on `val` into a statement about the
sub-words; nothing above this file looks at a bit.
-/
import Mathlib

namespace MyTests.QueuedSpin

/-! ### The lock word -/

/-- `struct qspinlock`, by its sub-words. -/
structure Qspinlock where
  locked : BitVec 8
  pending : BitVec 8
  tail : BitVec 16
deriving DecidableEq, Repr

namespace Qspinlock

/-- The 32-bit member `val` of the union. -/
def val (q : Qspinlock) : BitVec 32 := q.tail ++ (q.pending ++ q.locked)

/-- The union after a 32-bit store of `v`. -/
def ofVal (v : BitVec 32) : Qspinlock :=
  ⟨v.extractLsb' 0 8, v.extractLsb' 8 8, v.extractLsb' 16 16⟩

@[simp] theorem ofVal_val (q : Qspinlock) : ofVal q.val = q := by
  obtain ⟨l, p, t⟩ := q
  have hp : (t ++ (p ++ l)).extractLsb' 8 8 = p := by
    rw [BitVec.extractLsb'_append_eq_of_add_le (by omega), BitVec.extractLsb'_append_eq_left]
  have hl : (t ++ (p ++ l)).extractLsb' 0 8 = l := by
    rw [BitVec.extractLsb'_append_eq_of_add_le (by omega), BitVec.extractLsb'_append_eq_right]
  have ht : (t ++ (p ++ l)).extractLsb' 16 16 = t := BitVec.extractLsb'_append_eq_left
  simp only [ofVal, val, hl, hp, ht]

theorem val_ofVal (v : BitVec 32) : (ofVal v).val = v := by
  ext i hi
  simp only [ofVal, val]
  grind

theorem val_injective : Function.Injective val :=
  Function.LeftInverse.injective ofVal_val

@[simp] theorem val_inj {q q' : Qspinlock} : q.val = q'.val ↔ q = q' :=
  val_injective.eq_iff

/-! ### Bitwise operations act on each sub-word -/

theorem val_and (q q' : Qspinlock) : q.val &&& q'.val
    = (⟨q.locked &&& q'.locked, q.pending &&& q'.pending, q.tail &&& q'.tail⟩ : Qspinlock).val := by
  exact BitVec.and_append.trans (congrArg _ BitVec.and_append)

theorem val_or (q q' : Qspinlock) : q.val ||| q'.val
    = (⟨q.locked ||| q'.locked, q.pending ||| q'.pending, q.tail ||| q'.tail⟩ : Qspinlock).val := by
  exact BitVec.or_append.trans (congrArg _ BitVec.or_append)

end Qspinlock

/-! ### Masks -/

/-- `_Q_SET_MASK(type)` for a field of `bits` bits at `offset`. -/
def qSetMask (bits offset : ℕ) : BitVec 32 := ((1#32 <<< bits) - 1#32) <<< offset

def qLockedOffset : ℕ := 0
def qLockedBits : ℕ := 8
def qLockedMask : BitVec 32 := qSetMask qLockedBits qLockedOffset

def qPendingOffset : ℕ := qLockedOffset + qLockedBits
def qPendingBits : ℕ := 8
def qPendingMask : BitVec 32 := qSetMask qPendingBits qPendingOffset

def qTailIdxOffset : ℕ := qPendingOffset + qPendingBits
def qTailIdxBits : ℕ := 2
def qTailIdxMask : BitVec 32 := qSetMask qTailIdxBits qTailIdxOffset

def qTailCpuOffset : ℕ := qTailIdxOffset + qTailIdxBits
def qTailCpuBits : ℕ := 32 - qTailCpuOffset
def qTailCpuMask : BitVec 32 := qSetMask qTailCpuBits qTailCpuOffset

def qTailOffset : ℕ := qTailIdxOffset
def qTailMask : BitVec 32 := qTailIdxMask ||| qTailCpuMask

def qLockedVal : BitVec 32 := 1#32 <<< qLockedOffset
def qPendingVal : BitVec 32 := 1#32 <<< qPendingOffset

def qLockedPendingMask : BitVec 32 := qLockedMask ||| qPendingMask

theorem qLockedMask_eq : qLockedMask = (⟨0xff, 0, 0⟩ : Qspinlock).val := by decide

theorem qPendingMask_eq : qPendingMask = (⟨0, 0xff, 0⟩ : Qspinlock).val := by decide

theorem qLockedPendingMask_eq : qLockedPendingMask = (⟨0xff, 0xff, 0⟩ : Qspinlock).val := by
  decide

theorem qTailMask_eq : qTailMask = (⟨0, 0, 0xffff⟩ : Qspinlock).val := by decide

theorem qLockedVal_eq : qLockedVal = (⟨1, 0, 0⟩ : Qspinlock).val := by decide

theorem qPendingVal_eq : qPendingVal = (⟨0, 1, 0⟩ : Qspinlock).val := by decide

theorem zero_eq_val : (0 : BitVec 32) = (⟨0, 0, 0⟩ : Qspinlock).val := by decide

/-! ### The tests the lock makes on `val` -/

namespace Qspinlock

theorem ofVal_qLockedVal : ofVal qLockedVal = ⟨1, 0, 0⟩ := by
  rw [qLockedVal_eq, ofVal_val]

@[simp] theorem val_eq_zero (q : Qspinlock) : q.val = 0 ↔ q = ⟨0, 0, 0⟩ := by
  rw [zero_eq_val, val_inj]

theorem val_eq_qPendingVal (q : Qspinlock) : q.val = qPendingVal ↔ q = ⟨0, 1, 0⟩ := by
  rw [qPendingVal_eq, val_inj]

/-- `fetch_or` of the pending bit leaves the locked byte and the tail alone. -/
theorem ofVal_or_qPendingVal (q : Qspinlock) :
    ofVal (q.val ||| qPendingVal) = { q with pending := q.pending ||| 1 } := by
  rw [qPendingVal_eq, val_or, ofVal_val]
  simp

private theorem and_allOnes8 (x : BitVec 8) : x &&& 0xff = x := by
  rw [show (0xff : BitVec 8) = BitVec.allOnes 8 from rfl, BitVec.and_allOnes]

private theorem and_allOnes16 (x : BitVec 16) : x &&& 0xffff = x := by
  rw [show (0xffff : BitVec 16) = BitVec.allOnes 16 from rfl, BitVec.and_allOnes]

/-- `val & _Q_LOCKED_MASK`. -/
theorem and_qLockedMask (q : Qspinlock) : q.val &&& qLockedMask = 0 ↔ q.locked = 0 := by
  rw [qLockedMask_eq, val_and, zero_eq_val, val_inj, mk.injEq, and_allOnes8]
  simp

/-- `val & ~_Q_LOCKED_MASK`: there is contention. -/
theorem and_not_qLockedMask (q : Qspinlock) :
    q.val &&& ~~~qLockedMask = 0 ↔ q.pending = 0 ∧ q.tail = 0 := by
  have hnot : ~~~qLockedMask = (⟨0, 0xff, 0xffff⟩ : Qspinlock).val := by decide
  rw [hnot, val_and, zero_eq_val, val_inj, mk.injEq, and_allOnes8, and_allOnes16]
  simp

/-- `val & _Q_PENDING_MASK`. -/
theorem and_qPendingMask (q : Qspinlock) : q.val &&& qPendingMask = 0 ↔ q.pending = 0 := by
  rw [qPendingMask_eq, val_and, zero_eq_val, val_inj, mk.injEq, and_allOnes8]
  simp

/-- `val & _Q_LOCKED_PENDING_MASK`. -/
theorem and_qLockedPendingMask (q : Qspinlock) :
    q.val &&& qLockedPendingMask = 0 ↔ q.locked = 0 ∧ q.pending = 0 := by
  rw [qLockedPendingMask_eq, val_and, zero_eq_val, val_inj, mk.injEq, and_allOnes8, and_allOnes8]
  simp

/-- `val & _Q_TAIL_MASK` keeps the tail half-word in place. -/
theorem and_qTailMask (q : Qspinlock) : q.val &&& qTailMask = (⟨0, 0, q.tail⟩ : Qspinlock).val := by
  rw [qTailMask_eq, val_and, and_allOnes16]
  simp

end Qspinlock

/-! ### Tail codes -/

/-- `MAX_USER_THREADS`. -/
abbrev maxUserThreads : ℕ := 64

/-- A thread, by its `this_thread_index`; also the address of its node in
`qnodes`. -/
abbrev Tid := Fin maxUserThreads

/-- `encode_tail`: the thread index plus one, in the cpu field. -/
def encodeTail (threadIndex : Tid) : BitVec 32 :=
  BitVec.ofNat 32 (threadIndex + 1) <<< qTailCpuOffset

/-- `decode_tail`, `none` where its assertion `thread_index < MAX_USER_THREADS`
fails. -/
def decodeTail (tail : BitVec 32) : Option Tid :=
  let threadIndex := (tail >>> qTailCpuOffset) - 1
  if h : threadIndex.toNat < maxUserThreads then some ⟨threadIndex.toNat, h⟩ else none

/-- The half-word that `xchg_tail` stores for a tail code. -/
def tailHalf (tail : BitVec 32) : BitVec 16 := (tail >>> qTailOffset).setWidth 16

/-- The tail code that `xchg_tail` returns for the half-word it replaced. -/
def tailWord (half : BitVec 16) : BitVec 32 := half.setWidth 32 <<< qTailOffset

/-- The tail half-word of a queue whose last waiter is `t`. -/
def tailOf (t : Tid) : BitVec 16 := tailHalf (encodeTail t)

theorem encodeTail_eq (t : Tid) : encodeTail t = (⟨0, 0, tailOf t⟩ : Qspinlock).val := by
  revert t; decide

theorem tailOf_ne_zero (t : Tid) : tailOf t ≠ 0 := by
  revert t; decide

theorem tailWord_and_qTailMask (t : Tid) : tailWord (tailOf t) &&& qTailMask ≠ 0 := by
  revert t; decide

/-- A tail code decodes to the thread it was made for. -/
theorem decodeTail_tailWord (t : Tid) : decodeTail (tailWord (tailOf t)) = some t := by
  revert t; decide

theorem tailOf_injective : Function.Injective tailOf := by
  intro t u h
  have ht := decodeTail_tailWord t
  rw [h, decodeTail_tailWord] at ht
  exact (Option.some.inj ht).symm

@[simp] theorem tailOf_inj {t u : Tid} : tailOf t = tailOf u ↔ t = u :=
  tailOf_injective.eq_iff

/-- The head's test `(val & _Q_TAIL_MASK) == tail`. -/
theorem Qspinlock.and_qTailMask_eq_encodeTail (q : Qspinlock) (t : Tid) :
    q.val &&& qTailMask = encodeTail t ↔ q.tail = tailOf t := by
  rw [Qspinlock.and_qTailMask, encodeTail_eq, Qspinlock.val_inj]
  simp

end MyTests.QueuedSpin
