/-
MyTests/QueuedSpin/Atomics.lean

The atomic operations of `src/qspinlock/include/atomic`, instruction by
instruction: the loops of `atomic_ll_sc.h` and `cmpxchg.h` around an exclusive
load and store, and the single instructions of `atomic_lse.h`, which the flag
`CONFIG_ARM64_LSE_ATOMICS` selects.  The model of the lock takes each of them
for one step; here both are shown to be that.

Only one word is looked at, on which every core sees all stores in one order,
so the barriers and the letters for acquire and release make no difference:
`prfm` and `dmb ish` do nothing.  A register whose variable is not set holds
anything, and so do the upper bits of one that holds a smaller number.

`ldxp` reads its 128 bits at once, which is more than Arm promises unless the `stxp`
after it succeeds: two halves that are read apart are not in the model.  (A half that
differs from the expected one does so when it is read, and after an `stxp` that has
failed both are read again.)
-/
import MyTests.Lib.Exclusive

namespace MyTests.QueuedSpin

open Lib

/-! ### Instructions -/

/-- The operands of the assembly, by their names in the source. -/
inductive Reg where
  | result
  | val
  | tmp
  | i
  | oldval
  | old
  | new
  | ret
  | x
  | old1
  | old2
  | new1
  | new2
  | oldval1
  | oldval2
deriving DecidableEq

abbrev Regs (w : ℕ) := Reg → BitVec w

variable {sz w : ℕ} {M : Type*}

/-- `prfm`, `dmb` and `nop` -/
@[simp] def nop : Instr M (Regs w) := .comp id

/-- `ldxr`, and its forms for smaller words -/
@[simp] def ldxr (d : Reg) : Instr (BitVec sz) (Regs w) :=
  .load fun m r => Function.update r d (m.setWidth w)

/-- `stxr`, and its forms for smaller words; the status is 1 when the store has failed -/
@[simp] def stxr (status s : Reg) : Instr (BitVec sz) (Regs w) :=
  .store (fun r => (r s).setWidth sz) fun failed r => Function.update r status (if failed then 1 else 0)

@[simp] def cbnz (a : Reg) (target : ℕ) : Instr M (Regs w) := .branch (fun r => r a != 0) target

/-- The instructions of `ATOMIC_OPS`. -/
inductive AsmOp where
  | add
  | sub
  | and
  | orr
  | eor
  | bic
deriving DecidableEq

def AsmOp.eval : AsmOp → BitVec w → BitVec w → BitVec w
  | .add, a, b => a + b
  | .sub, a, b => a - b
  | .and, a, b => a &&& b
  | .orr, a, b => a ||| b
  | .eor, a, b => a ^^^ b
  | .bic, a, b => a &&& ~~~b

@[simp] def alu (op : AsmOp) (d a b : Reg) : Instr M (Regs w) :=
  .comp fun r => Function.update r d (op.eval (r a) (r b))

@[simp] def mov (d a : Reg) : Instr M (Regs w) := .comp fun r => Function.update r d (r a)

@[simp] def mvn (d a : Reg) : Instr M (Regs w) := .comp fun r => Function.update r d (~~~r a)

@[simp] def neg (d a : Reg) : Instr M (Regs w) := .comp fun r => Function.update r d (-r a)

/-- The single instructions on the word: `clr`, `set`, `eor` and `add`. -/
inductive LseOp where
  | clr
  | set
  | eor
  | add
deriving DecidableEq

def LseOp.eval : LseOp → BitVec w → BitVec w → BitVec w
  | .clr, m, s => m &&& ~~~s
  | .set, m, s => m ||| s
  | .eor, m, s => m ^^^ s
  | .add, m, s => m + s

/-- `stclr`, `stset`, `steor` and `stadd` -/
@[simp] def st (op : LseOp) (s : Reg) : Instr (BitVec w) (Regs w) :=
  .rmw fun m r => (some (op.eval m (r s)), r)

/-- `ldclr`, `ldset`, `ldeor` and `ldadd` -/
@[simp] def ld (op : LseOp) (s d : Reg) : Instr (BitVec w) (Regs w) :=
  .rmw fun m r => (some (op.eval m (r s)), Function.update r d m)

/-- `swp`, and its forms for smaller words -/
@[simp] def swp (s d : Reg) : Instr (BitVec sz) (Regs w) :=
  .rmw fun m r => (some ((r s).setWidth sz), Function.update r d (m.setWidth w))

/-- `cas`, and its forms for smaller words -/
@[simp] def cas (s n : Reg) : Instr (BitVec sz) (Regs w) :=
  .rmw fun m r =>
    (if m = (r s).setWidth sz then some ((r n).setWidth sz) else none,
      Function.update r s (m.setWidth w))

/-- `dmb ish`, in the variants that have it -/
@[simp] def barrier (mb : Bool) : List (Instr M (Regs w)) := if mb then [nop] else []

/-! ### `atomic_ll_sc.h` -/

/-- What a function returns; a `void` one returns nothing. -/
abbrev Value := Option (BitVec 32)

/-- `__ll_sc_atomic_##op` -/
def llScAtomicOp (asmOp : AsmOp) (i : BitVec 32) (junk : Regs 32) :
    Routine (BitVec 32) (Regs 32) Value where
  code := [nop, ldxr .result, alu asmOp .result .result .i, stxr .tmp .result, cbnz .tmp 1]
  args := Function.update junk .i i
  result := fun _ => none

/-- `__ll_sc_atomic_##op##_return##name` -/
def llScAtomicOpReturn (asmOp : AsmOp) (mb : Bool) (i : BitVec 32) (junk : Regs 32) :
    Routine (BitVec 32) (Regs 32) Value where
  code := [nop, ldxr .result, alu asmOp .result .result .i, stxr .tmp .result, cbnz .tmp 1] ++
    barrier mb
  args := Function.update junk .i i
  result := fun r => some (r .result)

/-- `__ll_sc_atomic_fetch_##op##name` -/
def llScAtomicFetchOp (asmOp : AsmOp) (mb : Bool) (i : BitVec 32) (junk : Regs 32) :
    Routine (BitVec 32) (Regs 32) Value where
  code := [nop, ldxr .result, alu asmOp .val .result .i, stxr .tmp .val, cbnz .tmp 1] ++ barrier mb
  args := Function.update junk .i i
  result := fun r => some (r .result)

/-! ### `atomic_lse.h` -/

/-- `__lse_atomic_##op` -/
def lseAtomicOp (op : LseOp) (i : BitVec 32) (junk : Regs 32) :
    Routine (BitVec 32) (Regs 32) Value where
  code := [st op .i]
  args := Function.update junk .i i
  result := fun _ => none

/-- `__lse_atomic_and` -/
def lseAtomicAnd (i : BitVec 32) (junk : Regs 32) : Routine (BitVec 32) (Regs 32) Value where
  code := [mvn .i .i, st .clr .i]
  args := Function.update junk .i i
  result := fun _ => none

/-- `__lse_atomic_sub` -/
def lseAtomicSub (i : BitVec 32) (junk : Regs 32) : Routine (BitVec 32) (Regs 32) Value where
  code := [neg .i .i, st .add .i]
  args := Function.update junk .i i
  result := fun _ => none

/-- `__lse_atomic_fetch_##op##name` -/
def lseAtomicFetchOp (op : LseOp) (i : BitVec 32) (junk : Regs 32) :
    Routine (BitVec 32) (Regs 32) Value where
  code := [ld op .i .i]
  args := Function.update junk .i i
  result := fun r => some (r .i)

/-- `__lse_atomic_fetch_and##name` -/
def lseAtomicFetchAnd (i : BitVec 32) (junk : Regs 32) : Routine (BitVec 32) (Regs 32) Value where
  code := [mvn .i .i, ld .clr .i .i]
  args := Function.update junk .i i
  result := fun r => some (r .i)

/-- `__lse_atomic_fetch_sub##name` -/
def lseAtomicFetchSub (i : BitVec 32) (junk : Regs 32) : Routine (BitVec 32) (Regs 32) Value where
  code := [neg .i .i, ld .add .i .i]
  args := Function.update junk .i i
  result := fun r => some (r .i)

/-- `__lse_atomic_add_return##name` -/
def lseAtomicAddReturn (i : BitVec 32) (junk : Regs 32) : Routine (BitVec 32) (Regs 32) Value where
  code := [ld .add .i .tmp, alu .add .i .i .tmp]
  args := Function.update junk .i i
  result := fun r => some (r .i)

/-- `__lse_atomic_sub_return##name` -/
def lseAtomicSubReturn (i : BitVec 32) (junk : Regs 32) : Routine (BitVec 32) (Regs 32) Value where
  code := [neg .i .i, ld .add .i .tmp, alu .add .i .i .tmp]
  args := Function.update junk .i i
  result := fun r => some (r .i)

/-! ### `atomic_t` -/

/-- `atomic_read` -/
def atomicRead (junk : Regs 32) : Routine (BitVec 32) (Regs 32) Value where
  code := [.rmw fun m r => (none, Function.update r .result m)]
  args := junk
  result := fun r => some (r .result)

/-- `atomic_set` -/
def atomicSet (i : BitVec 32) (junk : Regs 32) : Routine (BitVec 32) (Regs 32) Value where
  code := [.rmw fun _ r => (some (r .i), r)]
  args := Function.update junk .i i
  result := fun _ => none

inductive AtomicOp where
  | andnot
  | or
  | xor
  | add
  | and
  | sub
deriving DecidableEq

def AtomicOp.eval : AtomicOp → BitVec 32 → BitVec 32 → BitVec 32
  | .andnot, v, i => v &&& ~~~i
  | .or, v, i => v ||| i
  | .xor, v, i => v ^^^ i
  | .add, v, i => v + i
  | .and, v, i => v &&& i
  | .sub, v, i => v - i

/-- The lines `ATOMIC_OPS(op, asm_op, ..)`. -/
def AtomicOp.asmOp : AtomicOp → AsmOp
  | .andnot => .bic
  | .or => .orr
  | .xor => .eor
  | .add => .add
  | .and => .and
  | .sub => .sub

/-- The functions on an `atomic_t`, with their arguments. -/
inductive AtomicFn where
  /-- `arm_atomic_##op` -/
  | op (o : AtomicOp) (i : BitVec 32)
  /-- `arm_atomic_fetch_##op##name` -/
  | fetchOp (o : AtomicOp) (mb : Bool) (i : BitVec 32)
  /-- `arm_atomic_add_return##name` and `arm_atomic_sub_return##name` -/
  | addReturn (mb : Bool) (i : BitVec 32)
  | subReturn (mb : Bool) (i : BitVec 32)
  | read
  | set (i : BitVec 32)
deriving DecidableEq

/-- What a function does to the counter, and what it returns. -/
def AtomicFn.apply : AtomicFn → BitVec 32 → BitVec 32 × Value
  | .op o i, v => (o.eval v i, none)
  | .fetchOp o _ i, v => (o.eval v i, some v)
  | .addReturn _ i, v => (v + i, some (v + i))
  | .subReturn _ i, v => (v - i, some (v - i))
  | .read, v => (v, some v)
  | .set i, _ => (i, none)

/-- The functions of `atomic.h` without `CONFIG_ARM64_LSE_ATOMICS`. -/
def AtomicFn.llSc (junk : Regs 32) : AtomicFn → Routine (BitVec 32) (Regs 32) Value
  | .op o i => llScAtomicOp o.asmOp i junk
  | .fetchOp o mb i => llScAtomicFetchOp o.asmOp mb i junk
  | .addReturn mb i => llScAtomicOpReturn .add mb i junk
  | .subReturn mb i => llScAtomicOpReturn .sub mb i junk
  | .read => atomicRead junk
  | .set i => atomicSet i junk

/-- The functions of `atomic.h` with `CONFIG_ARM64_LSE_ATOMICS`. -/
def AtomicFn.lse (junk : Regs 32) : AtomicFn → Routine (BitVec 32) (Regs 32) Value
  | .op .andnot i => lseAtomicOp .clr i junk
  | .op .or i => lseAtomicOp .set i junk
  | .op .xor i => lseAtomicOp .eor i junk
  | .op .add i => lseAtomicOp .add i junk
  | .op .and i => lseAtomicAnd i junk
  | .op .sub i => lseAtomicSub i junk
  | .fetchOp .andnot _ i => lseAtomicFetchOp .clr i junk
  | .fetchOp .or _ i => lseAtomicFetchOp .set i junk
  | .fetchOp .xor _ i => lseAtomicFetchOp .eor i junk
  | .fetchOp .add _ i => lseAtomicFetchOp .add i junk
  | .fetchOp .and _ i => lseAtomicFetchAnd i junk
  | .fetchOp .sub _ i => lseAtomicFetchSub i junk
  | .addReturn _ i => lseAtomicAddReturn i junk
  | .subReturn _ i => lseAtomicSubReturn i junk
  | .read => atomicRead junk
  | .set i => atomicSet i junk

/-- A call from a file that is built with or without the flag. -/
structure AtomicCall where
  fn : AtomicFn
  lse : Bool
  junk : Regs 32

def AtomicCall.routine (c : AtomicCall) : Routine (BitVec 32) (Regs 32) Value :=
  if c.lse then c.fn.lse c.junk else c.fn.llSc c.junk

/-! ### The functions on an `atomic_t` -/

/-- The loops: behind the `prfm`, the body has to be right under `J`, to which it may return. -/
theorem verified_loop {A : Type*} {r : Routine M (Regs w) A} {eff : M → M × A}
    (J : Regs w → Prop) {body : List (Instr M (Regs w))}
    (hcode : r.code = nop :: body) (hargs : J r.args)
    (hbody : ∀ x, J x → Pends r.result (body.length + 1) eff 1 J body none x) : Verified r eff := by
  refine .ofWp 1 J ?_ ?_
  · rw [hcode]
    exact hbody _ hargs
  · rw [hcode]
    exact hbody

variable {i : BitVec 32} {junk : Regs 32} {mb : Bool} {asmOp : AsmOp}

theorem verified_llScAtomicOp :
    Verified (llScAtomicOp asmOp i junk) fun v => (asmOp.eval v i, none) := by
  refine verified_loop (fun r => r .i = i) rfl (by simp [llScAtomicOp]) ?_
  rintro r rfl
  simp [llScAtomicOp]

theorem verified_llScAtomicOpReturn :
    Verified (llScAtomicOpReturn asmOp mb i junk) fun v =>
      (asmOp.eval v i, some (asmOp.eval v i)) := by
  refine verified_loop (fun r => r .i = i) rfl (by simp [llScAtomicOpReturn]) ?_
  rintro r rfl
  cases mb <;> simp [llScAtomicOpReturn]

theorem verified_llScAtomicFetchOp :
    Verified (llScAtomicFetchOp asmOp mb i junk) fun v => (asmOp.eval v i, some v) := by
  refine verified_loop (fun r => r .i = i) rfl (by simp [llScAtomicFetchOp]) ?_
  rintro r rfl
  cases mb <;> simp [llScAtomicFetchOp]

theorem AtomicOp.eval_asmOp (o : AtomicOp) (v i : BitVec 32) : o.asmOp.eval v i = o.eval v i := by
  cases o <;> rfl

theorem AtomicFn.verified_llSc (fn : AtomicFn) : Verified (fn.llSc junk) fn.apply := by
  cases fn with
  | op o i =>
      have h : Verified (llScAtomicOp o.asmOp i junk) _ := verified_llScAtomicOp
      simp only [o.eval_asmOp] at h
      exact h
  | fetchOp o mb i =>
      have h : Verified (llScAtomicFetchOp o.asmOp mb i junk) _ := verified_llScAtomicFetchOp
      simp only [o.eval_asmOp] at h
      exact h
  | addReturn mb i => exact verified_llScAtomicOpReturn
  | subReturn mb i => exact verified_llScAtomicOpReturn
  | read => exact .ofStraight (by simp [AtomicFn.llSc, atomicRead, AtomicFn.apply])
  | set i => exact .ofStraight (by simp [AtomicFn.llSc, atomicSet, AtomicFn.apply])

theorem AtomicFn.verified_lse (fn : AtomicFn) : Verified (fn.lse junk) fn.apply := by
  cases fn with
  | op o i =>
      refine .ofStraight ?_
      cases o <;>
        simp [AtomicFn.lse, lseAtomicOp, lseAtomicAnd, lseAtomicSub, LseOp.eval, AtomicFn.apply,
          AtomicOp.eval, BitVec.sub_eq_add_neg]
  | fetchOp o mb i =>
      refine .ofStraight ?_
      cases o <;>
        simp [AtomicFn.lse, lseAtomicFetchOp, lseAtomicFetchAnd, lseAtomicFetchSub, LseOp.eval,
          AtomicFn.apply, AtomicOp.eval, BitVec.sub_eq_add_neg]
  | addReturn mb i =>
      refine .ofStraight ?_
      simp [AtomicFn.lse, lseAtomicAddReturn, LseOp.eval, AsmOp.eval, AtomicFn.apply, BitVec.add_comm]
  | subReturn mb i =>
      refine .ofStraight ?_
      simp [AtomicFn.lse, lseAtomicSubReturn, LseOp.eval, AsmOp.eval, AtomicFn.apply,
        BitVec.sub_eq_add_neg, BitVec.add_comm]
  | read => exact .ofStraight (by simp [AtomicFn.lse, atomicRead, AtomicFn.apply])
  | set i => exact .ofStraight (by simp [AtomicFn.lse, atomicSet, AtomicFn.apply])

theorem AtomicCall.verified (c : AtomicCall) : Verified c.routine c.fn.apply := by
  unfold AtomicCall.routine
  split
  · exact c.fn.verified_lse
  · exact c.fn.verified_llSc

/-- **The functions on an `atomic_t` are atomic.**  Any number of threads call them on one
counter, each in one of the two builds, and their instructions interleave in any way, with store
exclusives that fail or not.  Then the calls and returns, and the counter, are as if each call
took effect in one step between its beginning and its end. -/
theorem atomics_linearizable {T : Type*} [DecidableEq T] {m : BitVec 32}
    {es : List (CallEvent T AtomicCall Value)}
    {s : Config T (BitVec 32) AtomicCall (Regs 32)}
    (hrun : Run (ConfigStep AtomicCall.routine) (Config.init m) es s) :
    ∃ u, Run (AtomicStep fun c => c.fn.apply) (Atomic.init m) es u ∧ u.mem = s.mem :=
  linearizable AtomicCall.verified hrun

/-- An addition that is made again because of another one. -/
theorem atomics_linearizable_retry :
    ∃ es u, Run (AtomicStep fun c : AtomicCall => c.fn.apply) (Atomic.init 0) es u ∧
      (u : Atomic Bool (BitVec 32) AtomicCall Value).mem = 6 := by
  obtain ⟨es, s, hrun, hmem⟩ := exists_run_of_schedule
    (ConfigStep.of_act AtomicCall.routine)
    (s := (Config.init 0 : Config Bool (BitVec 32) AtomicCall (Regs 32)))
    [.call false ⟨.fetchOp .add true 1, false, fun _ => 7⟩, .exec false false, .exec false false,
      .exec false false, .call true ⟨.op .add 5, true, fun _ => 7⟩, .exec true false,
      .exec false false, .exec false false, .exec false false, .exec false false,
      .exec false true, .exec false false, .exec false false, .ret false, .ret true]
    (fun _ s => decide (s.mem = 6)) (by decide +kernel)
  obtain ⟨u, hu, heq⟩ := atomics_linearizable hrun
  exact ⟨es, u, hu, heq.trans (of_decide_eq_true hmem)⟩

/-! ### `cmpxchg.h` -/

/-- The sizes of `__cmpxchg` and `__xchg`. -/
inductive Size where
  | one
  | two
  | four
  | eight
deriving DecidableEq

/-- `sz` -/
def Size.bits : Size → ℕ
  | .one => 8
  | .two => 16
  | .four => 32
  | .eight => 64

/-- `w`: the width of the registers -/
def Size.width : Size → ℕ
  | .eight => 64
  | _ => 32

/-- The register of `old`, after `if (sz < 32) old = (u##sz)old`. -/
def Size.oldReg (size : Size) (old : BitVec 64) : BitVec size.width :=
  (if size.bits < 32 then (old.setWidth size.bits).setWidth 64 else old).setWidth size.width

/-- `__ll_sc__cmpxchg_case_##name##sz` -/
def llScCmpxchgCase (size : Size) (mb : Bool) (old : BitVec 64) (new : BitVec size.width)
    (junk : Regs size.width) :
    Routine (BitVec size.bits) (Regs size.width) (BitVec size.bits) where
  code := [nop, ldxr .oldval, alu .eor .tmp .oldval .old, cbnz .tmp (if mb then 7 else 6),
    stxr .tmp .new, cbnz .tmp 1] ++ barrier mb
  args := Function.update (Function.update junk .old (size.oldReg old)) .new new
  result := fun r => (r .oldval).setWidth size.bits

/-- `__lse__cmpxchg_case_##name##sz` -/
def lseCmpxchgCase (size : Size) (old new : BitVec size.width) (junk : Regs size.width) :
    Routine (BitVec size.bits) (Regs size.width) (BitVec size.bits) where
  code := [mov .tmp .old, cas .tmp .new, mov .ret .tmp]
  args := Function.update (Function.update junk .old old) .new new
  result := fun r => (r .ret).setWidth size.bits

/-- `__xchg_case_##name##sz` -/
def llScXchgCase (size : Size) (mb : Bool) (x : BitVec size.width) (junk : Regs size.width) :
    Routine (BitVec size.bits) (Regs size.width) (BitVec size.bits) where
  code := [nop, ldxr .ret, stxr .tmp .x, cbnz .tmp 1] ++ barrier mb
  args := Function.update junk .x x
  result := fun r => (r .ret).setWidth size.bits

/-- `__xchg_case_##name##sz` with `CONFIG_ARM64_LSE_ATOMICS` -/
def lseXchgCase (size : Size) (x : BitVec size.width) (junk : Regs size.width) :
    Routine (BitVec size.bits) (Regs size.width) (BitVec size.bits) where
  code := [swp .x .ret, nop, nop, nop, nop]
  args := Function.update junk .x x
  result := fun r => (r .ret).setWidth size.bits

/-- The functions on a word of `sz` bits.  The upper bits of a register that holds a smaller
number come with it: `old` reaches the loop as an `unsigned long`. -/
inductive WordFn (size : Size) where
  /-- `__cmpxchg_case_##name##sz` -/
  | cmpxchg (mb : Bool) (old : BitVec 64) (new : BitVec size.width)
  /-- `__xchg_case_##name##sz` -/
  | xchg (mb : Bool) (x : BitVec size.width)

def WordFn.apply {size : Size} :
    WordFn size → BitVec size.bits → BitVec size.bits × BitVec size.bits
  | .cmpxchg _ old new, v =>
      (if v = old.setWidth size.bits then new.setWidth size.bits else v, v)
  | .xchg _ x, v => (x.setWidth size.bits, v)

structure WordCall (size : Size) where
  fn : WordFn size
  lse : Bool
  junk : Regs size.width

def WordCall.routine {size : Size} (c : WordCall size) :
    Routine (BitVec size.bits) (Regs size.width) (BitVec size.bits) :=
  match c.fn, c.lse with
  | .cmpxchg mb old new, false => llScCmpxchgCase size mb old new c.junk
  | .cmpxchg _ old new, true => lseCmpxchgCase size (old.setWidth size.width) new c.junk
  | .xchg mb x, false => llScXchgCase size mb x c.junk
  | .xchg _ x, true => lseXchgCase size x c.junk

variable {size : Size}

theorem Size.bits_le (size : Size) : size.bits ≤ size.width := by
  cases size <;> decide

theorem Size.width_le (size : Size) : size.width ≤ 64 := by
  cases size <;> decide

@[simp] theorem Size.width_ne_zero (size : Size) : size.width ≠ 0 := by
  cases size <;> decide

/-- What is loaded into a register comes back. -/
@[simp] theorem Size.narrow (m : BitVec size.bits) :
    (m.setWidth size.width).setWidth size.bits = m := by
  rw [BitVec.setWidth_setWidth_of_le _ size.bits_le, BitVec.setWidth_eq]

/-- **The cast of `old`.**  The register that is compared has no more bits than the word. -/
theorem Size.eor_oldReg_eq_zero (m : BitVec size.bits) (old : BitVec 64) :
    m.setWidth size.width ^^^ size.oldReg old = 0#(size.width) ↔ m = old.setWidth size.bits := by
  have hreg : size.oldReg old = (old.setWidth size.bits).setWidth size.width := by
    unfold Size.oldReg
    split
    · rw [BitVec.setWidth_setWidth_of_le _ size.width_le]
    · cases size with
      | one => exact absurd (by decide : Size.one.bits < 32) ‹_›
      | two => exact absurd (by decide : Size.two.bits < 32) ‹_›
      | four => simp [Size.bits, Size.width]
      | eight => simp [Size.bits, Size.width]
  rw [BitVec.xor_eq_zero_iff, hreg]
  constructor
  · intro h
    rw [← Size.narrow m, h, Size.narrow]
  · intro h
    rw [h]

theorem verified_llScCmpxchgCase {mb : Bool} {old : BitVec 64} {new : BitVec size.width}
    {junk : Regs size.width} :
    Verified (llScCmpxchgCase size mb old new junk) (WordFn.cmpxchg mb old new).apply := by
  refine verified_loop (fun r => r .old = size.oldReg old ∧ r .new = new) rfl
    (by simp [llScCmpxchgCase]) ?_
  rintro r ⟨hold, rfl⟩
  have hcmp (m : BitVec size.bits) := size.eor_oldReg_eq_zero m old
  cases mb <;>
  · intro m
    by_cases hm : m = old.setWidth size.bits
    · left
      simp [llScCmpxchgCase, AsmOp.eval, WordFn.apply, hold, hcmp, hm]
    · right
      simp [llScCmpxchgCase, AsmOp.eval, WordFn.apply, hold, hcmp, hm]

theorem verified_lseCmpxchgCase {mb : Bool} {old : BitVec 64} {new : BitVec size.width}
    {junk : Regs size.width} :
    Verified (lseCmpxchgCase size (old.setWidth size.width) new junk)
      (WordFn.cmpxchg mb old new).apply := by
  refine .ofStraight fun m => ?_
  by_cases hm : m = old.setWidth size.bits
  · simp [lseCmpxchgCase, WordFn.apply, hm, BitVec.setWidth_setWidth_of_le _ size.bits_le]
  · simp [lseCmpxchgCase, WordFn.apply, hm, BitVec.setWidth_setWidth_of_le _ size.bits_le]

theorem verified_llScXchgCase {mb : Bool} {x : BitVec size.width} {junk : Regs size.width} :
    Verified (llScXchgCase size mb x junk) (WordFn.xchg mb x).apply := by
  refine verified_loop (fun r => r .x = x) rfl (by simp [llScXchgCase]) ?_
  rintro r rfl
  cases mb <;> simp [llScXchgCase, WordFn.apply]

theorem verified_lseXchgCase {mb : Bool} {x : BitVec size.width} {junk : Regs size.width} :
    Verified (lseXchgCase size x junk) (WordFn.xchg mb x).apply :=
  .ofStraight (by simp [lseXchgCase, WordFn.apply])

theorem WordCall.verified (c : WordCall size) : Verified c.routine c.fn.apply := by
  obtain ⟨fn, lse, junk⟩ := c
  cases fn with
  | cmpxchg mb old new =>
      cases lse with
      | false => exact verified_llScCmpxchgCase
      | true => exact verified_lseCmpxchgCase
  | xchg mb x =>
      cases lse with
      | false => exact verified_llScXchgCase
      | true => exact verified_lseXchgCase

/-- **`cmpxchg` and `xchg` are atomic**, for words of every size and whatever the upper bits of
the registers hold. -/
theorem words_linearizable {T : Type*} [DecidableEq T] {m : BitVec size.bits}
    {es : List (CallEvent T (WordCall size) (BitVec size.bits))}
    {s : Config T (BitVec size.bits) (WordCall size) (Regs size.width)}
    (hrun : Run (ConfigStep WordCall.routine) (Config.init m) es s) :
    ∃ u, Run (AtomicStep fun c => c.fn.apply) (Atomic.init m) es u ∧ u.mem = s.mem :=
  linearizable WordCall.verified hrun

/-- The upper bits of `old` are not compared. -/
theorem words_linearizable_byte :
    ∃ es u, Run (AtomicStep fun c : WordCall .one => c.fn.apply) (Atomic.init 0x41) es u ∧
      (u : Atomic Bool (BitVec 8) (WordCall .one) (BitVec 8)).mem = 0x42 := by
  obtain ⟨es, s, hrun, hmem⟩ := exists_run_of_schedule
    (ConfigStep.of_act (@WordCall.routine .one))
    (s := (Config.init 0x41 : Config Bool (BitVec Size.one.bits) (WordCall .one) (Regs Size.one.width)))
    [.call false ⟨.cmpxchg false 0xff41 0xff42, false, fun _ => 7⟩, .exec false false,
      .exec false false, .exec false false, .exec false false, .exec false true,
      .exec false false, .ret false]
    (fun _ s => decide (s.mem = 0x42)) (by decide +kernel)
  obtain ⟨u, hu, heq⟩ := words_linearizable hrun
  exact ⟨es, u, hu, heq.trans (of_decide_eq_true hmem)⟩

/-! ### `cmpxchg_double` -/

/-- Two words that lie next to each other. -/
abbrev Pair := BitVec 64 × BitVec 64

/-- `ldxp`, as one load of both words -/
@[simp] def ldxp (d e : Reg) : Instr Pair (Regs 64) :=
  .load fun m r => Function.update (Function.update r d m.1) e m.2

/-- `stxp` -/
@[simp] def stxp (status s n : Reg) : Instr Pair (Regs 64) :=
  .store (fun r => (r s, r n)) fun failed r => Function.update r status (if failed then 1 else 0)

/-- `casp` -/
@[simp] def casp (s e n o : Reg) : Instr Pair (Regs 64) :=
  .rmw fun m r =>
    (if m = (r s, r e) then some (r n, r o) else none,
      Function.update (Function.update r s m.1) e m.2)

/-- The arguments of `cmpxchg_double`. -/
structure DoubleArgs where
  old : Pair
  new : Pair

/-- `__ll_sc__cmpxchg_double##name` -/
def llScCmpxchgDouble (mb : Bool) (a : DoubleArgs) (junk : Regs 64) :
    Routine Pair (Regs 64) (BitVec 64) where
  code := [nop, ldxp .tmp .ret, alu .eor .tmp .tmp .old1, alu .eor .ret .ret .old2,
    alu .orr .ret .tmp .ret, cbnz .ret (if mb then 9 else 8), stxp .tmp .new1 .new2, cbnz .tmp 1] ++
    barrier mb
  args := Function.update (Function.update (Function.update (Function.update junk .old1 a.old.1)
    .old2 a.old.2) .new1 a.new.1) .new2 a.new.2
  result := fun r => r .ret

/-- `__lse__cmpxchg_double##name` -/
def lseCmpxchgDouble (a : DoubleArgs) (junk : Regs 64) : Routine Pair (Regs 64) (BitVec 64) where
  code := [mov .oldval1 .old1, mov .oldval2 .old2, casp .old1 .old2 .new1 .new2,
    alu .eor .old1 .old1 .oldval1, alu .eor .old2 .old2 .oldval2, alu .orr .old1 .old1 .old2]
  args := Function.update (Function.update (Function.update (Function.update junk .old1 a.old.1)
    .old2 a.old.2) .new1 a.new.1) .new2 a.new.2
  result := fun r => r .old1

/-- Zero is returned when the words are exchanged. -/
def DoubleArgs.apply (a : DoubleArgs) (v : Pair) : Pair × BitVec 64 :=
  (if v = a.old then a.new else v, (v.1 ^^^ a.old.1) ||| (v.2 ^^^ a.old.2))

theorem DoubleArgs.differ_eq_zero (a : DoubleArgs) (v : Pair) :
    (v.1 ^^^ a.old.1) ||| (v.2 ^^^ a.old.2) = 0#64 ↔ v = a.old := by
  rw [BitVec.or_eq_zero_iff, BitVec.xor_eq_zero_iff, BitVec.xor_eq_zero_iff, Prod.ext_iff]

structure DoubleCall where
  args : DoubleArgs
  mb : Bool
  lse : Bool
  junk : Regs 64

def DoubleCall.routine (c : DoubleCall) : Routine Pair (Regs 64) (BitVec 64) :=
  if c.lse then lseCmpxchgDouble c.args c.junk else llScCmpxchgDouble c.mb c.args c.junk

theorem verified_llScCmpxchgDouble {a : DoubleArgs} {junk : Regs 64} :
    Verified (llScCmpxchgDouble mb a junk) a.apply := by
  refine verified_loop
    (fun r => r .old1 = a.old.1 ∧ r .old2 = a.old.2 ∧ r .new1 = a.new.1 ∧ r .new2 = a.new.2) rfl
    (by simp [llScCmpxchgDouble]) ?_
  rintro r ⟨h1, h2, h3, h4⟩
  have hcmp := a.differ_eq_zero
  cases mb <;>
  · intro m
    by_cases hm : m = a.old
    · left
      simp [llScCmpxchgDouble, AsmOp.eval, DoubleArgs.apply, h1, h2, h3, h4, hm]
    · right
      simp [llScCmpxchgDouble, AsmOp.eval, DoubleArgs.apply, h1, h2, hcmp, hm]

theorem verified_lseCmpxchgDouble {a : DoubleArgs} {junk : Regs 64} :
    Verified (lseCmpxchgDouble a junk) a.apply := by
  refine .ofStraight fun m => ?_
  by_cases hm : m = a.old
  · simp [lseCmpxchgDouble, AsmOp.eval, DoubleArgs.apply, hm]
  · simp [lseCmpxchgDouble, AsmOp.eval, DoubleArgs.apply, hm]

theorem DoubleCall.verified (c : DoubleCall) : Verified c.routine c.args.apply := by
  unfold DoubleCall.routine
  split
  · exact verified_lseCmpxchgDouble
  · exact verified_llScCmpxchgDouble

/-- **`cmpxchg_double` is atomic.**  Both words are exchanged together or not at all, and the
callers that are told of an exchange are those that made one. -/
theorem doubles_linearizable {T : Type*} [DecidableEq T] {m : Pair}
    {es : List (CallEvent T DoubleCall (BitVec 64))}
    {s : Config T Pair DoubleCall (Regs 64)}
    (hrun : Run (ConfigStep DoubleCall.routine) (Config.init m) es s) :
    (∃ u, Run (AtomicStep fun c => c.args.apply) (Atomic.init m) es u ∧ u.mem = s.mem) ∧
      ∀ (a : DoubleArgs) v, (a.apply v).2 = 0 ↔ v = a.old :=
  ⟨linearizable DoubleCall.verified hrun, fun a v => a.differ_eq_zero v⟩

theorem doubles_linearizable_exchange :
    ∃ es u, Run (AtomicStep fun c : DoubleCall => c.args.apply) (Atomic.init (1, 2)) es u ∧
      (u : Atomic Bool Pair DoubleCall (BitVec 64)).mem = (3, 4) := by
  obtain ⟨es, s, hrun, hmem⟩ := exists_run_of_schedule
    (ConfigStep.of_act DoubleCall.routine)
    (s := (Config.init (1, 2) : Config Bool Pair DoubleCall (Regs 64)))
    [.call false ⟨⟨(1, 2), (3, 4)⟩, false, true, fun _ => 7⟩, .exec false false, .exec false false,
      .exec false false, .exec false false, .exec false false, .exec false false, .ret false]
    (fun _ s => decide (s.mem = (3, 4))) (by decide +kernel)
  obtain ⟨⟨u, hu, heq⟩, -⟩ := doubles_linearizable hrun
  exact ⟨es, u, hu, heq.trans (of_decide_eq_true hmem)⟩

end MyTests.QueuedSpin
