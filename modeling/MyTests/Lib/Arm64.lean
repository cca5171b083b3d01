/-
MyTests/Lib/Arm64.lean

A part of the A64 instruction set: moves, additions and logic on 32- and 64-bit
registers with the condition flags, conditional selects, loads and stores with
base update, and branches.

A program is a list of instructions and the program counter an index into it.
A step emits the instruction it fetches and the address of every byte it loads,
so what a routine reads and how often it passes a label can be told from the
events of a run.  Straight-line code runs as a block (`run_block`).

`decode` reads the encodings of the instructions that are given as raw words.
-/
import MyTests.Lib.LittleEndian
import MyTests.Lib.Transition

namespace MyTests.Arm64

open MyTests.Lib

/-! ### State -/

instance neZero_registers : NeZero 31 := ⟨by decide⟩

/-- A register operand.  Number 31 is the zero register or the stack pointer,
depending on the instruction. -/
inductive Reg
  | x (n : Fin 31)
  | zr
  | sp
deriving DecidableEq, Repr

/-- The view of a register: all of it (`x0`) or its low half (`w0`). -/
inductive Width
  | w32
  | w64
deriving DecidableEq, Repr

def Width.bits : Width → ℕ
  | .w32 => 32
  | .w64 => 64

/-- The condition flags. -/
structure Flags where
  n : Bool
  z : Bool
  c : Bool
  v : Bool
deriving DecidableEq, Repr

structure State where
  gpr : Fin 31 → BitVec 64
  sp : BitVec 64
  flags : Flags
  /-- Index of the next instruction. -/
  pc : ℕ
  mem : BitVec 64 → BitVec 8
  /-- The address returned to, once the routine has returned. -/
  returned : Option (BitVec 64)

/-- What a step can be seen to do. -/
inductive Event
  | fetch (pc : ℕ)
  | load (a : BitVec 64)
deriving DecidableEq, Repr

/-- The fetched indices of a run. -/
def fetches (es : List Event) : List ℕ :=
  es.filterMap fun | .fetch pc => some pc | .load _ => none

/-- The loaded addresses of a run. -/
def loads (es : List Event) : List (BitVec 64) :=
  es.filterMap fun | .fetch _ => none | .load a => some a

@[simp] theorem fetches_append (es es' : List Event) : fetches (es ++ es') = fetches es ++ fetches es' :=
  List.filterMap_append

@[simp] theorem loads_append (es es' : List Event) : loads (es ++ es') = loads es ++ loads es' :=
  List.filterMap_append

namespace Width

/-- The view of a 64-bit value. -/
def view : (w : Width) → BitVec 64 → BitVec w.bits
  | .w32, v => v.setWidth 32
  | .w64, v => v

/-- A write to the low half clears the other half. -/
def extend : (w : Width) → BitVec w.bits → BitVec 64
  | .w32, v => v.setWidth 64
  | .w64, v => v

end Width

namespace State

def read (s : State) : Reg → BitVec 64
  | .x n => s.gpr n
  | .zr => 0#64
  | .sp => s.sp

def write (s : State) (r : Reg) (v : BitVec 64) : State :=
  match r with
  | .x n => { s with gpr := Function.update s.gpr n v }
  | .zr => s
  | .sp => { s with sp := v }

def next (s : State) : State := { s with pc := s.pc + 1 }

def branch (s : State) (taken : Bool) (target : ℕ) : State :=
  if taken then { s with pc := target } else s.next

end State

/-! ### Memory -/

/-- The `n` addresses from `a` on; they may wrap. -/
def span (a : BitVec 64) (n : ℕ) : List (BitVec 64) :=
  (List.range n).map fun i => a + BitVec.ofNat 64 i

theorem span_append (a : BitVec 64) (m n : ℕ) :
    span a (m + n) = span a m ++ span (a + BitVec.ofNat 64 m) n := by
  rw [span, List.range_add, List.map_append, List.map_map]
  refine congrArg _ (List.map_congr_left fun i _ => ?_)
  rw [Function.comp_apply, BitVec.ofNat_add, BitVec.add_assoc]

@[simp] theorem span_one (a : BitVec 64) : span a 1 = [a] := by
  rw [span, List.range_one, List.map_singleton, BitVec.add_zero]

theorem mem_span {a p : BitVec 64} {n : ℕ} :
    p ∈ span a n ↔ ∃ i < n, a + BitVec.ofNat 64 i = p := by
  simp only [span, List.mem_map, List.mem_range]

/-- An address of a stretch that does not wrap, by its number. -/
theorem add_ofNat_mem_span {a : BitVec 64} {n i : ℕ} (hn : n ≤ 2 ^ 64) (hi : i < 2 ^ 64) :
    a + BitVec.ofNat 64 i ∈ span a n ↔ i < n := by
  rw [mem_span]
  constructor
  · rintro ⟨j, hj, heq⟩
    have hnat := congrArg BitVec.toNat ((BitVec.add_right_inj a).mp heq)
    rw [BitVec.toNat_ofNat, BitVec.toNat_ofNat, Nat.mod_eq_of_lt (hj.trans_le hn),
      Nat.mod_eq_of_lt hi] at hnat
    omega
  · exact fun h => ⟨i, h, rfl⟩

def load64 (mem : BitVec 64 → BitVec 8) (a : BitVec 64) : BitVec 64 :=
  word64 fun i => mem (a + BitVec.ofNat 64 i)

def store64 (mem : BitVec 64 → BitVec 8) (a v : BitVec 64) : BitVec 64 → BitVec 8 := fun p =>
  if (p - a).toNat < 8 then byteOf v (p - a).toNat else mem p

theorem load64_store64 (mem : BitVec 64 → BitVec 8) (a v : BitVec 64) :
    load64 (store64 mem a v) a = v := by
  rw [← word64_byteOf v]
  refine word64_congr fun i hi => ?_
  have hoff : (a + BitVec.ofNat 64 i - a).toNat = i := by bv_omega
  rw [store64, hoff, if_pos hi, word64_byteOf]

/-- Words that do not overlap do not disturb each other. -/
theorem load64_store64_of_disjoint (mem : BitVec 64 → BitVec 8) {a a' : BitVec 64} (v : BitVec 64)
    (h : ∀ i < 8, 8 ≤ (a' + BitVec.ofNat 64 i - a).toNat) :
    load64 (store64 mem a v) a' = load64 mem a' :=
  word64_congr fun i hi => if_neg (Nat.not_lt.mpr (h i hi))

/-- A pair of words is read back as it was stored. -/
theorem load64_pair (mem : BitVec 64 → BitVec 8) (a v w : BitVec 64) :
    load64 (store64 (store64 mem a v) (a + 8#64) w) a = v
      ∧ load64 (store64 (store64 mem a v) (a + 8#64) w) (a + 8#64) = w := by
  refine ⟨?_, load64_store64 _ _ _⟩
  rw [load64_store64_of_disjoint _ _ fun i hi => ?_, load64_store64]
  bv_omega

/-! ### Instructions -/

inductive Cond
  | eq
  | ne
  | lt
  | ls
deriving DecidableEq, Repr

def Cond.holds (f : Flags) : Cond → Bool
  | .eq => f.z
  | .ne => !f.z
  | .lt => f.n != f.v
  | .ls => !(f.c && !f.z)

/-- Operations of two values; the ones that end in `s` set the flags. -/
inductive AluOp
  | add
  | sub
  | subs
  | and
  | ands
  | orr
  | orn
deriving DecidableEq, Repr

namespace AluOp

variable {k : ℕ}

def eval (a b : BitVec k) : AluOp → BitVec k
  | .add => a + b
  | .sub | .subs => a - b
  | .and | .ands => a &&& b
  | .orr => a ||| b
  | .orn => a ||| ~~~b

/-- A subtraction sets the carry when it does not borrow. -/
def flags (a b : BitVec k) (old : Flags) : AluOp → Flags
  | .subs =>
      { n := (a - b).msb, z := a - b == 0#k, c := b.ule a, v := a.msb != b.msb && (a - b).msb != a.msb }
  | .ands => { n := (a &&& b).msb, z := a &&& b == 0#k, c := false, v := false }
  | _ => old

/-- After a comparison `ls` is unsigned "less or equal". -/
theorem holds_ls_subs (a b : BitVec k) (old : Flags) :
    Cond.ls.holds (subs.flags a b old) = decide (a ≤ b) := by
  have hz : (a - b == 0#k) = decide (a = b) := by
    rw [Bool.eq_iff_iff, beq_iff_eq, decide_eq_true_iff]
    exact sub_eq_zero
  show (!(b.ule a && !(a - b == 0#k))) = _
  rw [hz, BitVec.ule_eq_decide, Bool.eq_iff_iff]
  simp only [Bool.not_eq_true', Bool.and_eq_false_iff, decide_eq_false_iff_not, decide_eq_true_iff,
    Bool.not_eq_false', BitVec.le_def, ← BitVec.toNat_inj]
  omega

/-- After a comparison of values that are not negative `lt` is "less". -/
theorem holds_lt_subs {a b : BitVec k} (old : Flags) (ha : a.msb = false) (hb : b.msb = false) :
    Cond.lt.holds (subs.flags a b old) = decide (a < b) := by
  show ((a - b).msb != (a.msb != b.msb && (a - b).msb != a.msb)) = _
  rw [ha, hb]
  simp only [bne_self_eq_false, Bool.false_and, Bool.bne_false]
  rw [BitVec.msb_eq_decide, decide_eq_false_iff_not, Nat.not_le] at ha hb
  rw [BitVec.msb_eq_decide, decide_eq_decide, BitVec.lt_def]
  have hpow : 2 ^ (k - 1) + 2 ^ (k - 1) ≤ 2 ^ k ∨ k = 0 := by
    cases k with
    | zero => exact .inr rfl
    | succ k => exact .inl (by rw [Nat.add_sub_cancel, Nat.pow_succ]; omega)
  rcases hpow with hpow | rfl
  · rcases Nat.lt_or_ge a.toNat b.toNat with hlt | hge
    · rw [BitVec.toNat_sub_of_lt (BitVec.lt_def.mpr hlt)]
      omega
    · rw [BitVec.toNat_sub_of_le (BitVec.le_def.mpr hge)]
      omega
  · simp [BitVec.of_length_zero]

end AluOp

inductive Operand (w : Width)
  | reg (m : Reg)
  | imm (v : BitVec w.bits)

inductive Instr
  /-- A move of an immediate. -/
  | movz (w : Width) (d : Reg) (v : BitVec w.bits)
  | alu (op : AluOp) (w : Width) (d n : Reg) (m : Operand w)
  | lsl (w : Width) (d n : Reg) (k : ℕ)
  | lsr (w : Width) (d n : Reg) (k : ℕ)
  | sxtb (d n : Reg)
  | csel (w : Width) (d n m : Reg) (c : Cond)
  | csinv (w : Width) (d n m : Reg) (c : Cond)
  /-- `[n, #off]`. -/
  | ldr (t n : Reg) (off : BitVec 64)
  | str (t n : Reg) (off : BitVec 64)
  /-- `[n], #off`. -/
  | ldrbPost (t n : Reg) (off : BitVec 64)
  | ldpPost (t t' n : Reg) (off : BitVec 64)
  /-- `[n, #off]!`. -/
  | stpPre (t t' n : Reg) (off : BitVec 64)
  | cbz (w : Width) (t : Reg) (target : ℕ)
  | bcond (c : Cond) (target : ℕ)
  | ret

namespace Instr

/-- The second operand of an operation. -/
def operand (s : State) {w : Width} : Operand w → BitVec w.bits
  | .reg m => w.view (s.read m)
  | .imm v => v

def exec (s : State) : Instr → State
  | movz w d v => (s.write d (w.extend v)).next
  | alu op w d n m =>
      let a := w.view (s.read n)
      let b := operand s m
      { (s.write d (w.extend (op.eval a b))).next with flags := op.flags a b s.flags }
  | lsl w d n k => (s.write d (w.extend (w.view (s.read n) <<< k))).next
  | lsr w d n k => (s.write d (w.extend (w.view (s.read n) >>> k))).next
  | sxtb d n => (s.write d (((s.read n).setWidth 8).signExtend 32 |>.setWidth 64)).next
  | csel w d n m c =>
      (s.write d (w.extend (if c.holds s.flags then w.view (s.read n)
        else w.view (s.read m)))).next
  | csinv w d n m c =>
      (s.write d (w.extend (if c.holds s.flags then w.view (s.read n)
        else ~~~w.view (s.read m)))).next
  | ldr t n off => (s.write t (load64 s.mem (s.read n + off))).next
  | str t n off => { s with mem := store64 s.mem (s.read n + off) (s.read t) }.next
  | ldrbPost t n off =>
      ((s.write t ((s.mem (s.read n)).setWidth 64)).write n (s.read n + off)).next
  | ldpPost t t' n off =>
      (((s.write t (load64 s.mem (s.read n))).write t' (load64 s.mem (s.read n + 8#64))).write n
        (s.read n + off)).next
  | stpPre t t' n off =>
      let a := s.read n + off
      ({ s with mem := store64 (store64 s.mem a (s.read t)) (a + 8#64) (s.read t') }.write n a).next
  | cbz w t target => s.branch (w.view (s.read t) == 0#w.bits) target
  | bcond c target => s.branch (c.holds s.flags) target
  | ret => { s with returned := some (s.gpr 30) }

/-- The addresses it loads from. -/
def loaded (s : State) : Instr → List (BitVec 64)
  | ldr _ n off => span (s.read n + off) 8
  | ldrbPost _ n _ => [s.read n]
  | ldpPost _ _ n _ => span (s.read n) 16
  | _ => []

def events (s : State) (i : Instr) : List Event := .fetch s.pc :: (i.loaded s).map .load

/-- Not a branch. -/
def isSequential : Instr → Bool
  | cbz .. | bcond .. | ret => false
  | _ => true

theorem exec_sequential (s : State) {i : Instr} (hi : i.isSequential = true) :
    (i.exec s).pc = s.pc + 1 ∧ (i.exec s).returned = s.returned := by
  have hwrite : ∀ (s : State) (r : Reg) v, (s.write r v).pc = s.pc
      ∧ (s.write r v).returned = s.returned := by
    intro s r v
    cases r <;> exact ⟨rfl, rfl⟩
  cases i <;> simp_all [isSequential, exec, State.next]

end Instr

/-! ### Execution -/

/-- The instruction at the program counter; a routine that has returned is done. -/
def Step (prog : List Instr) (s : State) (es : List Event) (t : State) : Prop :=
  s.returned = none ∧ ∃ i, prog[s.pc]? = some i ∧ es = i.events s ∧ t = i.exec s

theorem step_deterministic (prog : List Instr) : Deterministic (Step prog) := by
  rintro s e t e' t' ⟨-, i, hi, rfl, rfl⟩ ⟨-, i', hi', rfl, rfl⟩
  obtain rfl := Option.some.inj (hi.symm.trans hi')
  exact ⟨rfl, rfl⟩

theorem not_step_of_returned {prog : List Instr} {s : State} (h : s.returned ≠ none) (e : List Event)
    (t : State) : ¬ Step prog s e t :=
  fun hs => h hs.1

/-- The events of straight-line code. -/
def blockEvents : List Instr → State → List Event
  | [], _ => []
  | i :: is, s => i.events s ++ blockEvents is (i.exec s)

/-- The end state of straight-line code. -/
def execBlock (is : List Instr) (s : State) : State := is.foldl (fun s i => i.exec s) s

variable {prog : List Instr} {s : State}

theorem run_instr {i : Instr} (hret : s.returned = none) (hi : prog[s.pc]? = some i) :
    Run (Step prog) s (i.events s) (i.exec s) :=
  Run.single ⟨hret, i, hi, rfl, rfl⟩

/-- **Straight-line code runs as a block.** -/
theorem run_block {is : List Instr} (hseq : ∀ i ∈ is, i.isSequential = true)
    (hret : s.returned = none) (hcode : is <+: prog.drop s.pc) :
    Run (Step prog) s (blockEvents is s) (execBlock is s) := by
  induction is generalizing s with
  | nil => exact .refl
  | cons i is ih =>
      obtain ⟨hi, his⟩ := List.forall_mem_cons.mp hseq
      obtain ⟨hpc, hret'⟩ := i.exec_sequential s hi
      obtain ⟨rest, hrest⟩ := hcode
      have hfetch : prog[s.pc]? = some i := by
        rw [← List.head?_drop, ← hrest]
        rfl
      refine (run_instr hret hfetch).trans (ih his (hret'.trans hret) ⟨rest, ?_⟩)
      rw [hpc, ← List.drop_drop, List.drop_one, ← hrest]
      rfl

/-- `run_instr`, at a known place. -/
theorem run_instr_at {i : Instr} {pc : ℕ} (hret : s.returned = none) (hpc : s.pc = pc)
    (hi : prog[pc]? = some i) : Run (Step prog) s (i.events s) (i.exec s) := by
  subst hpc
  exact run_instr hret hi

theorem branch_decide {p : Prop} [Decidable p] {target pc : ℕ} (hpc : s.pc = pc) :
    s.branch (decide p) target = { s with pc := if p then target else pc + 1 } := by
  subst hpc
  by_cases hp : p
  · rw [decide_eq_true hp, if_pos hp]
    rfl
  · rw [decide_eq_false hp, if_neg hp]
    rfl

/-- A conditional branch. -/
theorem run_bcond {c : Cond} {target pc : ℕ} {p : Prop} [Decidable p] (hret : s.returned = none)
    (hpc : s.pc = pc) (hi : prog[pc]? = some (.bcond c target))
    (hc : c.holds s.flags = decide p) :
    Run (Step prog) s [.fetch pc] { s with pc := if p then target else pc + 1 } := by
  have hrun := run_instr_at hret hpc hi
  have hexec : Instr.exec s (.bcond c target) = s.branch (decide p) target := by
    rw [← hc]
    rfl
  rwa [hexec, branch_decide hpc, Instr.events, hpc] at hrun

/-- `run_block`, at a known place. -/
theorem run_block_at {is : List Instr} {pc : ℕ} (hseq : ∀ i ∈ is, i.isSequential = true)
    (hret : s.returned = none) (hpc : s.pc = pc) (hcode : is <+: prog.drop pc) :
    Run (Step prog) s (blockEvents is s) (execBlock is s) := by
  subst hpc
  exact run_block hseq hret hcode

/-! ### Encodings -/

/-- Register 31 read as the zero register. -/
def regZ (n : BitVec 5) : Reg := if h : n.toNat < 31 then .x ⟨n.toNat, h⟩ else .zr

/-- Register 31 read as the stack pointer. -/
def regSP (n : BitVec 5) : Reg := if h : n.toNat < 31 then .x ⟨n.toNat, h⟩ else .sp

def condOf (c : BitVec 4) : Option Cond :=
  if c = 0b0000#4 then some .eq
  else if c = 0b0001#4 then some .ne
  else if c = 0b1011#4 then some .lt
  else if c = 0b1001#4 then some .ls
  else none

/-- The operation of a 64-bit shifted-register encoding, by its bits 31-21 (no
shift). -/
def aluOpOf (op : BitVec 11) : Option AluOp :=
  if op = 0b10001010000#11 then some .and
  else if op = 0b10101010000#11 then some .orr
  else if op = 0b11101010000#11 then some .ands
  else if op = 0b11001011000#11 then some .sub
  else none

/-- The instruction that a word encodes. -/
def decode (i : BitVec 32) : Option Instr :=
  let d := i.extractLsb' 0 5
  let n := i.extractLsb' 5 5
  let m := i.extractLsb' 16 5
  let imm12 := (i.extractLsb' 10 12).setWidth 64
  let pair := i.extractLsb' 10 5
  -- the offset of a pair is counted in registers
  let imm7 := (i.extractLsb' 15 7).signExtend 64 <<< 3
  let op10 := i.extractLsb' 22 10
  if op10 = 0b1010100110#10 then some (.stpPre (regZ d) (regZ pair) (regSP n) imm7)
  else if op10 = 0b1010100011#10 then some (.ldpPost (regZ d) (regZ pair) (regSP n) imm7)
  else if op10 = 0b1001000100#10 then some (.alu .add .w64 (regSP d) (regSP n) (.imm imm12))
  else if op10 = 0b1101000100#10 then some (.alu .sub .w64 (regSP d) (regSP n) (.imm imm12))
  else if op10 = 0b1101001101#10 then
    -- of the bitfield moves only the alias `lsl`
    let immr := i.extractLsb' 16 6
    let imms := i.extractLsb' 10 6
    if imms ≠ 63#6 ∧ immr = imms + 1#6 then some (.lsl .w64 (regZ d) (regZ n) (63 - imms.toNat))
    else none
  else if i.extractLsb' 21 11 = 0b01010010100#11 then
    some (.movz .w32 (regZ d) ((i.extractLsb' 5 16).setWidth 32))
  else if i.extractLsb' 21 11 = 0b10011010100#11 then
    if i.extractLsb' 10 2 = 0#2 then
      (condOf (i.extractLsb' 12 4)).map (.csel .w64 (regZ d) (regZ n) (regZ m))
    else none
  else if i.extractLsb' 10 6 = 0#6 then
    (aluOpOf (i.extractLsb' 21 11)).map fun op => .alu op .w64 (regZ d) (regZ n) (.reg (regZ m))
  else none

end MyTests.Arm64
