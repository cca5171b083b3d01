/-
MyTests/Ascii/Asm.lean

`ascii_u64_asm` of `ascii.S`.

The comment at its head declares `int len`, so a caller sets `w1` and may leave
anything in the upper half of `x1`.  The routine compares and reduces the length
as `w1`, but computes the end of its block loop from `x1`.  Up to 15 bytes the
loop is skipped; otherwise the end is right just when the upper half is zero.  The
last section says what else can happen to go well.
-/
import MyTests.Ascii.Checks
import MyTests.Lib.Arm64

namespace MyTests.Ascii

open MyTests.Lib MyTests.Arm64

/-! ### The routine -/

/-- Index of the label `.L16_loop`. -/
def l16Loop : ℕ := 7

/-- Index of the label `.Lremaining`. -/
def lRemaining : ℕ := 16

/-- Index of the label `.Lremaining_loop`. -/
def lRemainingLoop : ℕ := 17

/-- Index of the label `.Lend`. -/
def lEnd : ℕ := 21

/-- The test of the length: `w_orall` is `w2`. -/
def testLen : List Instr :=
  [.movz .w32 (.x 2) 0#32,
   .alu .subs .w32 .zr (.x 1) (.imm 16#32)]

/-- `x_or1`, `x_or2` and `x_data_end` are `x3`, `x4` and `x7`. -/
def setupLoop : List Instr :=
  [.movz .w64 (.x 3) 0#64,
   .movz .w64 (.x 4) 0#64,
   .alu .add .w64 (.x 7) (.x 0) (.reg (.x 1)),
   .alu .sub .w64 (.x 7) (.x 7) (.imm 16#64)]

/-- The block loop up to its branch. -/
def blockBody : List Instr :=
  [.ldpPost (.x 5) (.x 6) (.x 0) 16#64,
   .alu .orr .w64 (.x 3) (.x 3) (.reg (.x 5)),
   .alu .orr .w64 (.x 4) (.x 4) (.reg (.x 6)),
   .alu .subs .w64 .zr (.x 0) (.reg (.x 7))]

/-- The rest of the length, and the flag of the blocks in `w_orall`. -/
def foldBlocks : List Instr :=
  [.alu .and .w32 (.x 1) (.x 1) (.imm 0xF#32),
   .alu .orr .w64 (.x 3) (.x 3) (.reg (.x 4)),
   .alu .ands .w64 .zr (.x 3) (.imm 0x8080808080808080#64),
   .csinv .w32 (.x 2) .zr .zr .eq]

/-- The byte loop up to its branch. -/
def byteBody : List Instr :=
  [.ldrbPost (.x 5) (.x 0) 1#64,
   .alu .orr .w32 (.x 2) (.x 2) (.reg (.x 5)),
   .alu .subs .w32 (.x 1) (.x 1) (.imm 1#32)]

/-- `w_valid = (w_orall & 0x80) ? 0 : 1`. -/
def result : List Instr :=
  [.sxtb (.x 0) (.x 2),
   .alu .orn .w32 (.x 0) .zr (.reg (.x 0)),
   .lsr .w32 (.x 0) (.x 0) 31]

/-- `ascii_u64_asm`. -/
def asciiU64Asm : List Instr :=
  testLen ++ .bcond .lt lRemaining :: setupLoop ++ blockBody ++ .bcond .ls l16Loop :: foldBlocks
    ++ .cbz .w32 (.x 1) lEnd :: byteBody ++ .bcond .ne lRemainingLoop :: result ++ [.ret]

/-! ### What a caller provides -/

/-- A call on the `len` bytes at `x0`: `w1` is the length, an `int`, and the buffer
does not wrap. -/
structure Entry (s : State) (len : ℕ) : Prop where
  pc : s.pc = 0
  running : s.returned = none
  len_lt : len < 2 ^ 31
  w1 : (s.gpr 1).setWidth 32 = BitVec.ofNat 32 len
  buffer_lt : (s.gpr 0).toNat + len < 2 ^ 64

theorem Entry.x1_mod {s : State} {len : ℕ} (h : Entry s len) : (s.gpr 1).toNat % 2 ^ 32 = len := by
  have hnat := congrArg BitVec.toNat h.w1
  have hlen := h.len_lt
  rwa [BitVec.toNat_setWidth, BitVec.toNat_ofNat, Nat.mod_eq_of_lt (by omega : len < 2 ^ 32)] at hnat

/-- `n` bytes of memory from `a` on are below 0x80. -/
def MemClean (mem : BitVec 64 → BitVec 8) (a : BitVec 64) (n : ℕ) : Prop :=
  ∀ i < n, mem (a + BitVec.ofNat 64 i) < 0x80#8

theorem memClean_add {mem : BitVec 64 → BitVec 8} {a : BitVec 64} {m n : ℕ} :
    MemClean mem a (m + n) ↔ MemClean mem a m ∧ MemClean mem (a + BitVec.ofNat 64 m) n := by
  constructor
  · intro h
    refine ⟨fun i hi => h i (Nat.lt_add_right n hi), fun i hi => ?_⟩
    rw [BitVec.add_assoc, ← BitVec.ofNat_add]
    exact h _ (Nat.add_lt_add_left hi m)
  · rintro ⟨hl, hr⟩ i hi
    rcases Nat.lt_or_ge i m with him | him
    · exact hl i him
    · have hi' := hr (i - m) (by omega)
      rwa [BitVec.add_assoc, ← BitVec.ofNat_add, Nat.add_sub_cancel' him] at hi'

theorem memClean_one {mem : BitVec 64 → BitVec 8} {a : BitVec 64} :
    MemClean mem a 1 ↔ mem a < 0x80#8 := by
  rw [MemClean, Nat.forall_lt_succ_left, BitVec.add_zero]
  exact and_iff_left fun i hi => absurd hi (Nat.not_lt_zero i)

theorem tops_load64 (mem : BitVec 64 → BitVec 8) (a : BitVec 64) :
    tops (Arm64.load64 mem a) = 0#64 ↔ MemClean mem a 8 :=
  word64_msb_eq_zero _

variable {s t : State} {len : ℕ}

/-! ### The block loop -/

/-- `k` blocks of the call from `s₀` are gathered. -/
structure Looping (s₀ : State) (k : ℕ) (t : State) : Prop where
  running : t.returned = none
  data : t.gpr 0 = s₀.gpr 0 + BitVec.ofNat 64 (16 * k)
  len : t.gpr 1 = s₀.gpr 1
  limit : t.gpr 7 = s₀.gpr 0 + s₀.gpr 1 - 16#64
  lr : t.gpr 30 = s₀.gpr 30
  mem : t.mem = s₀.mem
  clean : tops (t.gpr 3 ||| t.gpr 4) = 0#64 ↔ MemClean s₀.mem (s₀.gpr 0) (16 * k)

/-- The branch at the end of the block loop is about to be taken or not. -/
structure AtBranch (s₀ : State) (k : ℕ) (t : State) : Prop extends Looping s₀ k t where
  pc : t.pc = 11
  ls : Cond.ls.holds t.flags = decide (t.gpr 0 ≤ t.gpr 7)

variable {s₀ : State} {k : ℕ}

/-- **A block.** -/
theorem Looping.block (h : Looping s₀ k t) (hpc : t.pc = l16Loop) :
    ∃ es u, Run (Step asciiU64Asm) t es u ∧ AtBranch s₀ (k + 1) u
      ∧ loads es = span (s₀.gpr 0 + BitVec.ofNat 64 (16 * k)) 16 := by
  have hrun : Run (Step asciiU64Asm) t (blockEvents blockBody t) (execBlock blockBody t) :=
    run_block_at (by decide) h.running hpc ⟨_, rfl⟩
  have hdata : t.gpr 0 + 16#64 = s₀.gpr 0 + BitVec.ofNat 64 (16 * (k + 1)) := by
    rw [h.data, BitVec.add_assoc, Nat.mul_succ, BitVec.ofNat_add]
  refine ⟨_, _, hrun, ⟨⟨h.running, hdata, h.len, h.limit, h.lr, h.mem, ?_⟩, ?_, ?_⟩, ?_⟩
  · show tops (t.gpr 3 ||| Arm64.load64 t.mem (t.gpr 0)
      ||| (t.gpr 4 ||| Arm64.load64 t.mem (t.gpr 0 + 8#64))) = 0#64 ↔ _
    have hclean := h.clean
    rw [tops_or] at hclean
    rw [tops_or, tops_or, tops_or, tops_load64, tops_load64, and_and_and_comm, hclean, h.mem, h.data,
      ← memClean_add (m := 8) (n := 8), ← memClean_add]
    rfl
  · show t.pc + 4 = 11
    rw [hpc]
    rfl
  · exact AluOp.holds_ls_subs _ _ t.flags
  · show span (t.gpr 0) 16 = _
    rw [h.data]

/-- The branch back. -/
theorem AtBranch.back (h : AtBranch s₀ k t)
    (hle : s₀.gpr 0 + BitVec.ofNat 64 (16 * k) ≤ s₀.gpr 0 + s₀.gpr 1 - 16#64) :
    ∃ es u, Run (Step asciiU64Asm) t es u ∧ Looping s₀ k u ∧ u.pc = l16Loop ∧ loads es = [] := by
  have hrun := run_bcond h.running h.pc (show asciiU64Asm[11]? = _ from rfl) h.ls
  rw [h.data, h.limit, if_pos hle] at hrun
  exact ⟨_, _, hrun, ⟨h.running, h.data, h.len, h.limit, h.lr, h.mem, h.clean⟩, rfl, rfl⟩

/-- **The block loop**, as long as its branch is taken. -/
theorem Looping.blocks (h : Looping s₀ 0 t) (hpc : t.pc = l16Loop) {n : ℕ}
    (htaken : ∀ k, 0 < k → k ≤ n →
      s₀.gpr 0 + BitVec.ofNat 64 (16 * k) ≤ s₀.gpr 0 + s₀.gpr 1 - 16#64) :
    ∃ es u, Run (Step asciiU64Asm) t es u ∧ AtBranch s₀ (n + 1) u
      ∧ loads es = span (s₀.gpr 0) (16 * (n + 1)) := by
  induction n with
  | zero =>
      obtain ⟨es, u, hrun, hu, hloads⟩ := h.block hpc
      refine ⟨es, u, hrun, hu, ?_⟩
      rw [hloads, Nat.mul_zero, BitVec.add_zero]
  | succ n ih =>
      obtain ⟨es, u, hrun, hu, hloads⟩ := ih fun k hpos hk => htaken k hpos (Nat.le_succ_of_le hk)
      obtain ⟨es₁, v, hback, hv, hvpc, hloads₁⟩ := hu.back (htaken (n + 1) (Nat.succ_pos n) le_rfl)
      obtain ⟨es₂, w, hblock, hw, hloads₂⟩ := hv.block hvpc
      refine ⟨_, w, (hrun.trans hback).trans hblock, hw, ?_⟩
      rw [loads_append, loads_append, hloads, hloads₁, hloads₂, List.append_nil, ← span_append]
      rfl

/-! ### The byte loop -/

variable {p r : ℕ}

/-- The low half of what a write to it leaves. -/
theorem setWidth_extend (v : BitVec 32) : (v.setWidth 64).setWidth 32 = v := by
  rw [BitVec.setWidth_setWidth_of_le _ (by decide), BitVec.setWidth_eq]

/-- `p` bytes of the call from `s₀` are gathered, and `r` are left in `w1`. -/
structure Tail (s₀ : State) (p r : ℕ) (t : State) : Prop where
  running : t.returned = none
  data : t.gpr 0 = s₀.gpr 0 + BitVec.ofNat 64 p
  len : (t.gpr 1).setWidth 32 = BitVec.ofNat 32 r
  lr : t.gpr 30 = s₀.gpr 30
  mem : t.mem = s₀.mem
  clean : (t.gpr 2).setWidth 8 < 0x80#8 ↔ MemClean s₀.mem (s₀.gpr 0) p

/-- What the flag of the blocks and the rest of the length are. -/
theorem AtBranch.leave (h : AtBranch s₀ k t) (hw1 : (s₀.gpr 1).setWidth 32 = BitVec.ofNat 32 len)
    (hgt : ¬ s₀.gpr 0 + BitVec.ofNat 64 (16 * k) ≤ s₀.gpr 0 + s₀.gpr 1 - 16#64) :
    ∃ es u, Run (Step asciiU64Asm) t es u ∧ Tail s₀ (16 * k) (len % 16) u ∧ u.pc = lRemaining
      ∧ loads es = [] := by
  have hbranch := run_bcond h.running h.pc (show asciiU64Asm[11]? = _ from rfl) h.ls
  rw [h.data, h.limit, if_neg hgt] at hbranch
  have hfold : Run (Step asciiU64Asm) { t with pc := 12 } (blockEvents foldBlocks { t with pc := 12 })
      (execBlock foldBlocks { t with pc := 12 }) := run_block (by decide) h.running ⟨_, rfl⟩
  refine ⟨_, _, hbranch.trans hfold, ⟨h.running, h.data, ?_, h.lr, h.mem, ?_⟩, rfl, rfl⟩
  · show (((t.gpr 1).setWidth 32 &&& 0xF#32).setWidth 64).setWidth 32 = _
    rw [h.len, hw1, setWidth_extend]
    refine BitVec.eq_of_toNat_eq ?_
    rw [BitVec.toNat_and, BitVec.toNat_ofNat, BitVec.toNat_ofNat, BitVec.toNat_ofNat]
    show (len % 2 ^ 32) &&& (2 ^ 4 - 1) = _
    -- the mask is the remainder by 16, whatever the upper half held
    rw [Nat.and_two_pow_sub_one_eq_mod]
    omega
  · show (((if tops (t.gpr 3 ||| t.gpr 4) == 0#64 then (0#64).setWidth 32
      else ~~~(0#64).setWidth 32).setWidth 64 : BitVec 64).setWidth 8) < 0x80#8 ↔ _
    rw [← h.clean]
    by_cases hz : tops (t.gpr 3 ||| t.gpr 4) = 0#64
    · rw [if_pos (beq_iff_eq.mpr hz)]
      exact iff_of_true (by decide) hz
    · rw [if_neg (mt beq_iff_eq.mp hz)]
      exact iff_of_false (by decide) hz

theorem ofNat_beq_zero (hr : r < 2 ^ 32) : (BitVec.ofNat 32 r == 0#32) = decide (r = 0) := by
  rw [Bool.eq_iff_iff, beq_iff_eq, decide_eq_true_iff, ← BitVec.toNat_inj, BitVec.toNat_ofNat,
    Nat.mod_eq_of_lt hr]
  rfl

theorem ofNat_succ_sub_one (r : ℕ) : BitVec.ofNat 32 (r + 1) - 1#32 = BitVec.ofNat 32 r := by
  rw [BitVec.ofNat_add, BitVec.add_sub_cancel]

/-- **A byte**, and the branch after it. -/
theorem Tail.byte (h : Tail s₀ p (r + 1) t) (hpc : t.pc = lRemainingLoop) (hr : r < 2 ^ 32) :
    ∃ es u, Run (Step asciiU64Asm) t es u ∧ Tail s₀ (p + 1) r u
      ∧ u.pc = (if r = 0 then lEnd else lRemainingLoop)
      ∧ loads es = span (s₀.gpr 0 + BitVec.ofNat 64 p) 1 := by
  have hblock : Run (Step asciiU64Asm) t (blockEvents byteBody t) (execBlock byteBody t) :=
    run_block_at (by decide) h.running hpc ⟨_, rfl⟩
  have hend : (execBlock byteBody t).pc = 20 := by
    show t.pc + 3 = 20
    rw [hpc]
    rfl
  have hw1 : (t.gpr 1).setWidth 32 - 1#32 = BitVec.ofNat 32 r := by
    rw [h.len, ofNat_succ_sub_one]
  -- the flag is that of the subtraction, so the loop ends at 0
  have hne : Cond.ne.holds (execBlock byteBody t).flags = decide (r ≠ 0) := by
    show (!((t.gpr 1).setWidth 32 - 1#32 == 0#32)) = _
    rw [hw1, ofNat_beq_zero hr, decide_not]
  have hbranch := run_bcond (s := execBlock byteBody t) h.running hend
    (show asciiU64Asm[20]? = _ from rfl) hne
  rw [ite_not] at hbranch
  refine ⟨_, _, hblock.trans hbranch, ⟨h.running, ?_, ?_, h.lr, h.mem, ?_⟩, rfl, ?_⟩
  · show t.gpr 0 + 1#64 = _
    rw [h.data, BitVec.add_assoc, BitVec.ofNat_add]
  · show (((t.gpr 1).setWidth 32 - 1#32).setWidth 64).setWidth 32 = _
    rw [hw1, setWidth_extend]
  · show (((t.gpr 2).setWidth 32 ||| ((t.mem (t.gpr 0)).setWidth 64).setWidth 32).setWidth 64).setWidth 8
      < 0x80#8 ↔ _
    -- of `w_orall` only the low byte counts
    have hlow : (((t.gpr 2).setWidth 32 ||| ((t.mem (t.gpr 0)).setWidth 64).setWidth 32).setWidth
        64).setWidth 8 = (t.gpr 2).setWidth 8 ||| t.mem (t.gpr 0) := by
      rw [BitVec.setWidth_setWidth_of_le _ (by decide), BitVec.setWidth_or,
        BitVec.setWidth_setWidth_of_le _ (by decide), BitVec.setWidth_setWidth_of_le _ (by decide),
        BitVec.setWidth_setWidth_of_le _ (by decide), BitVec.setWidth_eq]
    rw [hlow, or_lt_iff, h.clean, memClean_add, memClean_one, h.mem, h.data]
  · show [t.gpr 0] = _
    rw [h.data, span_one]

/-- **The byte loop.** -/
theorem Tail.bytes (h : Tail s₀ p (r + 1) t) (hpc : t.pc = lRemainingLoop) (hr : r < 2 ^ 32) :
    ∃ es u, Run (Step asciiU64Asm) t es u ∧ Tail s₀ (p + (r + 1)) 0 u ∧ u.pc = lEnd
      ∧ loads es = span (s₀.gpr 0 + BitVec.ofNat 64 p) (r + 1) := by
  induction r generalizing p t with
  | zero =>
      obtain ⟨es, u, hrun, hu, hupc, hloads⟩ := h.byte hpc hr
      exact ⟨es, u, hrun, hu, hupc, hloads⟩
  | succ r ih =>
      obtain ⟨es, u, hrun, hu, hupc, hloads⟩ := h.byte hpc hr
      rw [if_neg (Nat.succ_ne_zero r)] at hupc
      obtain ⟨es', v, hrun', hv, hvpc, hloads'⟩ := ih hu hupc (Nat.lt_of_succ_lt hr)
      refine ⟨_, v, hrun.trans hrun', ?_, hvpc, ?_⟩
      · rwa [Nat.add_assoc, Nat.add_comm 1] at hv
      · rw [loads_append, hloads, hloads', Nat.add_comm (r + 1) 1, span_append _ 1 (r + 1),
          BitVec.add_assoc, BitVec.ofNat_add]

/-- The byte loop, or the jump over it. -/
theorem Tail.rest (h : Tail s₀ p r t) (hpc : t.pc = lRemaining) (hr : r < 2 ^ 32) :
    ∃ es u, Run (Step asciiU64Asm) t es u ∧ Tail s₀ (p + r) 0 u ∧ u.pc = lEnd
      ∧ loads es = span (s₀.gpr 0 + BitVec.ofNat 64 p) r := by
  have hbranch : Run (Step asciiU64Asm) t _ (Instr.exec t (.cbz .w32 (.x 1) lEnd)) :=
    run_instr_at h.running hpc rfl
  have hexec : Instr.exec t (.cbz .w32 (.x 1) lEnd)
      = { t with pc := if r = 0 then lEnd else lRemainingLoop } := by
    show t.branch ((t.gpr 1).setWidth 32 == 0#32) lEnd = _
    rw [h.len, ofNat_beq_zero hr, branch_decide hpc]
    rfl
  rw [hexec] at hbranch
  cases r with
  | zero => exact ⟨_, _, hbranch, ⟨h.running, h.data, h.len, h.lr, h.mem, h.clean⟩, rfl, rfl⟩
  | succ r =>
      have hnext : Tail s₀ p (r + 1) { t with pc := if r + 1 = 0 then lEnd else lRemainingLoop } :=
        ⟨h.running, h.data, h.len, h.lr, h.mem, h.clean⟩
      obtain ⟨es, u, hrun, hu, hupc, hloads⟩ := hnext.bytes rfl (Nat.lt_of_succ_lt hr)
      exact ⟨_, u, hbranch.trans hrun, hu, hupc, hloads⟩

/-! ### Whole calls -/

/-- The call from `s` returns, has loaded the `p` bytes at `x0` and no others, and has
checked them. -/
def Checks (s : State) (p : ℕ) : Prop :=
  ∃ es u, Run (Step asciiU64Asm) s es u ∧ u.returned = some (s.gpr 30) ∧ loads es = span (s.gpr 0) p
    ∧ ∃ ok : Bool, ((u.gpr 0).setWidth 32).toNat = ok.toNat ∧ (ok = true ↔ MemClean s.mem (s.gpr 0) p)

/-- The result is the inverted sign of the low byte of `w_orall`. -/
theorem result_eq (b : BitVec 8) :
    ((((((((0#64).setWidth 32 ||| ~~~((b.signExtend 32).setWidth 64).setWidth 32).setWidth 64).setWidth
      32 : BitVec 32) >>> 31).setWidth 64).setWidth 32) : BitVec 32).toNat
      = (decide (b < 0x80#8)).toNat := by
  revert b
  decide +kernel

theorem Tail.finish (h : Tail s₀ p 0 t) (hpc : t.pc = lEnd) :
    ∃ es u, Run (Step asciiU64Asm) t es u ∧ u.returned = some (s₀.gpr 30) ∧ loads es = []
      ∧ ∃ ok : Bool, ((u.gpr 0).setWidth 32).toNat = ok.toNat
        ∧ (ok = true ↔ MemClean s₀.mem (s₀.gpr 0) p) := by
  have hblock : Run (Step asciiU64Asm) t (blockEvents result t) (execBlock result t) :=
    run_block_at (by decide) h.running hpc ⟨_, rfl⟩
  have hend : (execBlock result t).pc = 24 := by
    show t.pc + 3 = 24
    rw [hpc]
    rfl
  have hret : Run (Step asciiU64Asm) (execBlock result t) _ (Instr.exec (execBlock result t) .ret) :=
    run_instr_at h.running hend rfl
  refine ⟨_, _, hblock.trans hret, ?_, rfl, decide ((t.gpr 2).setWidth 8 < 0x80#8), ?_, ?_⟩
  · show some (t.gpr 30) = _
    rw [h.lr]
  · exact result_eq _
  · rw [decide_eq_true_iff, h.clean]

/-- The rest of a call, from the byte loop on. -/
theorem Tail.checks {es : List Event} (hrun : Run (Step asciiU64Asm) s₀ es t) (h : Tail s₀ p r t)
    (hpc : t.pc = lRemaining) (hr : r < 2 ^ 32) (hloads : loads es = span (s₀.gpr 0) p) :
    Checks s₀ (p + r) := by
  obtain ⟨es₁, u, hrun₁, hu, hupc, hloads₁⟩ := h.rest hpc hr
  obtain ⟨es₂, v, hrun₂, hret, hloads₂, hresult⟩ := hu.finish hupc
  refine ⟨_, v, (hrun.trans hrun₁).trans hrun₂, hret, ?_, hresult⟩
  rw [loads_append, loads_append, hloads, hloads₁, hloads₂, List.append_nil, ← span_append]

/-- The test of the length reads it as `w1`. -/
theorem Entry.test (h : Entry s len) :
    ∃ es, Run (Step asciiU64Asm) s es
        { execBlock testLen s with pc := if len < 16 then lRemaining else 3 } ∧ loads es = [] := by
  have hblock : Run (Step asciiU64Asm) s (blockEvents testLen s) (execBlock testLen s) :=
    run_block_at (by decide) h.running h.pc ⟨_, rfl⟩
  have hend : (execBlock testLen s).pc = 2 := by
    show s.pc + 2 = 2
    rw [h.pc]
  have hlen : (BitVec.ofNat 32 len).toNat = len := by
    have hlt := h.len_lt
    exact (BitVec.toNat_ofNat _ _).trans (Nat.mod_eq_of_lt (by omega))
  -- an `int` that is not negative is compared like an unsigned number
  have hmsb : (BitVec.ofNat 32 len).msb = false := by
    rw [BitVec.msb_eq_decide, hlen]
    exact decide_eq_false (Nat.not_le.mpr h.len_lt)
  have hless : decide (BitVec.ofNat 32 len < 16#32) = decide (len < 16) := by
    rw [decide_eq_decide, BitVec.lt_def, hlen]
    rfl
  have hlt : Cond.lt.holds (execBlock testLen s).flags = decide (len < 16) := by
    show Cond.lt.holds (AluOp.subs.flags ((s.gpr 1).setWidth 32) 16#32 s.flags) = _
    rw [h.w1, AluOp.holds_lt_subs _ hmsb rfl, hless]
  have hbranch := run_bcond (s := execBlock testLen s) h.running hend
    (show asciiU64Asm[2]? = _ from rfl) hlt
  exact ⟨_, hblock.trans hbranch, rfl⟩

/-- A call of less than a block. -/
theorem Entry.checks_short (h : Entry s len) (hlen : len < 16) : Checks s len := by
  obtain ⟨es, hrun, hloads⟩ := h.test
  rw [if_pos hlen] at hrun
  have htail : Tail s 0 len { execBlock testLen s with pc := lRemaining } :=
    ⟨h.running, (BitVec.add_zero _).symm, h.w1, rfl, rfl,
      iff_of_true (show ((0#32).setWidth 64).setWidth 8 < 0x80#8 by decide)
        fun i hi => absurd hi (Nat.not_lt_zero i)⟩
  have hchecks := Tail.checks hrun htail rfl (by omega) hloads
  rwa [Nat.zero_add] at hchecks

/-- The blocks of a longer call, as long as the branch back is taken. -/
theorem Entry.blocks (h : Entry s len) (hlen : 16 ≤ len) {n : ℕ}
    (htaken : ∀ k, 0 < k → k ≤ n →
      s.gpr 0 + BitVec.ofNat 64 (16 * k) ≤ s.gpr 0 + s.gpr 1 - 16#64) :
    ∃ es u, Run (Step asciiU64Asm) s es u ∧ AtBranch s (n + 1) u
      ∧ loads es = span (s.gpr 0) (16 * (n + 1)) := by
  obtain ⟨es, hrun, hloads⟩ := h.test
  rw [if_neg (Nat.not_lt.mpr hlen)] at hrun
  have hsetup : Run (Step asciiU64Asm) { execBlock testLen s with pc := 3 } _
      (execBlock setupLoop { execBlock testLen s with pc := 3 }) :=
    run_block_at (by decide) h.running rfl ⟨_, rfl⟩
  have hloop : Looping s 0 (execBlock setupLoop { execBlock testLen s with pc := 3 }) :=
    ⟨h.running, (BitVec.add_zero _).symm, rfl, rfl, rfl, rfl,
      iff_of_true (show tops (0#64 ||| 0#64) = 0#64 from rfl)
        fun i hi => absurd hi (Nat.not_lt_zero i)⟩
  obtain ⟨es', u, hrun', hu, hloads'⟩ := hloop.blocks rfl htaken
  refine ⟨_, u, (hrun.trans hsetup).trans hrun', hu, ?_⟩
  rw [loads_append, loads_append, hloads, hloads']
  rfl

/-- A longer call whose block loop is left after `n + 1` blocks. -/
theorem Entry.checks_blocks (h : Entry s len) (hlen : 16 ≤ len) {n : ℕ}
    (htaken : ∀ k, 0 < k → k ≤ n →
      s.gpr 0 + BitVec.ofNat 64 (16 * k) ≤ s.gpr 0 + s.gpr 1 - 16#64)
    (hleave : ¬ s.gpr 0 + BitVec.ofNat 64 (16 * (n + 1)) ≤ s.gpr 0 + s.gpr 1 - 16#64) :
    Checks s (16 * (n + 1) + len % 16) := by
  obtain ⟨es, u, hrun, hu, hloads⟩ := h.blocks hlen htaken
  obtain ⟨es', v, hrun', hv, hvpc, hloads'⟩ := hu.leave h.w1 hleave
  refine Tail.checks (hrun.trans hrun') hv hvpc (by omega) ?_
  rw [loads_append, hloads, hloads', List.append_nil]

/-! ### When the routine is right -/

/-- The call from `s` on the bytes `buf` returns what `ascii_u64` returns, and has read
just the bytes of the buffer. -/
def Correct (s : State) (buf : List (BitVec 8)) : Prop :=
  ∃ es t, Run (Step asciiU64Asm) s es t ∧ t.returned = some (s.gpr 30)
    ∧ (∀ a, a ∈ loads es ↔ a ∈ span (s.gpr 0) buf.length)
    ∧ some ((t.gpr 0).setWidth 32).toNat = asciiU64 buf 0 buf.length

/-- Memory at `x0` holds the bytes. -/
def Holds (s : State) (buf : List (BitVec 8)) : Prop :=
  ∀ i < buf.length, s.mem (s.gpr 0 + BitVec.ofNat 64 i) = buf.getD i 0#8

variable {buf : List (BitVec 8)}

theorem Checks.correct (h : Checks s buf.length) (hmem : Holds s buf) : Correct s buf := by
  obtain ⟨es, u, hrun, hret, hloads, ok, hvalue, hok⟩ := h
  obtain ⟨ok', hcode, hok'⟩ := asciiU64_spec (Nat.zero_add buf.length).le
  refine ⟨es, u, hrun, hret, fun a => by rw [hloads], ?_⟩
  have hclean : MemClean s.mem (s.gpr 0) buf.length ↔ Clean buf 0 (0 + buf.length) := by
    rw [clean_iff_forall_lt]
    refine forall₂_congr fun i hi => ?_
    rw [hmem i hi, Nat.zero_add]
  rw [hcode, hvalue, Bool.eq_iff_iff.mpr (hok.trans (hclean.trans hok'.symm))]

/-- A call whose run passes a load outside the buffer is not right. -/
theorem not_correct_of_load {es : List Event} {a : BitVec 64} (hrun : Run (Step asciiU64Asm) s es t)
    (ha : a ∈ loads es) (hout : a ∉ span (s.gpr 0) buf.length) : ¬ Correct s buf := by
  rintro ⟨es', u, hrun', hret, hloads, -⟩
  obtain ⟨r, -, rfl⟩ := hrun.extends (step_deterministic _) hrun'
    (not_step_of_returned (by rw [hret]; exact Option.some_ne_none _))
  refine hout ((hloads a).mp ?_)
  rw [loads_append]
  exact List.mem_append_left _ ha

/-- A call that returns before it has loaded all of the buffer is not right. -/
theorem Checks.not_correct {a : BitVec 64} (h : Checks s p) (ha : a ∈ span (s.gpr 0) buf.length)
    (hout : a ∉ span (s.gpr 0) p) : ¬ Correct s buf := by
  rintro ⟨es', u, hrun', -, hloads', -⟩
  obtain ⟨es, t, hrun, hret, hloads, -⟩ := h
  obtain ⟨r, -, rfl⟩ := hrun'.extends (step_deterministic _) hrun
    (not_step_of_returned (by rw [hret]; exact Option.some_ne_none _))
  refine hout ?_
  rw [← hloads, loads_append]
  exact List.mem_append_left _ ((hloads' a).mpr ha)

/-- The limit of the block loop, when computing it does not wrap. -/
theorem Entry.le_limit (h : Entry s len) (hlen : 16 ≤ len) (hk : 16 * k ≤ len)
    (hfit : (s.gpr 0).toNat + (s.gpr 1).toNat - 16 < 2 ^ 64) :
    s.gpr 0 + BitVec.ofNat 64 (16 * k) ≤ s.gpr 0 + s.gpr 1 - 16#64 ↔ 16 * k + 16 ≤ (s.gpr 1).toNat := by
  have hbuf := h.buffer_lt
  have hx1 := h.x1_mod
  bv_omega

/-- When it wraps it is below the buffer. -/
theorem Entry.limit_lt (h : Entry s len) (hk : 16 * k ≤ len)
    (hwrap : 2 ^ 64 ≤ (s.gpr 0).toNat + (s.gpr 1).toNat - 16) :
    ¬ s.gpr 0 + BitVec.ofNat 64 (16 * k) ≤ s.gpr 0 + s.gpr 1 - 16#64 := by
  have hbuf := h.buffer_lt
  bv_omega

/-- With something in the upper half of `x1` the loop goes on behind the buffer. -/
theorem Entry.not_correct (h : Entry s buf.length) (hlen : 16 ≤ buf.length)
    (hfit : (s.gpr 0).toNat + (s.gpr 1).toNat - 16 < 2 ^ 64) (hset : 2 ^ 32 ≤ (s.gpr 1).toNat) :
    ¬ Correct s buf := by
  have hlt := h.len_lt
  obtain ⟨es, u, hrun, -, hloads⟩ := h.blocks (n := buf.length / 16) hlen
    (fun k _ hk => (h.le_limit hlen (by omega) hfit).mpr (by omega))
  refine not_correct_of_load hrun (a := s.gpr 0 + BitVec.ofNat 64 buf.length) ?_ ?_
  · rw [hloads, add_ofNat_mem_span (by omega) (by omega)]
    omega
  · rw [add_ofNat_mem_span (by omega) (by omega)]
    exact lt_irrefl _

/-- **When `ascii_u64_asm` is right.**  Besides the calls that skip the block loop and
those whose `x1` is the length in full, only calls of one block whose limit wraps. -/
theorem correct_iff (h : Entry s buf.length) (hmem : Holds s buf) :
    Correct s buf ↔ buf.length < 16 ∨ (s.gpr 1).toNat < 2 ^ 32
      ∨ buf.length < 32 ∧ 2 ^ 64 ≤ (s.gpr 0).toNat + (s.gpr 1).toNat - 16 := by
  have hx1 := h.x1_mod
  have hbuf := h.buffer_lt
  have hlen := h.len_lt
  rcases Nat.lt_or_ge buf.length 16 with hshort | hlong
  · exact iff_of_true ((h.checks_short hshort).correct hmem) (.inl hshort)
  rcases Nat.lt_or_ge ((s.gpr 0).toNat + (s.gpr 1).toNat - 16) (2 ^ 64) with hfit | hwrap
  · rcases Nat.lt_or_ge (s.gpr 1).toNat (2 ^ 32) with hclear | hset
    · -- the limit is a block before the end
      obtain ⟨n, hn⟩ : ∃ n, buf.length / 16 = n + 1 := Nat.exists_eq_succ_of_ne_zero (by omega)
      have hchecks := h.checks_blocks (n := n) hlong
        (fun k _ hk => (h.le_limit hlong (by omega) hfit).mpr (by omega))
        (mt (h.le_limit hlong (by omega) hfit).mp (by omega))
      rw [show 16 * (n + 1) + buf.length % 16 = buf.length by omega] at hchecks
      exact iff_of_true (hchecks.correct hmem) (.inr (.inl hclear))
    · exact iff_of_false (h.not_correct hlong hfit hset) (by omega)
  · -- the loop is left after one block
    have hchecks := h.checks_blocks (n := 0) hlong (fun k hpos hk => absurd hk (Nat.not_le.mpr hpos))
      (h.limit_lt (by omega) hwrap)
    rcases Nat.lt_or_ge buf.length 32 with hone | hmore
    · rw [show 16 * (0 + 1) + buf.length % 16 = buf.length by omega] at hchecks
      exact iff_of_true (hchecks.correct hmem) (.inr (.inr ⟨hone, hwrap⟩))
    · refine iff_of_false (hchecks.not_correct (a := s.gpr 0 + BitVec.ofNat 64 31) ?_ ?_) (by omega)
      · exact (add_ofNat_mem_span (by omega) (by omega)).mpr (by omega)
      · rw [add_ofNat_mem_span (by omega) (by omega)]
        omega

/-- A call on zeros at 4096. -/
def call (x1 : BitVec 64) : State where
  gpr := fun n => if n = 0 then 4096#64 else if n = 1 then x1 else 0#64
  sp := 0#64
  flags := ⟨false, false, false, false⟩
  pc := 0
  mem := fun _ => 0#8
  returned := none

theorem call_entry {n : ℕ} {x1 : BitVec 64} (hn : n < 2 ^ 31) (hx1 : x1.setWidth 32 = BitVec.ofNat 32 n) :
    Entry (call x1) n where
  pc := rfl
  running := rfl
  len_lt := hn
  w1 := hx1
  buffer_lt := by
    show (4096#64).toNat + n < 2 ^ 64
    rw [BitVec.toNat_ofNat]
    omega

theorem call_holds (n : ℕ) (x1 : BitVec 64) : Holds (call x1) (List.replicate n 0#8) := by
  intro i hi
  rw [List.length_replicate] at hi
  exact (List.getD_replicate _ hi).symm

theorem correct_iff_forty : Correct (call 40#64) (List.replicate 40 0#8) :=
  (correct_iff (call_entry (by decide) rfl) (call_holds 40 _)).mpr (.inr (.inl (by decide)))

/-- Sixteen bytes with a bit set in the upper half of `x1`: the routine reads on. -/
theorem dirty_upper_half :
    Entry (call 0x100000010#64) (List.replicate 16 0#8).length
      ∧ Holds (call 0x100000010#64) (List.replicate 16 0#8)
      ∧ ¬ Correct (call 0x100000010#64) (List.replicate 16 0#8) := by
  have hentry : Entry (call 0x100000010#64) (List.replicate 16 0#8).length :=
    call_entry (by decide) rfl
  exact ⟨hentry, call_holds 16 _, hentry.not_correct (by decide) (by decide) (by decide)⟩

end MyTests.Ascii
