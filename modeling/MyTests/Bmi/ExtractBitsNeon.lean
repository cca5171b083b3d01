/-
MyTests/Bmi/ExtractBitsNeon.lean

`_extract_bits_neon` of `go/bmi/bmi_arm64.s`.

Most of the routine is given as raw instruction words, each with its mnemonic in
a comment; `assemble_source` decodes the words, so the program below is what the
words say and not what the comments say.  The frame is empty, so the assembler
puts `bitmap+0(FP)` at `8(RSP)`.

The loop peels the lowest set bit off the mask in `x1`.  The flags of `tst` pass
the `sub` that follows and select the weight in `x9` or zero; the flags of the
later `ands` say whether the mask has become zero.
-/
import MyTests.Bmi.ExtractBits
import MyTests.Lib.Arm64

namespace MyTests.Bmi

open MyTests.Lib MyTests.Arm64

/-! ### The routine -/

/-- Index of the label `LBB0_2`. -/
def lbb0_2 : ℕ := 8

/-- Index of the label `LBB0_4`. -/
def lbb0_4 : ℕ := 20

/-- The lines of the source: raw words, and mnemonics that the assembler encodes. -/
def source : List (BitVec 32 ⊕ Instr) :=
  [.inr (.ldr (.x 0) .sp 8#64),
   .inr (.ldr (.x 1) .sp 16#64),
   .inl 0xa9bf7bfd#32,
   .inl 0x910003fd#32,
   .inr (.cbz .w64 (.x 1) lbb0_4),
   .inl 0xaa0003e8#32,
   .inl 0xaa1f03e0#32,
   .inl 0x52800029#32,
   -- LBB0_2
   .inl 0x8a08002a#32,
   .inl 0xcb0103eb#32,
   .inl 0xea0b015f#32,
   .inl 0xd100042c#32,
   .inl 0x9a8903ea#32,
   .inl 0xea010181#32,
   .inl 0xaa000140#32,
   .inl 0xd37ff929#32,
   .inr (.bcond .ne lbb0_2),
   .inl 0xa8c17bfd#32,
   .inr (.str (.x 0) .sp 24#64),
   .inr .ret,
   -- LBB0_4
   .inl 0xaa1f03e0#32,
   .inl 0xa8c17bfd#32,
   .inr (.str .zr .sp 24#64),
   .inr .ret]

/-- The lines before the loop. -/
def prologue : List Instr :=
  [.ldr (.x 0) .sp 8#64,
   .ldr (.x 1) .sp 16#64,
   .stpPre (.x 29) (.x 30) .sp (-16#64),
   .alu .add .w64 (.x 29) .sp (.imm 0#64)]

/-- The mask is not zero: `x8` holds the bitmap, `x9` the weight. -/
def setup : List Instr :=
  [.alu .orr .w64 (.x 8) .zr (.reg (.x 0)),
   .alu .orr .w64 (.x 0) .zr (.reg .zr),
   .movz .w32 (.x 9) 1#32]

/-- The loop up to its branch. -/
def loopBody : List Instr :=
  [.alu .and .w64 (.x 10) (.x 1) (.reg (.x 8)),
   .alu .sub .w64 (.x 11) .zr (.reg (.x 1)),
   .alu .ands .w64 .zr (.x 10) (.reg (.x 11)),
   .alu .sub .w64 (.x 12) (.x 1) (.imm 1#64),
   .csel .w64 (.x 10) .zr (.x 9) .eq,
   .alu .ands .w64 (.x 1) (.x 12) (.reg (.x 1)),
   .alu .orr .w64 (.x 0) (.x 10) (.reg (.x 0)),
   .lsl .w64 (.x 9) (.x 9) 1]

/-- Pop the frame record and store the result, which is in `r`. -/
def epilogue (r : Reg) : List Instr :=
  [.ldpPost (.x 29) (.x 30) .sp 16#64,
   .str r .sp 24#64,
   .ret]

/-- `_extract_bits_neon`. -/
def extractBitsNeon : List Instr :=
  prologue ++ .cbz .w64 (.x 1) lbb0_4 :: setup ++ loopBody ++ .bcond .ne lbb0_2 :: epilogue (.x 0)
    ++ .alu .orr .w64 (.x 0) .zr (.reg .zr) :: epilogue .zr

/-- **The words decode to the program.** -/
theorem assemble_source : source.mapM (Sum.elim decode some) = some extractBitsNeon := by
  rfl

/-- The caller's state, once it has stored the arguments and branched here. -/
def call (s : State) (bitmap selectBitmap : BitVec 64) : State :=
  { s with
    mem := store64 (store64 s.mem (s.sp + 8#64) bitmap) (s.sp + 16#64) selectBitmap
    pc := 0
    returned := none }

/-! ### The blocks -/

/-- What the loop changes. -/
theorem exec_loopBody (s : State) (hpc : s.pc = lbb0_2) :
    let t := execBlock loopBody s
    t.pc = 16 ∧ t.returned = s.returned ∧ t.sp = s.sp ∧ t.mem = s.mem
      ∧ t.gpr 8 = s.gpr 8
      ∧ t.gpr 9 = s.gpr 9 <<< 1
      ∧ t.gpr 1 = (s.gpr 1 - 1#64) &&& s.gpr 1
      ∧ t.gpr 0 = (if s.gpr 1 &&& s.gpr 8 &&& (0#64 - s.gpr 1) == 0#64 then 0#64 else s.gpr 9)
          ||| s.gpr 0
      ∧ t.flags.z = ((s.gpr 1 - 1#64) &&& s.gpr 1 == 0#64) := by
  refine ⟨?_, rfl, rfl, rfl, rfl, rfl, rfl, rfl, rfl⟩
  show s.pc + 8 = 16
  rw [hpc]
  rfl

/-- The label is passed once, and nothing is loaded. -/
theorem fetches_loopBody (s : State) (hpc : s.pc = lbb0_2) :
    (fetches (blockEvents loopBody s)).count lbb0_2 = 1 := by
  show ([s.pc, s.pc + 1, s.pc + 2, s.pc + 3, s.pc + 4, s.pc + 5, s.pc + 6, s.pc + 7]).count lbb0_2 = 1
  rw [hpc]
  rfl

/-! ### The loop -/

/-- Between two turns: `len` bits are in `x0`, and `x1` holds the mask that is
left. -/
structure Peeling (bitmap selectBitmap : BitVec 64) (len : ℕ) (s : State) : Prop where
  running : s.returned = none
  data : s.gpr 8 = bitmap
  weight : s.gpr 9 = 1#64 <<< len
  extracting : Extracting selectBitmap.toNat bitmap.toNat (s.gpr 1).toNat bitmap.toNat
    (s.gpr 0).toNat len

/-- What the loop leaves alone and the lines after it need. -/
def SameFrame (s t : State) : Prop := t.sp = s.sp ∧ t.mem = s.mem

variable {bitmap selectBitmap : BitVec 64} {len : ℕ} {s : State}

/-- **One turn.**  The lowest set bit of the mask is used up, and the branch is
taken while there are more. -/
theorem Peeling.turn (h : Peeling bitmap selectBitmap len s) (hpc : s.pc = lbb0_2) {p : ℕ}
    {ps : List ℕ} (hp : (s.gpr 1).toNat.bitIndices = p :: ps) :
    ∃ es t, Run (Step extractBitsNeon) s es t ∧ (fetches es).count lbb0_2 = 1 ∧ SameFrame s t
      ∧ (t.gpr 1).toNat.bitIndices = ps ∧ Peeling bitmap selectBitmap (len + 1) t
      ∧ t.pc = if t.gpr 1 = 0#64 then 17 else lbb0_2 := by
  obtain ⟨hpc', hret, hsp, hmem, h8, h9, h1, h0, hz⟩ := exec_loopBody s hpc
  have hblock : Run (Step extractBitsNeon) s (blockEvents loopBody s) (execBlock loopBody s) :=
    run_block_at (by decide) h.running hpc ⟨_, rfl⟩
  have hcount := fetches_loopBody s hpc
  generalize execBlock loopBody s = u at *
  have hbranch : Run (Step extractBitsNeon) u [.fetch 16] (u.branch (!u.flags.z) lbb0_2) := by
    have hrun : Run (Step extractBitsNeon) u _ (Instr.exec u (.bcond .ne lbb0_2)) :=
      run_instr_at (hret.trans h.running) hpc' rfl
    rwa [Instr.events, hpc'] at hrun
  have hmask : u.gpr 1 = s.gpr 1 &&& (s.gpr 1 - 1#64) := by rw [h1, BitVec.and_comm]
  -- the branch moves the program counter alone
  have hfields : ∀ b, (u.branch b lbb0_2).gpr = u.gpr ∧ (u.branch b lbb0_2).sp = u.sp
      ∧ (u.branch b lbb0_2).mem = u.mem ∧ (u.branch b lbb0_2).returned = u.returned := by
    intro b
    cases b <;> exact ⟨rfl, rfl, rfl, rfl⟩
  obtain ⟨hg, hs, hm, hr⟩ := hfields (!u.flags.z)
  refine ⟨_, _, hblock.trans hbranch, ?_, ⟨hs.trans hsp, hm.trans hmem⟩, ?_,
    ⟨hr.trans (hret.trans h.running), ?_, ?_, ?_⟩, ?_⟩
  · rw [fetches_append, List.count_append, hcount]
    rfl
  · rw [hg, hmask, bitIndices_and_sub_one hp]
  · rw [hg, h8, h.data]
  · rw [hg, h9, h.weight, ← BitVec.shiftLeft_add]
  · have hstep := h.extracting.lowestWord selectBitmap.isLt hp
    rw [hg, hmask, h0, BitVec.or_comm, BitVec.zero_sub, h.data, h.weight]
    simpa only [beq_iff_eq] using hstep
  · rw [hg, h1, hz]
    rcases eq_or_ne ((s.gpr 1 - 1#64) &&& s.gpr 1) 0#64 with h0 | h0
    · rw [if_pos h0, h0]
      show u.pc + 1 = 17
      rw [hpc']
    · rw [if_neg h0, beq_false_of_ne h0]
      rfl

/-- **The loop.**  One turn for each set bit of the mask. -/
theorem Peeling.loop (h : Peeling bitmap selectBitmap len s) (hpc : s.pc = lbb0_2)
    (hne : s.gpr 1 ≠ 0#64) :
    ∃ es t, Run (Step extractBitsNeon) s es t
      ∧ (fetches es).count lbb0_2 = (s.gpr 1).toNat.bitIndices.length ∧ SameFrame s t
      ∧ t.pc = 17 ∧ t.returned = none ∧ (t.gpr 0).toNat = pext selectBitmap.toNat bitmap.toNat := by
  obtain ⟨p, ps, hp⟩ : ∃ p ps, (s.gpr 1).toNat.bitIndices = p :: ps :=
    List.exists_cons_of_ne_nil fun hnil => hne (BitVec.eq_of_toNat_eq (bitIndices_eq_nil_iff.mp hnil))
  -- by induction on the set bits that are left
  induction ps generalizing s len p with
  | nil =>
      obtain ⟨es, t, hrun, hcount, hframe, hps, hpeel, hpc'⟩ := h.turn hpc hp
      have hzero : t.gpr 1 = 0#64 := BitVec.eq_of_toNat_eq (bitIndices_eq_nil_iff.mp hps)
      rw [if_pos hzero] at hpc'
      have hext := hpeel.extracting
      rw [hzero] at hext
      exact ⟨es, t, hrun, by rw [hcount, hp]; rfl, hframe, hpc', hpeel.running, hext.done⟩
  | cons q qs ih =>
      obtain ⟨es, t, hrun, hcount, hframe, hps, hpeel, hpc'⟩ := h.turn hpc hp
      have hzero : t.gpr 1 ≠ 0#64 := by
        intro h0
        rw [h0] at hps
        cases hps
      rw [if_neg hzero] at hpc'
      obtain ⟨es', t', hrun', hcount', hframe', hend⟩ := ih hpeel hpc' hzero q hps
      refine ⟨es ++ es', t', hrun.trans hrun', ?_,
        ⟨hframe'.1.trans hframe.1, hframe'.2.trans hframe.2⟩, hend⟩
      rw [fetches_append, List.count_append, hcount, hcount', hp, hps, List.length_cons,
        Nat.add_comm]
      rfl

/-! ### The whole routine -/

/-- The mask is about to be tested: both arguments are loaded, and the frame
record is on the stack. -/
structure Entered (s : State) (bitmap selectBitmap : BitVec 64) (t : State) : Prop where
  pc : t.pc = 4
  running : t.returned = none
  bitmap : t.gpr 0 = bitmap
  mask : t.gpr 1 = selectBitmap
  sp : t.sp + 16#64 = s.sp
  lr : load64 t.mem (t.sp + 8#64) = s.gpr 30

theorem entered_prologue (s : State) (bitmap selectBitmap : BitVec 64) :
    Entered s bitmap selectBitmap (execBlock prologue (call s bitmap selectBitmap)) := by
  have hargs := load64_pair s.mem (s.sp + 8#64) bitmap selectBitmap
  rw [BitVec.add_assoc] at hargs
  have hframe := load64_pair (call s bitmap selectBitmap).mem (s.sp + -16#64) (s.gpr 29) (s.gpr 30)
  have hsp : s.sp + -16#64 + 16#64 = s.sp := by bv_omega
  exact ⟨rfl, rfl, hargs.1, hargs.2, hsp, hframe.2⟩

/-- Back in the caller of `s`, with `w` in the result slot. -/
def ReturnedWith (s : State) (w : BitVec 64) (t : State) : Prop :=
  t.returned = some (s.gpr 30) ∧ t.sp = s.sp ∧ load64 t.mem (s.sp + 24#64) = w

/-- The epilogue restores the return address and returns the value of `r`. -/
theorem run_epilogue {s t : State} {r : Reg} (hr : r = .x 0 ∨ r = .zr)
    (hcode : epilogue r <+: extractBitsNeon.drop t.pc) (hlate : lbb0_2 < t.pc)
    (hret : t.returned = none) (hsp : t.sp + 16#64 = s.sp)
    (hlr : load64 t.mem (t.sp + 8#64) = s.gpr 30) :
    ∃ es u, Run (Step extractBitsNeon) t es u ∧ (fetches es).count lbb0_2 = 0
      ∧ ReturnedWith s (t.read r) u := by
  obtain ⟨rest, hrest⟩ := hcode
  have hblock : Run (Step extractBitsNeon) t _ (execBlock ((epilogue r).take 2) t) :=
    run_block (by rcases hr with rfl | rfl <;> decide) hret ⟨.ret :: rest, hrest⟩
  have hfetch : extractBitsNeon[t.pc + 2]? = some .ret := by
    rw [← List.getElem?_drop, ← hrest]
    rfl
  refine ⟨_, _, hblock.trans (run_instr hret hfetch), ?_, congrArg some hlr, hsp, ?_⟩
  · have hcount : ([t.pc, t.pc + 1, t.pc + 2]).count lbb0_2 = 0 := by
      refine List.count_eq_zero.mpr fun hmem => ?_
      simp only [List.mem_cons, List.not_mem_nil, or_false] at hmem
      omega
    exact hcount
  · rw [← hsp]
    rcases hr with rfl | rfl <;> exact load64_store64 t.mem _ _

namespace Entered

variable {t : State}

/-- The test of the mask. -/
theorem run_test (h : Entered s bitmap selectBitmap t) : Run (Step extractBitsNeon) t [.fetch 4]
    (t.branch (selectBitmap == 0#64) lbb0_4) := by
  have hrun : Run (Step extractBitsNeon) t _ (Instr.exec t (.cbz .w64 (.x 1) lbb0_4)) :=
    run_instr_at h.running h.pc rfl
  have htest : Instr.exec t (.cbz .w64 (.x 1) lbb0_4) = t.branch (selectBitmap == 0#64) lbb0_4 := by
    rw [← h.mask]
    rfl
  rwa [htest, Instr.events, h.pc] at hrun

/-- An empty mask takes the other way out. -/
theorem run_zero (h : Entered s bitmap 0#64 t) : ∃ es u, Run (Step extractBitsNeon) t es u
    ∧ (fetches es).count lbb0_2 = 0 ∧ ReturnedWith s 0#64 u := by
  have htest := h.run_test
  let clear : Instr := .alu .orr .w64 (.x 0) .zr (.reg .zr)
  have hclear : Run (Step extractBitsNeon) { t with pc := lbb0_4 } _
      (clear.exec { t with pc := lbb0_4 }) :=
    run_instr h.running rfl
  obtain ⟨es, u, hrun, hcount, hend⟩ := run_epilogue (s := s)
    (t := clear.exec { t with pc := lbb0_4 }) (r := .zr) (.inr rfl) ⟨[], rfl⟩
    (show lbb0_2 < lbb0_4 + 1 by decide) h.running h.sp h.lr
  refine ⟨_, u, (htest.trans hclear).trans hrun, ?_, hend⟩
  rw [fetches_append, List.count_append, hcount]
  rfl

/-- Any other mask goes through the loop. -/
theorem run_nonzero (h : Entered s bitmap selectBitmap t) (hne : selectBitmap ≠ 0#64) :
    ∃ es u, Run (Step extractBitsNeon) t es u
      ∧ (fetches es).count lbb0_2 = selectBitmap.toNat.bitIndices.length
      ∧ ReturnedWith s (extractBitsGo bitmap selectBitmap) u := by
  have htest := h.run_test
  rw [beq_false_of_ne hne] at htest
  have hnext : t.next.pc = 5 := congrArg Nat.succ h.pc
  have hsetup : Run (Step extractBitsNeon) t.next _ (execBlock setup t.next) :=
    run_block_at (by decide) h.running hnext ⟨_, rfl⟩
  have hcount₀ : (fetches (blockEvents setup t.next)).count lbb0_2 = 0 := by
    show ([t.pc + 1, t.pc + 2, t.pc + 3]).count lbb0_2 = 0
    rw [h.pc]
    rfl
  -- at the label no bit is extracted yet
  have hpeel : Peeling bitmap selectBitmap 0 (execBlock setup t.next) := by
    refine ⟨h.running, ?_, rfl, ?_⟩
    · show 0#64 ||| t.gpr 0 = bitmap
      rw [h.bitmap, BitVec.zero_or]
    · have h0 : (execBlock setup t.next).gpr 0 = 0#64 := by
        show 0#64 ||| 0#64 = 0#64
        rfl
      have h1 : (execBlock setup t.next).gpr 1 = selectBitmap := h.mask
      rw [h0, h1]
      exact Extracting.start _ _
  have hpc : (execBlock setup t.next).pc = lbb0_2 := by
    show t.pc + 1 + 3 = lbb0_2
    rw [h.pc]
    rfl
  have hmask : (execBlock setup t.next).gpr 1 = selectBitmap := h.mask
  obtain ⟨es, u, hloop, hcount, ⟨hsp, hmem⟩, hpc', hret, hvalue⟩ := hpeel.loop hpc (hmask ▸ hne)
  obtain ⟨es', v, hepi, hcount', hend⟩ := run_epilogue (s := s) (t := u) (r := .x 0) (.inl rfl)
    (by rw [hpc']; exact ⟨_, rfl⟩) (by rw [hpc']; decide) hret
    (by rw [hsp]; exact h.sp) (by rw [hsp, hmem]; exact h.lr)
  have hresult : u.read (.x 0) = extractBitsGo bitmap selectBitmap :=
    BitVec.eq_of_toNat_eq (hvalue.trans (toNat_extractBitsGo bitmap selectBitmap).symm)
  refine ⟨_, v, ((htest.trans hsetup).trans hloop).trans hepi, ?_, hresult ▸ hend⟩
  simp only [fetches_append, List.count_append, hcount₀, hcount, hcount', hmask]
  exact Nat.zero_add _

end Entered

/-- **The assembly bit extractor equals the Go one.**  Called from any state, the
routine returns to its caller after one turn of the loop for each set bit of
`selectBitmap`, and leaves the word of `ExtractBitsGo` in the result slot. -/
theorem extractBitsNeon_agrees (s : State) (bitmap selectBitmap : BitVec 64) :
    source.mapM (Sum.elim decode some) = some extractBitsNeon
    ∧ ∃ es t, Run (Step extractBitsNeon) (call s bitmap selectBitmap) es t
      ∧ t.returned = some (s.gpr 30) ∧ t.sp = s.sp
      ∧ (fetches es).count lbb0_2 = selectBitmap.cpop.toNat
      ∧ load64 t.mem (s.sp + 24#64) = extractBitsGo bitmap selectBitmap := by
  refine ⟨assemble_source, ?_⟩
  have hpro : Run (Step extractBitsNeon) (call s bitmap selectBitmap)
      (blockEvents prologue (call s bitmap selectBitmap))
      (execBlock prologue (call s bitmap selectBitmap)) :=
    run_block_at (by decide) rfl rfl ⟨_, rfl⟩
  have hcount₀ : (fetches (blockEvents prologue (call s bitmap selectBitmap))).count lbb0_2 = 0 := rfl
  have hentered := entered_prologue s bitmap selectBitmap
  obtain ⟨es, t, hrun, hcount, hret, hsp, hvalue⟩ : ∃ es u,
      Run (Step extractBitsNeon) (execBlock prologue (call s bitmap selectBitmap)) es u
      ∧ (fetches es).count lbb0_2 = selectBitmap.toNat.bitIndices.length
      ∧ ReturnedWith s (extractBitsGo bitmap selectBitmap) u := by
    -- without a set bit the routine skips the loop
    rcases eq_or_ne selectBitmap 0#64 with rfl | hne
    · exact hentered.run_zero
    · exact hentered.run_nonzero hne
  refine ⟨_, t, hpro.trans hrun, hret, hsp, ?_, hvalue⟩
  rw [fetches_append, List.count_append, hcount₀, hcount, Nat.zero_add, toNat_cpop_eq_length]

end MyTests.Bmi
