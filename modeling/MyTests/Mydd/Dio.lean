/-
MyTests/Mydd/Dio.lean

`src/mysql/io-bench/mydd.cc`: `evaluate_dio`, the writers with direct I/O.

A writer starts at its share of the bytes of the file and writes its share of the
blocks.  The two shares are rounded separately.  Rounding never makes two writers
meet, nor one write past the end, but it does move the starts off the block boundary:
`regions_iff` gives the numbers of threads for which it does not.

The writers run in parallel on the same file; what each of them writes depends on
nothing but its index, so their order plays no part.  A failed `pwrite` ends the
program.
-/
import MyTests.Lib.Stripes

namespace MyTests.Mydd

open MyTests.Lib

/-! ### The writers -/

/-- `block_size`, in bytes. -/
def blockSize : ℕ := 8 * 1024

/-- `block_count`, the blocks of the file. -/
def blockCount : ℕ := 512 * 1024

/-- The loop of a writer, `count` blocks from `offset` on: the offsets at which it calls
`pwrite`, and whether it comes to its end.  `pwrite` stands for what the call returns. -/
def pwriteLoop (pwrite : ℕ → ℤ) : ℕ → ℕ → List ℕ × Bool
  | 0, _ => ([], true)
  | count + 1, offset =>
      if pwrite offset ≠ blockSize then ([offset], false)
      else
        let (calls, done) := pwriteLoop pwrite count (offset + blockSize)
        (offset :: calls, done)

/-- The writer `idx` of `n_threads`. -/
def writer (pwrite : ℕ → ℤ) (nThreads idx : ℕ) : List ℕ × Bool :=
  pwriteLoop pwrite (blockCount / nThreads) ((blockCount * blockSize) / nThreads * idx)

/-- The offsets at which the writer `idx` calls `pwrite`. -/
def pwriteCalls (pwrite : ℕ → ℤ) (nThreads idx : ℕ) : List ℕ := (writer pwrite nThreads idx).1

/-- The bytes that a `pwrite` at `offset` writes. -/
def bytes (offset : ℕ) : Finset ℕ := Finset.Ico offset (offset + blockSize)

/-! ### What a writer calls -/

/-- Consecutive blocks, up to the first that fails. -/
theorem pwriteLoop_consecutive (pwrite : ℕ → ℤ) (count : ℕ) : ∀ offset,
    (pwriteLoop pwrite count offset).1
      <+: (List.range count).map fun i => offset + i * blockSize := by
  induction count with
  | zero => exact fun _ => List.nil_prefix
  | succ count ih =>
      intro offset
      have hhead : ((List.range (count + 1)).map fun i => offset + i * blockSize)
          = offset :: (List.range count).map fun i => (offset + blockSize) + i * blockSize := by
        rw [List.range_succ_eq_map, List.map_cons, List.map_map, Nat.zero_mul, Nat.add_zero]
        congr 2
        funext i
        show offset + (i + 1) * blockSize = offset + blockSize + i * blockSize
        ring
      rw [hhead, pwriteLoop]
      split_ifs
      · exact List.cons_prefix_cons.mpr ⟨rfl, List.nil_prefix⟩
      · exact List.cons_prefix_cons.mpr ⟨rfl, ih _⟩

/-- All of them, if no `pwrite` fails. -/
theorem pwriteLoop_all {pwrite : ℕ → ℤ} (hpwrite : ∀ offset, pwrite offset = blockSize)
    (count : ℕ) : ∀ offset, (pwriteLoop pwrite count offset).1.length = count
      ∧ (pwriteLoop pwrite count offset).2 = true := by
  induction count with
  | zero => exact fun _ => ⟨rfl, rfl⟩
  | succ count ih =>
      intro offset
      rw [pwriteLoop, if_neg (not_not.mpr (hpwrite offset))]
      exact ⟨congrArg (· + 1) (ih _).1, (ih _).2⟩

/-- The first call is made whatever it returns. -/
theorem mem_pwriteLoop (pwrite : ℕ → ℤ) {count : ℕ} (hcount : 0 < count) (offset : ℕ) :
    offset ∈ (pwriteLoop pwrite count offset).1 := by
  cases count with
  | zero => exact absurd hcount (Nat.lt_irrefl 0)
  | succ count =>
      rw [pwriteLoop]
      split_ifs
      · exact List.mem_singleton_self offset
      · exact List.mem_cons_self

/-- The stride between two writers. -/
def stride (nThreads : ℕ) : ℕ := blockCount * blockSize / nThreads

/-- The `i`-th call of a writer is at block `i` of its stripe. -/
theorem getElem?_pwriteCalls {pwrite : ℕ → ℤ} {nThreads idx i offset : ℕ}
    (h : (pwriteCalls pwrite nThreads idx)[i]? = some offset) :
    i < blockCount / nThreads ∧ offset = blockStart blockSize (stride nThreads) idx i := by
  obtain ⟨hi, hget⟩ := List.getElem?_eq_some_iff.mp h
  have hall := List.prefix_iff_getElem?.mp
    (pwriteLoop_consecutive pwrite (blockCount / nThreads) (stride nThreads * idx)) i hi
  obtain ⟨i', hi', hoffset⟩ := Option.map_eq_some_iff.mp (List.getElem?_map.symm.trans hall)
  obtain ⟨hlt, rfl⟩ := List.getElem?_eq_some_iff.mp hi'
  rw [List.length_range] at hlt
  rw [List.getElem_range] at hoffset
  exact ⟨hlt, hget.symm.trans hoffset.symm⟩

/-- Without failures the calls of a writer are the blocks of its stripe. -/
theorem pwriteCalls_eq {pwrite : ℕ → ℤ} (hpwrite : ∀ offset, pwrite offset = blockSize)
    (nThreads idx : ℕ) : pwriteCalls pwrite nThreads idx
      = (List.range (blockCount / nThreads)).map (blockStart blockSize (stride nThreads) idx) := by
  apply (pwriteLoop_consecutive pwrite _ _).eq_of_length
  rw [(pwriteLoop_all hpwrite _ _).1, List.length_map, List.length_range]

/-! ### The regions -/

/-- What direct I/O by several writers needs: the offsets of the calls are whole blocks
and lie in the file, no two calls write the same byte, and a writer that no failure stops
writes its share of the blocks, one after the other. -/
structure Regions (pwrite : ℕ → ℤ) (nThreads : ℕ) : Prop where
  aligned : ∀ idx < nThreads, ∀ offset ∈ pwriteCalls pwrite nThreads idx, blockSize ∣ offset
  in_file : ∀ idx < nThreads, ∀ offset ∈ pwriteCalls pwrite nThreads idx,
    offset ≤ (blockCount - 1) * blockSize
  disjoint : ∀ idx < nThreads, ∀ jdx < nThreads, ∀ i j a b : ℕ,
    (pwriteCalls pwrite nThreads idx)[i]? = some a →
    (pwriteCalls pwrite nThreads jdx)[j]? = some b →
    (idx, i) ≠ (jdx, j) → Disjoint (bytes a) (bytes b)
  consecutive : ∀ idx < nThreads, (∀ offset, pwrite offset = blockSize) → ∃ start,
    pwriteCalls pwrite nThreads idx
      = (List.range (blockCount / nThreads)).map fun i => start + i * blockSize

variable {pwrite : ℕ → ℤ} {nThreads : ℕ}

/-- The calls are aligned exactly when the stride is, unless there is only one writer. -/
theorem aligned_iff (hn : 1 < nThreads) (hle : nThreads ≤ blockCount) :
    (∀ idx < nThreads, ∀ offset ∈ pwriteCalls pwrite nThreads idx, blockSize ∣ offset)
      ↔ blockSize ∣ stride nThreads := by
  have hcount : 0 < blockCount / nThreads := Nat.div_pos hle (Nat.zero_lt_of_lt hn)
  constructor
  · intro h
    have hfirst := h 1 hn _ (mem_pwriteLoop pwrite hcount _)
    rwa [Nat.mul_one] at hfirst
  · intro h idx hidx offset hmem
    obtain ⟨i, hi⟩ := List.mem_iff_getElem?.mp hmem
    obtain ⟨hlt, rfl⟩ := getElem?_pwriteCalls hi
    exact (size_dvd_blockStart_iff hn hcount).mpr h idx hidx i hlt

theorem in_file_of_mem (hpos : 1 ≤ nThreads) {idx offset : ℕ} (hidx : idx < nThreads)
    (hmem : offset ∈ pwriteCalls pwrite nThreads idx) : offset ≤ (blockCount - 1) * blockSize := by
  obtain ⟨i, hi⟩ := List.mem_iff_getElem?.mp hmem
  obtain ⟨hlt, rfl⟩ := getElem?_pwriteCalls hi
  have hfit : blockCount / nThreads * blockSize ≤ stride nThreads :=
    count_mul_size_le_stride blockCount hpos
  have hfile := (blockStart_add_le hfit hidx hlt).trans
    (Nat.div_mul_le_self (blockCount * blockSize) nThreads)
  rw [Nat.sub_mul, Nat.one_mul]
  exact Nat.le_sub_of_add_le hfile

/-- **The writers have aligned regions of their own exactly when the blocks left over are
less than a byte for each of them.**  The regions themselves never meet. -/
theorem regions_iff (pwrite : ℕ → ℤ) (nThreads : ℕ) (hpos : 1 ≤ nThreads)
    (hle : nThreads ≤ blockCount) :
    Regions pwrite nThreads ↔ blockSize * (blockCount % nThreads) < nThreads := by
  have hsize : 0 < blockSize := by decide
  have hstride : blockSize ∣ stride nThreads ↔ blockSize * (blockCount % nThreads) < nThreads :=
    size_dvd_stride_iff blockCount hpos hsize
  have hfit : blockCount / nThreads * blockSize ≤ stride nThreads :=
    count_mul_size_le_stride blockCount hpos
  constructor
  · intro h
    rcases Nat.lt_or_eq_of_le hpos with hmany | rfl
    · exact hstride.mp ((aligned_iff hmany hle).mp h.aligned)
    · -- one writer has the whole file, and nothing is left over
      rw [Nat.mod_one]
      exact Nat.zero_lt_one
  · intro h
    refine ⟨?_, fun idx hidx offset => in_file_of_mem hpos hidx, ?_, ?_⟩
    case refine_1 =>
      intro idx hidx offset hmem
      obtain ⟨i, hi⟩ := List.mem_iff_getElem?.mp hmem
      -- a block's offset is the start of the region and whole blocks
      obtain ⟨hlt, rfl⟩ := getElem?_pwriteCalls hi
      exact ((hstride.mpr h).mul_right idx).add (Dvd.intro_left i rfl)
    case refine_2 =>
      intro idx _ jdx _ i j a b ha hb hne
      obtain ⟨hi, rfl⟩ := getElem?_pwriteCalls ha
      obtain ⟨hj, rfl⟩ := getElem?_pwriteCalls hb
      exact blocks_disjoint hfit hi hj hne
    case refine_3 =>
      intro idx _ hpwrite
      exact ⟨stride nThreads * idx, pwriteCalls_eq hpwrite nThreads idx⟩

/-- The 32 writers of the usage text. -/
theorem regions_thirtyTwo : Regions (fun _ => blockSize) 32 :=
  (regions_iff (fun _ => blockSize) 32 (by decide) (by decide)).mpr (by decide)

/-- With three writers the second starts at byte 1431655765. -/
theorem not_regions_three : ¬ Regions (fun _ => blockSize) 3 := by
  intro h
  have hstride : blockSize ∣ stride 3 := (aligned_iff (by decide) (by decide)).mp h.aligned
  exact absurd hstride (by decide)

end MyTests.Mydd
