/-
MyTests/Mydd/AioCoverage.lean

`src/mysql/io-bench/mydd.cc`: which blocks `evaluate_aio` writes.

The offset of a write is computed from the writes done, and before the first is done
the loop has submitted as many as it can keep in flight: all of them at offset 0.
From then on there is a submission for each completion, until as many as are in
flight remain to be completed, and for these there is none.  So submission `i` has the
offset for `i + 1 - m` writes done, where `m` are the writes that the first filling
submits (`Order.submitted`).

Main result: every block is written once when `depth` is 1, and never otherwise
(`perm_allBlocks_iff`).
-/
import MyTests.Mydd.Aio

namespace MyTests.Mydd

open MyTests.Lib

variable {depth : ℕ} {es : List Event} {s : State}

/-- The writes of the first filling. -/
def firstFill (depth : ℕ) : ℕ := min depth blockCount

/-- The offset of submission `i`. -/
def nthOffset (depth i : ℕ) : ℕ := aioOffset depth (i + 1 - firstFill depth)

/-- The offsets of the blocks of the file. -/
def allBlocks : List ℕ := (List.range blockCount).map (· * blockSize)

/-! ### The order of the submissions -/

/-- The submissions so far, and that the filling is over when a write is done. -/
structure Order (depth : ℕ) (es : List Event) (s : State) : Prop where
  books : Books depth es s
  filled : 0 < s.sentBlocks →
    firstFill depth ≤ s.pendingIo + 1 ∨ s.sentBlocks + s.pendingIo = blockCount
  submitted : submitted es = (List.range (submitted es).length).map (nthOffset depth)

/-- A submission takes its turn. -/
theorem Order.aioOffset_eq (h : Order depth es s) (hroom : Room depth s) :
    aioOffset depth s.sentBlocks = nthOffset depth (Mydd.submitted es).length := by
  have hlen := h.books.length_submitted
  have hpending := h.books.pending
  obtain ⟨hdepth, htotal⟩ := hroom
  have hturn : s.sentBlocks = (Mydd.submitted es).length + 1 - firstFill depth := by
    have hfilled := h.filled
    rw [firstFill] at hfilled ⊢
    rcases Nat.eq_zero_or_pos s.sentBlocks with hzero | hpos
    · -- the filling goes on, at most `firstFill` writes are submitted
      omega
    · rcases hfilled hpos with hfull | hall
      · omega
      · omega
  rw [nthOffset, ← hturn]

/-- **One step keeps the order.** -/
theorem Order.step (hdepth : 1 ≤ depth) (h : Order depth es s) {e : List Event} {t : State}
    (hs : Succeeds depth s e t) : Order depth (es ++ e) t := by
  have hbooks := h.books.step hdepth hs
  have hbefore := h.books
  obtain ⟨-, ⟨hlt, hroom, rfl, rfl⟩ | ⟨io, hio, hlt, hfull, rfl, rfl⟩ | ⟨hdone, rfl, rfl⟩⟩
    := hs.cases
  · refine ⟨hbooks, ?_, ?_⟩
    · intro hpos
      show (firstFill depth : ℤ) ≤ s.pendingIo + 1 + 1
        ∨ (s.sentBlocks : ℤ) + (s.pendingIo + 1) = blockCount
      have htotal := hroom.2
      rcases h.filled hpos with hfill | hall
      · left; omega
      · omega
    -- the write takes the next offset of the order
    · rw [submitted_append_submit, List.length_append, List.length_singleton, List.range_succ,
        List.map_append, ← h.submitted, h.aioOffset_eq hroom]
      rfl
  · refine ⟨hbooks, ?_, ?_⟩
    · intro _
      show (firstFill depth : ℤ) ≤ s.pendingIo - 1 + 1
        ∨ ((s.sentBlocks + 1 : ℕ) : ℤ) + (s.pendingIo - 1) = blockCount
      have htotal := hbefore.total_le
      rw [Room, not_and_or] at hfull
      -- the wait came because the queue was full or everything submitted
      rcases hfull with hdeep | hall
      · left
        rw [firstFill]
        omega
      · right; omega
    · rw [submitted_append_complete]
      exact h.submitted
  · refine ⟨hbooks, h.filled, ?_⟩
    rw [submitted_append_destroy]
    exact h.submitted

/-- **Every run keeps the order.** -/
theorem Order.run (hdepth : 1 ≤ depth) (h : Run (Succeeds depth) start es s) :
    Order depth es s :=
  h.invariant ⟨Books.init depth, fun hpos => absurd hpos (Nat.lt_irrefl 0), rfl⟩
    fun _ _ _ _ horder hs => horder.step hdepth hs

/-- The offsets of a whole run. -/
theorem submitted_of_destroyed (hdepth : 1 ≤ depth) (h : Run (Succeeds depth) start es s)
    (hend : s.point = .destroyed) :
    submitted es = (List.range blockCount).map (nthOffset depth) := by
  have horder := Order.run hdepth h
  have hlen := horder.books.length_submitted
  have htotal := horder.books.total_le
  have hpending := horder.books.pending
  have hsent := (horder.books.finished (by rw [hend]; decide)).2
  have hcount : (submitted es).length = blockCount := by omega
  rw [horder.submitted, hcount]

/-! ### The blocks written -/

/-- With one write in flight the writes done count the submissions. -/
theorem nthOffset_one (i : ℕ) : nthOffset 1 i = i * blockSize := by
  have hfirst : firstFill 1 = 1 := by decide
  rw [nthOffset, hfirst, Nat.add_sub_cancel, aioOffset, Nat.mod_one, Nat.zero_mul, Nat.zero_div,
    Nat.div_one, Nat.zero_add]

theorem nodup_allBlocks : allBlocks.Nodup := by
  apply List.nodup_range.map
  intro i j hij
  exact Nat.eq_of_mul_eq_mul_right (by decide) hij

/-- With more, the first two submissions are the same. -/
theorem not_nodup_of_two_le (hdepth : 2 ≤ depth) :
    ¬ ((List.range blockCount).map (nthOffset depth)).Nodup := by
  intro hnodup
  have hcount : 2 ≤ blockCount := by decide
  have hfirst : 2 ≤ firstFill depth := le_min hdepth hcount
  have hsame : nthOffset depth 0 = nthOffset depth 1 := by
    rw [nthOffset, nthOffset]
    congr 1
    omega
  have heq := List.inj_on_of_nodup_map hnodup (List.mem_range.mpr (by decide))
    (List.mem_range.mpr (by decide)) hsame
  exact absurd heq (by decide)

/-- **Every block is written once exactly when one write is in flight at a time.**  There is
a run to the end, and of every such run this holds. -/
theorem perm_allBlocks_iff (depth : ℕ) (hdepth : 1 ≤ depth) :
    (∃ es s, Run (Succeeds depth) start es s ∧ s.point = .destroyed)
      ∧ ∀ es s, Run (Succeeds depth) start es s → s.point = .destroyed →
          ((submitted es).Perm allBlocks ↔ depth = 1) := by
  refine ⟨exists_destroyed hdepth, fun es s h hend => ?_⟩
  rw [submitted_of_destroyed hdepth h hend]
  constructor
  · intro hperm
    by_contra hne
    exact not_nodup_of_two_le (by omega) (hperm.nodup_iff.mpr nodup_allBlocks)
  · rintro rfl
    rw [funext nthOffset_one]
    exact List.Perm.refl _

/-- The queue of one write. -/
theorem perm_allBlocks_one :
    (∃ es s, Run (Succeeds 1) start es s ∧ s.point = .destroyed)
      ∧ ∀ es s, Run (Succeeds 1) start es s → s.point = .destroyed →
          ((submitted es).Perm allBlocks ↔ 1 = 1) :=
  perm_allBlocks_iff 1 (by decide)

/-- With two in flight the program comes to its end without having written every block once. -/
theorem not_perm_allBlocks_two :
    ¬ ∀ es s, Run (Succeeds 2) start es s → s.point = .destroyed →
        (submitted es).Perm allBlocks := by
  intro hall
  have hdepth : 1 ≤ 2 := by decide
  obtain ⟨es, s, h, hend⟩ := exists_destroyed hdepth
  have hnodup := (hall es s h hend).nodup_iff.mpr nodup_allBlocks
  rw [submitted_of_destroyed hdepth h hend] at hnodup
  exact not_nodup_of_two_le (Nat.le_refl 2) hnodup

end MyTests.Mydd
