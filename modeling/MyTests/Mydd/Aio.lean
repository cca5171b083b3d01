/-
MyTests/Mydd/Aio.lean

`src/mysql/io-bench/mydd.cc`: the loop of `evaluate_aio`.

The loop keeps up to `depth` writes in flight.  What it counts are the writes in
flight (`pending_io`) and those done (`sent_blocks`); which writes these are only the
kernel knows.  The state has both, the counters of the program and the writes of the
kernel, and the kernel completes any of them.

A call that fails ends the program.  `Succeeds` are the steps without a failure, and
`Books` is what the counters say about the writes, in every state that these reach.
-/
import MyTests.Lib.Transition
import MyTests.Mydd.Dio

namespace MyTests.Mydd

open MyTests.Lib

/-! ### The loop -/

/-- The byte at which the next write is submitted. -/
def aioOffset (depth sentBlocks : ℕ) : ℕ :=
  let subBlockIndex := sentBlocks % depth
  let subBlockOffset := sentBlocks / depth
  (subBlockIndex * blockCount / depth + subBlockOffset) * blockSize

/-- Where the program is: at the head of the loop, after `io_destroy`, after `exit(1)`. -/
inductive Point
  | loop
  | destroyed
  | exited
deriving DecidableEq, Repr

structure State where
  point : Point
  pendingIo : ℤ
  sentBlocks : ℕ
  /-- The offsets of the writes that the kernel has not completed. -/
  inFlight : Multiset ℕ

/-- After `io_setup`. -/
def start : State := ⟨.loop, 0, 0, 0⟩

/-- The condition of the `if`. -/
def Room (depth : ℕ) (s : State) : Prop :=
  s.pendingIo < depth ∧ s.sentBlocks + s.pendingIo < blockCount

instance (depth : ℕ) (s : State) : Decidable (Room depth s) :=
  inferInstanceAs (Decidable (_ ∧ _))

inductive Event
  | submit (offset : ℕ)
  | complete (offset : ℕ)
  | destroy
  | failed
deriving DecidableEq, Repr

/-- One round of the loop, or its end.  `io_getevents` waits for a write in flight. -/
inductive Step (depth : ℕ) : State → List Event → State → Prop
  | submit {s : State} : s.point = .loop → s.sentBlocks < blockCount → Room depth s →
      Step depth s [.submit (aioOffset depth s.sentBlocks)]
        { s with
          pendingIo := s.pendingIo + 1
          inFlight := aioOffset depth s.sentBlocks ::ₘ s.inFlight }
  | submitFailed {s : State} : s.point = .loop → s.sentBlocks < blockCount → Room depth s →
      Step depth s [.failed] { s with point := .exited }
  | getevents {s : State} {io : ℕ} : s.point = .loop → s.sentBlocks < blockCount →
      ¬ Room depth s → io ∈ s.inFlight →
      Step depth s [.complete io]
        { s with
          pendingIo := s.pendingIo - 1
          sentBlocks := s.sentBlocks + 1
          inFlight := s.inFlight.erase io }
  | geteventsFailed {s : State} : s.point = .loop → s.sentBlocks < blockCount →
      ¬ Room depth s → Step depth s [.failed] { s with point := .exited }
  | destroy {s : State} : s.point = .loop → ¬ s.sentBlocks < blockCount →
      Step depth s [.destroy] { s with point := .destroyed }

/-- The steps in which every call returns 1. -/
def Succeeds (depth : ℕ) (s : State) (e : List Event) (t : State) : Prop :=
  Step depth s e t ∧ .failed ∉ e

/-- The program is in `io_getevents`. -/
def InGetevents (depth : ℕ) (s : State) : Prop :=
  s.point = .loop ∧ s.sentBlocks < blockCount ∧ ¬ Room depth s

/-- The offsets submitted, in this order. -/
def submitted (es : List Event) : List ℕ :=
  es.filterMap fun
    | .submit offset => some offset
    | _ => none

/-- The offsets of the writes completed, in this order. -/
def completed (es : List Event) : List ℕ :=
  es.filterMap fun
    | .complete offset => some offset
    | _ => none

variable {depth : ℕ} {es : List Event} {s : State}

@[simp] theorem submitted_append (es es' : List Event) :
    submitted (es ++ es') = submitted es ++ submitted es' :=
  List.filterMap_append

@[simp] theorem completed_append (es es' : List Event) :
    completed (es ++ es') = completed es ++ completed es' :=
  List.filterMap_append

@[simp] theorem submitted_append_submit (es : List Event) (offset : ℕ) :
    submitted (es ++ [.submit offset]) = submitted es ++ [offset] :=
  submitted_append _ _

@[simp] theorem submitted_append_complete (es : List Event) (io : ℕ) :
    submitted (es ++ [.complete io]) = submitted es :=
  (submitted_append _ _).trans (List.append_nil _)

@[simp] theorem submitted_append_destroy (es : List Event) :
    submitted (es ++ [.destroy]) = submitted es :=
  (submitted_append _ _).trans (List.append_nil _)

@[simp] theorem completed_append_submit (es : List Event) (offset : ℕ) :
    completed (es ++ [.submit offset]) = completed es :=
  (completed_append _ _).trans (List.append_nil _)

@[simp] theorem completed_append_complete (es : List Event) (io : ℕ) :
    completed (es ++ [.complete io]) = completed es ++ [io] :=
  completed_append _ _

@[simp] theorem completed_append_destroy (es : List Event) :
    completed (es ++ [.destroy]) = completed es :=
  (completed_append _ _).trans (List.append_nil _)

/-- What a step without a failure can do. -/
theorem Succeeds.cases {e : List Event} {t : State} (h : Succeeds depth s e t) :
    s.point = .loop ∧
      ((s.sentBlocks < blockCount ∧ Room depth s ∧ e = [.submit (aioOffset depth s.sentBlocks)]
        ∧ t = { s with
                pendingIo := s.pendingIo + 1
                inFlight := aioOffset depth s.sentBlocks ::ₘ s.inFlight })
      ∨ (∃ io ∈ s.inFlight, s.sentBlocks < blockCount ∧ ¬ Room depth s ∧ e = [.complete io]
        ∧ t = { s with
                pendingIo := s.pendingIo - 1
                sentBlocks := s.sentBlocks + 1
                inFlight := s.inFlight.erase io })
      ∨ (¬ s.sentBlocks < blockCount ∧ e = [.destroy] ∧ t = { s with point := .destroyed })) := by
  obtain ⟨hstep, hok⟩ := h
  cases hstep with
  | submit hloop hlt hroom => exact ⟨hloop, .inl ⟨hlt, hroom, rfl, rfl⟩⟩
  | submitFailed => exact absurd (List.mem_singleton_self _) hok
  | getevents hloop hlt hfull hio => exact ⟨hloop, .inr (.inl ⟨_, hio, hlt, hfull, rfl, rfl⟩)⟩
  | geteventsFailed => exact absurd (List.mem_singleton_self _) hok
  | destroy hloop hdone => exact ⟨hloop, .inr (.inr ⟨hdone, rfl, rfl⟩)⟩

/-! ### The offsets -/

/-- Scattering `n` numbers over `d` parts does not lead out of `0 … n - 1`. -/
theorem scattered_lt {n d k : ℕ} (hd : 0 < d) (hk : k < n) : k % d * n / d + k / d < n := by
  have hsplit := Nat.div_add_mod k d
  have hmod := Nat.mod_lt k hd
  -- the last part starts `n / d` before the end
  have hlast : k % d * n + n ≤ d * n := by
    rw [← Nat.succ_mul]
    exact Nat.mul_le_mul_right n hmod
  have hpart : k % d * n / d * d ≤ k % d * n := Nat.div_mul_le_self _ _
  have hmul : (k % d * n / d + k / d) * d < n * d := by
    rw [Nat.add_mul, Nat.mul_comm n d, Nat.mul_comm (k / d) d]
    omega
  exact Nat.lt_of_mul_lt_mul_right hmul

/-- A write starts a block of the file. -/
theorem aioOffset_eq (hdepth : 1 ≤ depth) {sentBlocks : ℕ} (hsent : sentBlocks < blockCount) :
    ∃ block < blockCount, aioOffset depth sentBlocks = block * blockSize :=
  ⟨_, scattered_lt hdepth hsent, rfl⟩

/-- For an `int` as `depth` no product leaves the range of a `long`. -/
theorem product_fits (hdepth : 1 ≤ depth) (hint : depth < 2 ^ 31) (sentBlocks : ℕ) :
    sentBlocks % depth * blockCount < 2 ^ 63 := by
  have hmod : sentBlocks % depth < 2 ^ 31 := (Nat.mod_lt _ hdepth).trans hint
  have hprod := Nat.mul_lt_mul_of_pos_right hmod (show 0 < blockCount by decide)
  exact hprod.trans (by decide)

/-! ### The books -/

/-- What the counters say about the writes, after the events `es`. -/
structure Books (depth : ℕ) (es : List Event) (s : State) : Prop where
  conserved : (submitted es : Multiset ℕ) = completed es + s.inFlight
  pending : s.pendingIo = s.inFlight.card
  sent : (completed es).length = s.sentBlocks
  pending_le : s.pendingIo ≤ depth
  total_le : s.sentBlocks + s.pendingIo ≤ blockCount
  offsets : ∀ offset ∈ submitted es, ∃ block < blockCount, offset = block * blockSize
  length : es.length
    = (submitted es).length + (completed es).length + if s.point = .loop then 0 else 1
  finished : s.point ≠ .loop → s.point = .destroyed ∧ s.sentBlocks = blockCount

theorem Books.init (depth : ℕ) : Books depth [] start where
  conserved := rfl
  pending := rfl
  sent := rfl
  pending_le := Int.natCast_nonneg depth
  total_le := by decide
  offsets := by
    intro offset hmem
    exact absurd hmem List.not_mem_nil
  length := rfl
  finished := fun h => absurd rfl h

/-- **One step keeps the books.** -/
theorem Books.step (hdepth : 1 ≤ depth) (h : Books depth es s) {e : List Event} {t : State}
    (hs : Succeeds depth s e t) : Books depth (es ++ e) t := by
  obtain ⟨hloop, ⟨hlt, hroom, rfl, rfl⟩ | ⟨io, hio, hlt, hfull, rfl, rfl⟩ | ⟨hdone, rfl, rfl⟩⟩
    := hs.cases
  -- a write is submitted: it is in flight now
  · constructor
    case conserved =>
      rw [submitted_append_submit, completed_append_submit, ← Multiset.coe_add, h.conserved,
        add_assoc]
      show _ = _ + ({_} + s.inFlight)
      rw [add_comm s.inFlight]
      rfl
    case pending =>
      show s.pendingIo + 1 = ((_ ::ₘ s.inFlight).card : ℤ)
      rw [Multiset.card_cons, h.pending]
      rfl
    case sent => rw [completed_append_submit]; exact h.sent
    case pending_le => exact hroom.1
    case total_le =>
      have htotal := hroom.2
      show (s.sentBlocks : ℤ) + (s.pendingIo + 1) ≤ blockCount
      omega
    case offsets =>
      intro offset hmem
      rw [submitted_append_submit, List.mem_append, List.mem_singleton] at hmem
      rcases hmem with hmem | rfl
      · exact h.offsets offset hmem
      · exact aioOffset_eq hdepth hlt
    case length =>
      rw [submitted_append_submit, completed_append_submit, List.length_append, h.length,
        List.length_append]
      simp only [List.length_singleton]
      omega
    case finished => exact h.finished
  -- `io` has completed: it is in flight no more
  · constructor
    case conserved =>
      rw [submitted_append_complete, completed_append_complete, ← Multiset.coe_add, h.conserved,
        add_assoc]
      show _ = _ + ({io} + s.inFlight.erase io)
      rw [Multiset.singleton_add, Multiset.cons_erase hio]
    case pending =>
      show s.pendingIo - 1 = ((s.inFlight.erase io).card : ℤ)
      have hcard := Multiset.card_erase_add_one hio
      rw [h.pending]
      omega
    case sent => rw [completed_append_complete, List.length_append, h.sent]; rfl
    case pending_le =>
      have hle := h.pending_le
      show s.pendingIo - 1 ≤ (depth : ℤ)
      omega
    case total_le =>
      have hle := h.total_le
      show ((s.sentBlocks + 1 : ℕ) : ℤ) + (s.pendingIo - 1) ≤ blockCount
      omega
    case offsets => rw [submitted_append_complete]; exact h.offsets
    case length =>
      rw [submitted_append_complete, completed_append_complete, List.length_append, h.length,
        List.length_append]
      simp only [List.length_singleton]
      omega
    case finished => exact fun hne => absurd hloop hne
  -- all blocks are sent, so nothing is in flight
  · have htotal := h.total_le
    have hpending := h.pending
    constructor
    case conserved => rw [submitted_append_destroy, completed_append_destroy]; exact h.conserved
    case pending => exact h.pending
    case sent => rw [completed_append_destroy]; exact h.sent
    case pending_le => exact h.pending_le
    case total_le => exact h.total_le
    case offsets => rw [submitted_append_destroy]; exact h.offsets
    case length =>
      rw [submitted_append_destroy, completed_append_destroy, List.length_append, h.length,
        if_pos hloop, if_neg (show Point.destroyed ≠ .loop by decide)]
      rfl
    case finished =>
      intro _
      exact ⟨rfl, by show s.sentBlocks = blockCount; omega⟩

/-- **The books are kept in every run.** -/
theorem Books.run (hdepth : 1 ≤ depth) (h : Run (Succeeds depth) start es s) : Books depth es s :=
  h.invariant (Books.init depth) fun _ _ _ _ hbooks hs => hbooks.step hdepth hs

/-- In `io_getevents` there is something to wait for. -/
theorem Books.inFlight_ne_zero (hdepth : 1 ≤ depth) (h : Books depth es s)
    (hwait : InGetevents depth s) : s.inFlight ≠ 0 := by
  obtain ⟨-, hlt, hfull⟩ := hwait
  intro hnone
  have hzero : s.pendingIo = 0 := by rw [h.pending, hnone]; rfl
  apply hfull
  constructor
  · rw [hzero]
    exact_mod_cast hdepth
  · rw [hzero, add_zero]
    exact_mod_cast hlt

/-- The loop goes on. -/
theorem Books.exists_step (hdepth : 1 ≤ depth) (h : Books depth es s) (hloop : s.point = .loop) :
    ∃ e t, e ≠ [] ∧ Succeeds depth s e t := by
  by_cases hlt : s.sentBlocks < blockCount
  · by_cases hroom : Room depth s
    · exact ⟨_, _, List.cons_ne_nil _ _, .submit hloop hlt hroom, by simp⟩
    · obtain ⟨io, hio⟩ :=
        Multiset.exists_mem_of_ne_zero (h.inFlight_ne_zero hdepth ⟨hloop, hlt, hroom⟩)
      exact ⟨_, _, List.cons_ne_nil _ _, .getevents hloop hlt hroom hio, by simp⟩
  · exact ⟨_, _, List.cons_ne_nil _ _, .destroy hloop hlt, by simp⟩

theorem Books.length_submitted (h : Books depth es s) :
    ((submitted es).length : ℤ) = s.sentBlocks + s.pendingIo := by
  have hcard := congrArg Multiset.card h.conserved
  rw [Multiset.card_add, Multiset.coe_card, Multiset.coe_card, h.sent] at hcard
  rw [hcard, h.pending]
  exact Nat.cast_add _ _

/-- A write is submitted once and completed once, and there is one `io_destroy`. -/
theorem Books.length_le (h : Books depth es s) : es.length ≤ 2 * blockCount + 1 := by
  have hlen := h.length
  have hsub := h.length_submitted
  have hsent := h.sent
  have htotal := h.total_le
  have hpending := h.pending
  have hone : (if s.point = .loop then 0 else 1) ≤ 1 := by split_ifs <;> decide
  omega

/-- **The loop ends**, whatever the order of the completions. -/
theorem exists_destroyed (hdepth : 1 ≤ depth) :
    ∃ es s, Run (Succeeds depth) start es s ∧ s.point = .destroyed := by
  refine Run.exists_final (2 * blockCount + 1) (fun es t h => (Books.run hdepth h).length_le) ?_
  intro es t h hnot
  have hbooks := Books.run hdepth h
  by_cases hloop : t.point = .loop
  · exact hbooks.exists_step hdepth hloop
  · exact absurd (hbooks.finished hloop).1 hnot

/-- The accounting of `evaluate_aio`, after the events `es`: the counters keep their bounds,
`io_getevents` is called with writes in flight only, the loop goes on and ends, after a
submission and a completion for each block with nothing in flight, and every offset is that
of a block in the file. -/
structure Accounting (depth : ℕ) (es : List Event) (s : State) : Prop where
  pending_bounds : 0 ≤ s.pendingIo ∧ s.pendingIo ≤ depth
  total_le : s.sentBlocks + s.pendingIo ≤ blockCount
  getevents : InGetevents depth s → s.inFlight ≠ 0
  goes_on : s.point = .loop → ∃ e t, Succeeds depth s e t
  ends : es.length ≤ 2 * blockCount + 1
  ended : s.point ≠ .loop → s.point = .destroyed ∧ (submitted es).length = blockCount
    ∧ (completed es).length = blockCount ∧ (submitted es).Perm (completed es) ∧ s.inFlight = 0
  offsets : ∀ offset ∈ submitted es, ∃ block < blockCount, offset = block * blockSize

/-- **The accounting holds in every run without failures.** -/
theorem accounting (depth : ℕ) (hdepth : 1 ≤ depth) (es : List Event) (s : State)
    (hrun : Run (Succeeds depth) start es s) : Accounting depth es s := by
  have h := Books.run hdepth hrun
  have hpending := h.pending
  have htotal := h.total_le
  refine ⟨⟨by omega, h.pending_le⟩, htotal, h.inFlight_ne_zero hdepth, ?_, h.length_le, ?_,
    h.offsets⟩
  · intro hloop
    obtain ⟨e, t, -, hs⟩ := h.exists_step hdepth hloop
    exact ⟨e, t, hs⟩
  · intro hne
    obtain ⟨hpoint, hsent⟩ := h.finished hne
    have hsub := h.length_submitted
    have hnone : s.inFlight = 0 := by
      rw [← Multiset.card_eq_zero]
      omega
    have hconserved := h.conserved
    rw [hnone, add_zero, Multiset.coe_eq_coe] at hconserved
    refine ⟨hpoint, by omega, by rw [h.sent, hsent], hconserved, hnone⟩

/-- Two writes in flight, after which the loop waits. -/
theorem accounting_two : Accounting 2 [.submit 0, .submit 0] ⟨.loop, 2, 0, {0, 0}⟩ := by
  refine accounting 2 (by decide) _ _ ?_
  have hfirst : Succeeds 2 start [.submit 0] ⟨.loop, 1, 0, {0}⟩ :=
    ⟨.submit rfl (by decide) (by decide), by simp⟩
  have hsecond : Succeeds 2 ⟨.loop, 1, 0, {0}⟩ [.submit 0] ⟨.loop, 2, 0, {0, 0}⟩ :=
    ⟨.submit rfl (by decide) (by decide), by simp⟩
  exact (Run.single hfirst).tail hsecond

end MyTests.Mydd
