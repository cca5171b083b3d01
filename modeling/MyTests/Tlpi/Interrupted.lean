/-
MyTests/Tlpi/Interrupted.lean

Interrupted reads of `tail`.

When `read` fails with `EINTR` the loop of `main` does not try again at once: it goes
on with a length of -1, which `parse_newline` takes as nothing to do, and which is then
added to the offset.  So every line start noted later is too small by one for each
interrupted read before it.

A run is compared with the same run with interrupted reads inserted.  Its starts are
those of the other run less the number of reads inserted before each
(`trace_disturbed`), and that number grows along the run, so the newest start tells
whether any of them is off (`drop_lagged_iff`).
-/
import MyTests.Tlpi.Tail

namespace MyTests.Tlpi

open MyTests.Lib

/-! ### Lagging lists -/

/-- The items of `l`, each less by its lag. -/
def lagged (l : List ℤ) (lags : List ℕ) : List ℤ := List.zipWith (fun x (e : ℕ) => x - e) l lags

theorem lagged_append {l l' : List ℤ} {lags lags' : List ℕ} (hlen : lags.length = l.length) :
    lagged (l ++ l') (lags ++ lags') = lagged l lags ++ lagged l' lags' :=
  List.zipWith_append hlen.symm

theorem lagged_replicate (l : List ℤ) (d : ℕ) :
    lagged l (List.replicate l.length d) = l.map fun x : ℤ => x - d := by
  induction l with
  | nil => rfl
  | cons x l ih => exact congrArg (List.cons _) ih

/-- **The newest item tells.**  When the lags grow, the newest `n` items are the same just
when no item lags. -/
theorem drop_lagged_iff {n : ℕ} (hn : 0 < n) (a : ℤ) {l : List ℤ} {lags : List ℕ}
    (hlen : lags.length = l.length) (hsorted : lags.Pairwise (· ≤ ·)) :
    (a :: l).drop ((a :: l).length - n) = (a :: lagged l lags).drop ((a :: l).length - n)
      ↔ ∀ e ∈ lags, e = 0 := by
  constructor
  · intro hdrop
    rcases List.eq_nil_or_concat lags with rfl | ⟨lags, e, rfl⟩
    · exact fun e he => absurd he List.not_mem_nil
    · obtain ⟨l, x, rfl⟩ : ∃ l' x, l = l' ++ [x] := by
        rcases List.eq_nil_or_concat l with rfl | ⟨l, x, rfl⟩
        · simp at hlen
        · exact ⟨l, x, List.concat_eq_append⟩
      rw [List.concat_eq_append] at *
      have hlen' : lags.length = l.length := by simpa using hlen
      have hlast := congrArg List.getLast? hdrop
      have hlag : lagged (l ++ [x]) (lags ++ [e]) = lagged l lags ++ [x - e] := lagged_append hlen'
      rw [hlag] at hlast
      -- the newest item is never gone
      have hlen₁ : (a :: (l ++ [x])).length = l.length + 2 := by simp
      have hlen₂ : (a :: (lagged l lags ++ [x - (e : ℤ)])).length = l.length + 2 := by
        simp [lagged, hlen']
      rw [List.getLast?_drop, List.getLast?_drop, hlen₁, hlen₂, if_neg (by omega), if_neg (by omega),
        ← List.cons_append, ← List.cons_append, List.getLast?_concat, List.getLast?_concat] at hlast
      have hx : x = x - e := Option.some.inj hlast
      have he : e = 0 := by omega
      obtain ⟨-, -, hle⟩ := List.pairwise_append.mp hsorted
      intro e' he'
      rcases List.mem_append.mp he' with hmem | hmem
      · have hle' := hle e' hmem e (List.mem_singleton_self e)
        omega
      · rw [List.mem_singleton.mp hmem, he]
  · intro hzero
    rw [List.eq_replicate_iff.mpr ⟨hlen, hzero⟩, lagged_replicate]
    simp

/-! ### Inserted reads -/

/-- A run with reads inserted: `none` is an inserted read, which fails with `EINTR`. -/
abbrev Marked := List (Option ReadResult)

/-- The run as it is. -/
def disturbed (rs : Marked) : List ReadResult := rs.map fun r => r.getD (.failed eintr)

/-- The run without the inserted reads. -/
def plain (rs : Marked) : List ReadResult := rs.reduceOption

/-- For every line start that is noted, the number of inserted reads before it; `d` of them
are before the run. -/
def interruptions (d : ℕ) (c : UInt8) : Marked → List ℕ
  | [] => []
  | none :: rs => interruptions (d + 1) c rs
  | some (.bytes []) :: _ => []
  | some (.bytes (b :: buf)) :: rs =>
      List.replicate (startsIn c 0 (b :: buf)).length d ++ interruptions d (buf.getLastD b) rs
  | some (.failed errno) :: rs => if errno = eintr then interruptions d c rs else []

/-- The number of inserted reads before the loop is left. -/
def insertedReads : Marked → ℕ
  | [] => 0
  | none :: rs => insertedReads rs + 1
  | some (.bytes []) :: _ => 0
  | some (.bytes (_ :: _)) :: rs => insertedReads rs
  | some (.failed errno) :: rs => if errno = eintr then insertedReads rs else 0

theorem le_interruptions (d : ℕ) (c : UInt8) (rs : Marked) : ∀ e ∈ interruptions d c rs, d ≤ e := by
  fun_induction interruptions d c rs with
  | case1 => exact fun e he => absurd he List.not_mem_nil
  | case2 d c rs ih => exact fun e he => (Nat.le_succ d).trans (ih e he)
  | case3 => exact fun e he => absurd he List.not_mem_nil
  | case4 d c b buf rs ih =>
      intro e he
      rcases List.mem_append.mp he with he | he
      · exact (List.eq_of_mem_replicate he).ge
      · exact ih e he
  | case5 d c rs ih => exact ih
  | case6 => exact fun e he => absurd he List.not_mem_nil

/-- They grow along the run. -/
theorem interruptions_sorted (d : ℕ) (c : UInt8) (rs : Marked) :
    (interruptions d c rs).Pairwise (· ≤ ·) := by
  fun_induction interruptions d c rs with
  | case1 => exact List.Pairwise.nil
  | case2 d c rs ih => exact ih
  | case3 => exact List.Pairwise.nil
  | case4 d c b buf rs ih =>
      apply List.pairwise_append.mpr
      refine ⟨List.pairwise_replicate.mpr (.inr le_rfl), ih, ?_⟩
      intro a ha e he
      rw [List.eq_of_mem_replicate ha]
      exact le_interruptions d _ rs e he
  | case5 d c rs ih => exact ih
  | case6 => exact List.Pairwise.nil

theorem length_startsIn (c : UInt8) (o o' : ℤ) (buf : List UInt8) :
    (startsIn c o buf).length = (startsIn c o' buf).length := by
  rw [startsIn_eq, startsIn_eq, List.length_map, List.length_map]

/-- There is one for each start. -/
theorem length_interruptions (d : ℕ) (c : UInt8) (o : ℤ) (rs : Marked) :
    (interruptions d c rs).length = (trace c o (plain rs)).starts.length := by
  fun_induction interruptions d c rs generalizing o with
  | case1 => rfl
  | case2 d c rs ih => exact ih o
  | case3 => rfl
  | case4 d c b buf rs ih =>
      rw [List.length_append, List.length_replicate, ih (o + (b :: buf).length), length_startsIn c 0 o]
      exact List.length_append.symm
  | case5 d c rs ih => exact ih (o - 1)
  | case6 d c errno rs herr =>
      show 0 = (trace c o (.failed errno :: plain rs)).starts.length
      rw [trace, if_neg herr]
      rfl

theorem startsIn_sub (c : UInt8) (o : ℤ) (d : ℕ) (buf : List UInt8) :
    startsIn c (o - d) buf
      = lagged (startsIn c o buf) (List.replicate (startsIn c 0 buf).length d) := by
  rw [length_startsIn c 0 o, lagged_replicate, startsIn_eq, startsIn_eq, List.map_map]
  apply List.map_congr_left
  intro p _
  exact sub_add_eq_add_sub o d p

/-- **Every start is off by the number of reads inserted before it.** -/
theorem trace_disturbed (c : UInt8) (o : ℤ) (d : ℕ) (rs : Marked) :
    trace c (o - d) (disturbed rs)
      = { trace c o (plain rs) with
          starts := lagged (trace c o (plain rs)).starts (interruptions d c rs)
          offset := (trace c o (plain rs)).offset - (d + insertedReads rs : ℕ) } := by
  induction rs generalizing c o d with
  | nil => rfl
  | cons r rs ih =>
      match r with
      | none =>
          -- one more read is inserted before all that follows
          show trace c (o - d - 1) (disturbed rs) = _
          rw [sub_sub, ← Nat.cast_succ, ih, Nat.succ_add, ← Nat.add_succ]
          rfl
      | some (.bytes []) => rfl
      | some (.bytes (b :: buf)) =>
          have hlen : (List.replicate (startsIn c 0 (b :: buf)).length d).length
              = (startsIn c o (b :: buf)).length :=
            (List.length_replicate).trans (length_startsIn c 0 o _)
          show trace c (o - d) (.bytes (b :: buf) :: disturbed rs) = _
          rw [trace, sub_add_eq_add_sub, ih, startsIn_sub]
          show _ = Trace.mk (lagged (startsIn c o (b :: buf) ++ _)
            (List.replicate (startsIn c 0 (b :: buf)).length d ++ _)) _ _ _
          rw [lagged_append hlen]
          rfl
      | some (.failed errno) =>
          by_cases herr : errno = eintr
          · -- an interrupted read of the run itself shifts both alike
            subst herr
            show trace c (o - d - 1) (disturbed rs) = _
            rw [sub_right_comm, ih]
            rfl
          · have hleft : ∀ o' rs', trace c o' (.failed errno :: rs') = ⟨[], c, o', .error⟩ := by
              intro o' rs'
              rw [trace, if_neg herr]
            show trace c (o - d) (.failed errno :: disturbed rs) = _
            rw [show plain (some (.failed errno) :: rs) = .failed errno :: plain rs from rfl, hleft, hleft,
              interruptions, insertedReads, if_neg herr, if_neg herr]
            rfl

/-! ### When interrupted reads do no harm -/

/-- The run ends with the same variables of the parser and the same seek target as the run
without the inserted reads. -/
def SameResult (lines : ℕ) (rs : Marked) : Prop :=
  ∃ s s' x, readLoop lines (plain rs) (start lines) = some (s, x)
    ∧ readLoop lines (disturbed rs) (start lines) = some (s', x)
    ∧ s'.parser = s.parser ∧ seekTarget s' = seekTarget s

/-- The run ends with the same offset. -/
def SameOffset (lines : ℕ) (rs : Marked) : Prop :=
  ∃ s s' x, readLoop lines (plain rs) (start lines) = some (s, x)
    ∧ readLoop lines (disturbed rs) (start lines) = some (s', x) ∧ s'.offset = s.offset

theorem Parser.eq_of_ring {s t : Parser} (hring : s.ring = t.ring) (hchar : s.lastChar = t.lastChar) :
    s = t := by
  cases s
  cases t
  cases hring
  cases hchar
  rfl

variable {lines : ℕ}

/-- The two runs, with what they note. -/
theorem exists_runs (hlines : 0 < lines) (rs : Marked) :
    ∃ s s' x l, readLoop lines (plain rs) (start lines) = some (s, x)
      ∧ readLoop lines (disturbed rs) (start lines) = some (s', x)
      ∧ s'.parser.lastChar = s.parser.lastChar ∧ s'.offset = s.offset - insertedReads rs
      ∧ (interruptions 0 0 rs).length = l.length
      ∧ RingBuffer.Keeps lines (0 :: l) s.parser.ring
      ∧ RingBuffer.Keeps lines (0 :: lagged l (interruptions 0 0 rs)) s'.parser.ring := by
  have htrace := trace_disturbed 0 0 0 rs
  rw [Nat.cast_zero, sub_zero, Nat.zero_add] at htrace
  obtain ⟨s, hloop, hchar, hoffset, hkeeps⟩ :=
    readLoop_trace hlines (plain rs) (keeps_start hlines)
  obtain ⟨s', hloop', hchar', hoffset', hkeeps'⟩ :=
    readLoop_trace hlines (disturbed rs) (keeps_start hlines)
  change _ = some (s', (trace 0 0 (disturbed rs)).exit) at hloop'
  change _ = (trace 0 0 (disturbed rs)).lastChar at hchar'
  change _ = (trace 0 0 (disturbed rs)).offset at hoffset'
  change RingBuffer.Keeps lines ([0] ++ (trace 0 0 (disturbed rs)).starts) _ at hkeeps'
  rw [htrace] at hloop' hchar' hoffset' hkeeps'
  refine ⟨s, s', _, _, hloop, hloop', hchar'.trans hchar.symm, ?_, length_interruptions 0 0 0 rs, hkeeps,
    hkeeps'⟩
  rw [hoffset', hoffset]
  rfl

/-- **When interrupted reads do no harm.**  The result is the same just when no line starts
after an inserted read, and the offset only when the loop is left before the first of them. -/
theorem interrupted_iff (hlines : 0 < lines) (rs : Marked) :
    (SameResult lines rs ↔ ∀ e ∈ interruptions 0 0 rs, e = 0)
      ∧ (SameOffset lines rs ↔ insertedReads rs = 0) := by
  obtain ⟨s, s', x, l, hplain, hdisturbed, hchar, hoffset, hlen, hkeeps, hkeeps'⟩ :=
    exists_runs hlines rs
  -- the two rings are the same when no entry of the last `lines` lags behind
  have hring : s.parser.ring = s'.parser.ring ↔ ∀ e ∈ interruptions 0 0 rs, e = 0 := by
    rw [hkeeps.eq_iff hkeeps' (by simp [lagged, hlen])]
    exact drop_lagged_iff hlines 0 hlen (interruptions_sorted 0 0 rs)
  -- the runs of the definitions are these
  have hruns : ∀ t t' y, readLoop lines (plain rs) (start lines) = some (t, y) →
      readLoop lines (disturbed rs) (start lines) = some (t', y) → t = s ∧ t' = s' := by
    intro t t' y ht ht'
    rw [hplain] at ht
    rw [hdisturbed] at ht'
    cases ht
    cases ht'
    exact ⟨rfl, rfl⟩
  constructor
  · rw [← hring]
    constructor
    · rintro ⟨t, t', y, ht, ht', hparser, -⟩
      obtain ⟨rfl, rfl⟩ := hruns t t' y ht ht'
      exact congrArg Parser.ring hparser.symm
    · intro heq
      have hparser : s'.parser = s.parser := Parser.eq_of_ring heq.symm hchar
      exact ⟨s, s', x, hplain, hdisturbed, hparser, by rw [seekTarget, hparser]; rfl⟩
  · constructor
    · rintro ⟨t, t', y, ht, ht', heq⟩
      obtain ⟨rfl, rfl⟩ := hruns t t' y ht ht'
      omega
    · intro hzero
      exact ⟨s, s', x, hplain, hdisturbed, by rw [hoffset, hzero, Nat.cast_zero, sub_zero]⟩

/-- An interrupted read in the middle of a line does no harm to the result. -/
theorem interrupted_in_line :
    SameResult 1 [some (.bytes [97, 10, 98]), none, some (.bytes [99]), some (.bytes [])] :=
  (interrupted_iff (by decide) _).1.mpr (by decide)

/-- The run for `tail -n 1` that is interrupted just before the last line. -/
def interruptedRun : Marked := [some (.bytes [97, 10]), none, some (.bytes [98]), some (.bytes [])]

/-- The last line is at 2, and `tail` seeks to 1. -/
theorem interrupted_before_line :
    (readLoop 1 (plain interruptedRun) (start 1)).map (fun r => seekTarget r.1) = some (some (some 2))
      ∧ (readLoop 1 (disturbed interruptedRun) (start 1)).map (fun r => seekTarget r.1)
        = some (some (some 1))
      ∧ ¬ SameResult 1 interruptedRun := by
  have hplain : (readLoop 1 (plain interruptedRun) (start 1)).map (fun r => seekTarget r.1)
      = some (some (some 2)) := by decide
  have hdisturbed : (readLoop 1 (disturbed interruptedRun) (start 1)).map (fun r => seekTarget r.1)
      = some (some (some 1)) := by decide
  refine ⟨hplain, hdisturbed, ?_⟩
  rintro ⟨s, s', x, hs, hs', -, htarget⟩
  rw [hs] at hplain
  rw [hs'] at hdisturbed
  have htarget₁ : seekTarget s = some (some 2) := Option.some.inj hplain
  have htarget₂ : seekTarget s' = some (some 1) := Option.some.inj hdisturbed
  rw [htarget₁, htarget₂] at htarget
  exact absurd htarget (by decide)

end MyTests.Tlpi
