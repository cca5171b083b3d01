/-
MyTests/Tlpi/Tail.lean

`tlpi/tail.c`: where `tail` starts to print.

`main` reads the file once and lets `parse_newline` note where lines start, in a ring
of as many slots as lines are asked for; then it seeks to the oldest start noted.  The
start of a line is noted with its first byte, so `last_char` is carried from one read
to the next.

`readLoop` is the read loop, over the results that `read` gives.  `trace` says what it
notes, without the ring: `readLoop_trace` says that the ring is what the noted starts
leave.

An `int` is an integer here.  The offset is the number of bytes read
(`trace_chunks`), so it stays in range for a file shorter than 2^31 bytes.
-/
import MyTests.Lib.RingBuffer

namespace MyTests.Tlpi

open MyTests.Lib

/-! ### The parser -/

/-- The variables of `main` that `parse_newline` changes.  A slot is `none` as `malloc`
leaves it. -/
structure Parser where
  newlineSeeks : List (Option ℤ)
  newlineFirst : ℕ
  newlineLast : ℕ
  lastChar : UInt8
deriving DecidableEq, Repr

/-- The character `\n`. -/
def newline : UInt8 := 10

/-- The body of the loop; a write outside `newline_seeks` gives no result. -/
def parseChar (lines : ℕ) (offset : ℤ) (s : Parser) (ci : UInt8 × ℕ) : Option Parser :=
  if s.lastChar = newline then
    let newlineLast := (s.newlineLast + 1) % lines
    let newlineFirst :=
      if newlineLast = s.newlineFirst then (s.newlineFirst + 1) % lines else s.newlineFirst
    (store s.newlineSeeks newlineLast (offset + ci.2)).map fun newlineSeeks =>
      ⟨newlineSeeks, newlineFirst, newlineLast, ci.1⟩
  else some { s with lastChar := ci.1 }

/-- `parse_newline`. -/
def parseNewline (lines : ℕ) (buf : List UInt8) (len offset : ℤ) (s : Parser) : Option Parser :=
  (buf.take len.toNat).zipIdx.foldlM (parseChar lines offset) s

/-! ### The read loop -/

/-- `EINTR`. -/
def eintr : ℕ := 4

/-- What a `read` gives: bytes, none of them at the end of the file, or -1 and `errno`. -/
inductive ReadResult
  | bytes (buf : List UInt8)
  | failed (errno : ℕ)
deriving DecidableEq, Repr

namespace ReadResult

def len : ReadResult → ℤ
  | bytes buf => buf.length
  | failed _ => -1

/-- What was read into `buf`. -/
def buf : ReadResult → List UInt8
  | bytes buf => buf
  | failed _ => []

/-- `errno`, which is not looked at when the call succeeds. -/
def errno : ReadResult → ℕ
  | bytes _ => 0
  | failed errno => errno

end ReadResult

/-- How the loop is left; `pending` is in the next `read`. -/
inductive Exit
  | pending
  | eof
  | error
deriving DecidableEq, Repr

structure State where
  parser : Parser
  offset : ℤ
deriving DecidableEq, Repr

/-- `while (1)`, over the results of the reads. -/
def readLoop (lines : ℕ) : List ReadResult → State → Option (State × Exit)
  | [], s => some (s, .pending)
  | r :: rs, s =>
      if r.len = -1 ∧ r.errno ≠ eintr then some (s, .error)
      else if r.len = 0 then some (s, .eof)
      else do
        let parser ← parseNewline lines r.buf r.len s.offset s.parser
        readLoop lines rs ⟨parser, s.offset + r.len⟩

/-- The variables before the loop. -/
def start (lines : ℕ) : State where
  parser := ⟨some 0 :: List.replicate (lines - 1) none, 0, 0, 0⟩
  offset := 0

/-- The offset that `lseek` is given. -/
def seekTarget (s : State) : Option (Option ℤ) := s.parser.newlineSeeks[s.parser.newlineFirst]?

/-! ### What is noted -/

/-- The offsets of the bytes of `buf` that follow a newline, where `c` is the byte before
`buf` and `o` the offset of its first byte. -/
def startsIn (c : UInt8) (o : ℤ) : List UInt8 → List ℤ
  | [] => []
  | b :: buf => if c = newline then o :: startsIn b (o + 1) buf else startsIn b (o + 1) buf

/-- What a run of the read loop comes to. -/
structure Trace where
  starts : List ℤ
  lastChar : UInt8
  offset : ℤ
  exit : Exit

/-- The run from `last_char` and `offset` on. -/
def trace (c : UInt8) (o : ℤ) : List ReadResult → Trace
  | [] => ⟨[], c, o, .pending⟩
  | .bytes [] :: _ => ⟨[], c, o, .eof⟩
  | .bytes (b :: buf) :: rs =>
      let t := trace (buf.getLastD b) (o + (b :: buf).length) rs
      { t with starts := startsIn c o (b :: buf) ++ t.starts }
  | .failed errno :: rs => if errno = eintr then trace c (o - 1) rs else ⟨[], c, o, .error⟩

def Parser.ring (s : Parser) : RingBuffer ℤ := ⟨s.newlineSeeks, s.newlineFirst, s.newlineLast⟩

variable {lines : ℕ} {o : ℤ} {c : UInt8} {h : List ℤ} {s : Parser}

theorem parseChar_spec (hlines : 0 < lines) (hs : RingBuffer.Keeps lines h s.ring) (i : ℕ) :
    ∃ s', parseChar lines o s (c, i) = some s' ∧ s'.lastChar = c
      ∧ RingBuffer.Keeps lines (h ++ if s.lastChar = newline then [o + i] else []) s'.ring := by
  rw [parseChar]
  split
  · -- the byte before was a newline, so a line starts here
    obtain ⟨r, hpush, hkeeps⟩ := hs.push hlines (o + i)
    obtain ⟨slots, hstore, rfl⟩ := Option.map_eq_some_iff.mp hpush
    refine ⟨⟨slots, _, _, c⟩, ?_, rfl, hkeeps⟩
    exact Option.map_eq_some_iff.mpr ⟨slots, hstore, rfl⟩
  · exact ⟨_, rfl, rfl, by rwa [List.append_nil]⟩

theorem foldlM_parseChar (hlines : 0 < lines) (hs : RingBuffer.Keeps lines h s.ring)
    (buf : List UInt8) (k : ℕ) :
    ∃ s', (buf.zipIdx k).foldlM (parseChar lines o) s = some s'
      ∧ s'.lastChar = buf.getLastD s.lastChar
      ∧ RingBuffer.Keeps lines (h ++ startsIn s.lastChar (o + k) buf) s'.ring := by
  induction buf generalizing s h k with
  | nil => exact ⟨s, rfl, rfl, by rwa [startsIn, List.append_nil]⟩
  | cons b buf ih =>
      obtain ⟨s₁, hchar, hlast, hkeeps⟩ := parseChar_spec (o := o) (c := b) hlines hs k
      obtain ⟨s₂, hrest, hlast₂, hkeeps₂⟩ := ih hkeeps (k + 1)
      refine ⟨s₂, ?_, ?_, ?_⟩
      · rw [List.zipIdx_cons, List.foldlM_cons, hchar]
        exact hrest
      · rw [hlast₂, hlast, List.getLastD_cons]
      · rw [List.append_assoc, hlast, Nat.cast_succ, ← add_assoc] at hkeeps₂
        rw [startsIn]
        split
        · next hnl => rwa [if_pos hnl] at hkeeps₂
        · next hnl => rwa [if_neg hnl] at hkeeps₂

theorem parseNewline_spec (hlines : 0 < lines) (hs : RingBuffer.Keeps lines h s.ring)
    (buf : List UInt8) :
    ∃ s', parseNewline lines buf buf.length o s = some s'
      ∧ s'.lastChar = buf.getLastD s.lastChar
      ∧ RingBuffer.Keeps lines (h ++ startsIn s.lastChar o buf) s'.ring := by
  obtain ⟨s', hrun, hs'⟩ := foldlM_parseChar (o := o) hlines hs buf 0
  rw [Nat.cast_zero, add_zero] at hs'
  refine ⟨s', ?_, hs'⟩
  rw [parseNewline, Int.toNat_natCast, List.take_length]
  exact hrun

theorem readLoop_bytes (lines : ℕ) (b : UInt8) (buf : List UInt8) (rs : List ReadResult)
    (s : State) : readLoop lines (.bytes (b :: buf) :: rs) s
      = (parseNewline lines (b :: buf) (b :: buf).length s.offset s.parser).bind fun parser =>
          readLoop lines rs ⟨parser, s.offset + (b :: buf).length⟩ := by
  have hlen : (ReadResult.bytes (b :: buf)).len = buf.length + 1 := Nat.cast_succ _
  rw [readLoop, if_neg (by rw [hlen]; omega), if_neg (by rw [hlen]; omega)]
  rfl

/-- After an interrupted read -1 is added to the offset. -/
theorem readLoop_eintr (lines : ℕ) (rs : List ReadResult) (s : State) :
    readLoop lines (.failed eintr :: rs) s = readLoop lines rs ⟨s.parser, s.offset - 1⟩ := by
  rw [readLoop, if_neg (fun h => h.2 rfl), if_neg (by decide)]
  rfl

theorem readLoop_error (lines : ℕ) {errno : ℕ} (herr : errno ≠ eintr) (rs : List ReadResult)
    (s : State) : readLoop lines (.failed errno :: rs) s = some (s, .error) := by
  rw [readLoop, if_pos ⟨rfl, herr⟩]

/-- **The read loop keeps the newest starts of its trace.** -/
theorem readLoop_trace (hlines : 0 < lines) (rs : List ReadResult) {s : State}
    (hs : RingBuffer.Keeps lines h s.parser.ring) :
    ∃ s', readLoop lines rs s = some (s', (trace s.parser.lastChar s.offset rs).exit)
      ∧ s'.parser.lastChar = (trace s.parser.lastChar s.offset rs).lastChar
      ∧ s'.offset = (trace s.parser.lastChar s.offset rs).offset
      ∧ RingBuffer.Keeps lines (h ++ (trace s.parser.lastChar s.offset rs).starts) s'.parser.ring := by
  -- where the loop is left, nothing more is noted
  have hleft : RingBuffer.Keeps lines (h ++ []) s.parser.ring := by rwa [List.append_nil]
  induction rs generalizing s h with
  | nil => exact ⟨s, rfl, rfl, rfl, hleft⟩
  | cons r rs ih =>
      match r with
      | .bytes [] => exact ⟨s, rfl, rfl, rfl, hleft⟩
      | .bytes (b :: buf) =>
          obtain ⟨p, hparse, hlast, hkeeps⟩ :=
            parseNewline_spec (o := s.offset) hlines hs (b :: buf)
          rw [List.getLastD_cons] at hlast
          have hrest := ih (s := ⟨p, s.offset + (b :: buf).length⟩) hkeeps (by rwa [List.append_nil])
          dsimp only at hrest
          rw [hlast] at hrest
          obtain ⟨s', hloop, hlast', hoffset', hkeeps'⟩ := hrest
          refine ⟨s', ?_, hlast', hoffset', ?_⟩
          · rw [readLoop_bytes, hparse]
            exact hloop
          · rwa [List.append_assoc] at hkeeps'
      | .failed errno =>
          rw [trace]
          by_cases herr : errno = eintr
          · subst herr
            rw [if_pos rfl, readLoop_eintr]
            exact ih (s := ⟨s.parser, s.offset - 1⟩) hs hleft
          · rw [if_neg herr, readLoop_error lines herr]
            exact ⟨s, rfl, rfl, rfl, hleft⟩

theorem keeps_start (hlines : 0 < lines) : RingBuffer.Keeps lines [0] (start lines).parser.ring :=
  RingBuffer.Keeps.singleton hlines 0

/-! ### The lines of a file -/

/-- The offsets at which lines start: a byte starts one when it is the first or follows a
newline. -/
def lineStarts (content : List UInt8) : List ℕ :=
  (List.range content.length).filter fun p => p = 0 ∨ content[p - 1]? = some newline

/-- `startsIn` by positions. -/
theorem startsIn_eq (c : UInt8) (o : ℤ) (buf : List UInt8) : startsIn c o buf
    = ((List.range buf.length).filter fun p => (c :: buf)[p]? = some newline).map fun p => o + (p : ℕ) := by
  induction buf generalizing c o with
  | nil => rfl
  | cons b buf ih =>
      have hshift : ∀ l : List ℕ, (l.map Nat.succ).map (fun p => o + (p : ℕ))
          = l.map fun p => o + 1 + (p : ℕ) := by
        intro l
        rw [List.map_map]
        apply List.map_congr_left
        intro p _
        show o + ((p + 1 : ℕ) : ℤ) = _
        rw [Nat.cast_succ, add_comm (p : ℤ), add_assoc]
      rw [startsIn, ih, List.length_cons, List.range_succ_eq_map, List.filter_cons, List.filter_map,
        List.getElem?_cons_zero, ← hshift]
      -- the byte before the buffer decides about its first one
      by_cases hc : c = newline
      · rw [if_pos hc, if_pos (by rw [hc]; rfl), List.map_cons, Nat.cast_zero, add_zero]
        rfl
      · rw [if_neg hc, if_neg (by simpa using hc)]
        rfl

theorem startsIn_append (c : UInt8) (o : ℤ) (l m : List UInt8) :
    startsIn c o (l ++ m) = startsIn c o l ++ startsIn (l.getLastD c) (o + l.length) m := by
  induction l generalizing c o with
  | nil => simp [startsIn]
  | cons b l ih =>
      rw [List.cons_append, startsIn, startsIn, ih, List.getLastD_cons, List.length_cons, Nat.cast_succ,
        add_assoc o 1, add_comm (1 : ℤ)]
      split <;> rfl

theorem getLastD_append (c : UInt8) (l m : List UInt8) :
    (l ++ m).getLastD c = m.getLastD (l.getLastD c) := by
  induction l generalizing c with
  | nil => rfl
  | cons b l ih => rw [List.cons_append, List.getLastD_cons, List.getLastD_cons, ih]

/-- What is noted and read does not depend on the chunks. -/
theorem trace_chunks (c : UInt8) (o : ℤ) {chunks : List (List UInt8)}
    (hchunks : ∀ buf ∈ chunks, buf ≠ []) :
    trace c o (chunks.map .bytes ++ [.bytes []])
      = ⟨startsIn c o chunks.flatten, chunks.flatten.getLastD c, o + chunks.flatten.length, .eof⟩ := by
  induction chunks generalizing c o with
  | nil => simp [trace, startsIn]
  | cons buf chunks ih =>
      obtain ⟨hbuf, hrest⟩ := List.forall_mem_cons.mp hchunks
      obtain ⟨b, buf, rfl⟩ := List.exists_cons_of_ne_nil hbuf
      show trace c o (.bytes (b :: buf) :: (chunks.map .bytes ++ [.bytes []])) = _
      rw [trace, ih _ _ hrest, List.flatten_cons, startsIn_append, getLastD_append, List.length_append,
        Nat.cast_add, ← add_assoc, List.getLastD_cons]

/-- The starts noted are those of the lines, and 0 to begin with. -/
theorem noted_eq {content : List UInt8} (hne : content ≠ []) :
    0 :: startsIn 0 0 content = (lineStarts content).map fun p : ℕ => (p : ℤ) := by
  obtain ⟨b, buf, rfl⟩ := List.exists_cons_of_ne_nil hne
  -- the first byte starts a line whatever has been before it
  have hfirst : startsIn 0 0 (b :: buf) = startsIn b 1 buf := by
    rw [startsIn, if_neg (by decide)]
    rfl
  rw [hfirst, startsIn_eq, lineStarts, List.length_cons, List.range_succ_eq_map, List.filter_cons,
    if_pos (by simp), List.filter_map, List.map_cons, List.map_map]
  apply congrArg (List.cons 0)
  have hpred : ∀ p, ((fun p => decide (p = 0 ∨ (b :: buf)[p - 1]? = some newline)) ∘ Nat.succ) p
      = decide ((b :: buf)[p]? = some newline) := by
    intro p
    simp
  rw [List.filter_congr fun p _ => hpred p]
  apply List.map_congr_left
  intro p _
  show 1 + (p : ℤ) = ((p + 1 : ℕ) : ℤ)
  rw [Nat.cast_succ, add_comm]

/-- Where the last `lines` lines start; there may be fewer. -/
def lastLines (lines : ℕ) (content : List UInt8) : ℕ :=
  let starts := lineStarts content
  (starts[starts.length - min lines starts.length]?).getD 0

theorem getElem?_lastLines (hlines : 0 < lines) {content : List UInt8} (hne : content ≠ []) :
    (lineStarts content)[(lineStarts content).length - lines]? = some (lastLines lines content) := by
  have hpos : 0 < (lineStarts content).length := by
    rw [← List.length_map (fun p : ℕ => (p : ℤ)), ← noted_eq hne]
    exact Nat.succ_pos _
  have hmin : (lineStarts content).length - min lines (lineStarts content).length
      = (lineStarts content).length - lines := by omega
  rw [lastLines, hmin, List.getElem?_eq_getElem (Nat.sub_lt hpos hlines)]
  rfl

/-- **`tail` finds the last lines, whatever the chunks.**  The read loop makes no access
outside the ring, and leaves the cursor of the oldest start at the start of the last
`lines` lines. -/
theorem readLoop_finds (hlines : 0 < lines) {chunks : List (List UInt8)}
    (hchunks : ∀ buf ∈ chunks, buf ≠ []) :
    ∃ s, readLoop lines (chunks.map .bytes ++ [.bytes []]) (start lines) = some (s, .eof)
      ∧ s.offset = chunks.flatten.length
      ∧ s.parser.newlineSeeks.length = lines ∧ s.parser.newlineFirst < lines
      ∧ seekTarget s = some (some (lastLines lines chunks.flatten : ℤ)) := by
  obtain ⟨s, hloop, -, hoffset, hkeeps⟩ :=
    readLoop_trace hlines (chunks.map .bytes ++ [.bytes []]) (keeps_start hlines)
  rw [trace_chunks _ _ hchunks] at hloop hoffset hkeeps
  refine ⟨s, hloop, ?_, hkeeps.length, hkeeps.first_lt hlines, ?_⟩
  · rw [hoffset]
    exact zero_add _
  · have hfirst := hkeeps.getElem?_first hlines
    show s.parser.newlineSeeks[s.parser.newlineFirst]? = _
    refine hfirst.trans (congrArg some ?_)
    show (0 :: startsIn 0 0 chunks.flatten)[(0 :: startsIn 0 0 chunks.flatten).length - lines]? = _
    -- an empty file has no line, and the ring holds the 0 it began with
    rcases eq_or_ne chunks.flatten [] with hnil | hne
    · rw [hnil]
      show [(0 : ℤ)][1 - lines]? = some 0
      rw [Nat.sub_eq_zero_of_le hlines]
      rfl
    · rw [noted_eq hne, List.length_map, List.getElem?_map, getElem?_lastLines hlines hne]
      rfl

/-- The last two lines of three, with a newline at the end of a chunk. -/
theorem readLoop_finds_two :
    ∃ s, readLoop 2 [.bytes [97, 10], .bytes [98, 10, 99], .bytes []] (start 2) = some (s, .eof)
      ∧ s.offset = 5 ∧ s.parser.newlineSeeks.length = 2 ∧ s.parser.newlineFirst < 2
      ∧ seekTarget s = some (some 2) :=
  @readLoop_finds 2 (by decide) [[97, 10], [98, 10, 99]] (by decide)

end MyTests.Tlpi
