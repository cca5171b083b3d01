/-
MyTests/L1iMiss/Lfu.lean

`src/mysql/l1i-miss/l1i-miss.py`: the policies LFU and LFUDA.

Each function ends a reference in one of the three ways of `Served`, and evicts from a
full set only.  Both look for the smallest of four numbers.  LFU starts at way 0 and
keeps the first of those that tie; LFUDA starts anywhere, so of those that tie it may
keep any, but no way is cheaper than the one it keeps.
-/
import MyTests.Lib.Best
import MyTests.L1iMiss.Books

namespace MyTests.L1iMiss

open MyTests.Lib

/-! ### `insert_cl_lfu` -/

/-- `insert_cl_lfu`, after `int(addr, 16)`. -/
def insertClLfu (s : Sim) (addr : ℕ) : Sim :=
  let addr := lineOf addr
  let index := clIndex addr
  let clSet := s.clSets index
  let lfu := s.lfuList index
  match findWay clSet addr with
  | some i => { s with lfuList := Function.update s.lfuList index (Function.update lfu i (lfu i + 1)) }
  | none =>
      match findWay clSet 0 with
      | some i =>
          { s with
            missCount := s.missCount + 1
            clSets := Function.update s.clSets index (Function.update clSet i addr)
            lfuList := Function.update s.lfuList index (Function.update lfu i 1) }
      | none =>
          -- `for i in range(1, WAY)`
          let idx := (List.finRange way).tail.foldl (keep fun i idx => lfu i < lfu idx) 0
          { s with
            missCount := s.missCount + 1
            clSets := Function.update s.clSets index (Function.update clSet idx addr)
            lfuList := Function.update s.lfuList index (Function.update lfu idx 1) }

/-! ### `insert_cl_lfuda` -/

def getCost (cnt age : ℕ) : ℤ := 3 * cnt - age

/-- `insert_cl_lfuda`, after `int(addr, 16)`; `start` is what `random.randint` returns. -/
def insertClLfuda (s : Sim) (addr : ℕ) (start : Fin way) : Sim :=
  let addr := lineOf addr
  let index := clIndex addr
  let clSet := s.clSets index
  let lfu := s.lfuList index
  let lfuAge := s.lfuAgeList index
  match findWay clSet addr with
  | some i =>
      { s with
        lfuList := Function.update s.lfuList index (Function.update lfu i (lfu i + 1))
        lfuAgeList := Function.update s.lfuAgeList index (Function.update lfuAge i 0) }
  | none =>
      match findWay clSet 0 with
      | some i =>
          { s with
            missCount := s.missCount + 1
            clSets := Function.update s.clSets index (Function.update clSet i addr)
            lfuList := Function.update s.lfuList index (Function.update lfu i 1)
            lfuAgeList := Function.update s.lfuAgeList index (Function.update lfuAge i 0) }
      | none =>
          let cost := fun i => getCost (lfu i) (lfuAge i)
          let lfuAge := fun i => lfuAge i + 1
          -- find smallest cost
          let idx := (List.finRange way).foldl (keep fun i idx => cost i < cost idx) start
          { s with
            missCount := s.missCount + 1
            clSets := Function.update s.clSets index (Function.update clSet idx addr)
            lfuList := Function.update s.lfuList index (Function.update lfu idx 1)
            lfuAgeList := Function.update s.lfuAgeList index (Function.update lfuAge idx 0) }

/-! ### The smallest -/

section Smallest

variable {κ : Type*} [LinearOrder κ] (cost : Fin way → κ)

theorem lt_asymm_cost (i j : Fin way) (h : cost i < cost j) : ¬ cost j < cost i := h.asymm

theorem lt_neg_cost (i j k : Fin way) (h : cost i < cost k) : cost i < cost j ∨ cost j < cost k := by
  rcases lt_or_ge (cost i) (cost j) with hij | hji
  · exact .inl hij
  · exact .inr (hji.trans_lt h)

/-- A scan of all ways finds the smallest, wherever it starts. -/
theorem scan_le (start j : Fin way) :
    cost ((List.finRange way).foldl (keep fun i idx => cost i < cost idx) start) ≤ cost j :=
  not_lt.mp (not_better_foldl_keep _ (lt_asymm_cost cost) (lt_neg_cost cost)
    (List.mem_cons_of_mem start (List.mem_finRange j)))

/-- A scan from way 0 finds the first of the smallest. -/
theorem scan_first (j : Fin way)
    (hj : j < (List.finRange way).tail.foldl (keep fun i idx => cost i < cost idx) 0) :
    cost ((List.finRange way).tail.foldl (keep fun i idx => cost i < cost idx) 0) < cost j := by
  obtain ⟨pre, post, hsplit, hworse⟩ := foldl_keep_first (fun i idx => cost i < cost idx)
    (lt_asymm_cost cost) (lt_neg_cost cost) (List.finRange way).tail 0
  apply hworse
  have hall : pre ++ (List.finRange way).tail.foldl (keep fun i idx => cost i < cost idx) 0 :: post
      = List.finRange way := hsplit.symm
  have hmem : j ∈ List.finRange way := List.mem_finRange j
  have hsorted := List.pairwise_lt_finRange way
  rw [← hall] at hmem hsorted
  rcases List.mem_append.mp hmem with hpre | hrest
  · exact hpre
  · -- from the result on, the ways are not before it
    have htail := (List.pairwise_cons.mp (List.pairwise_append.mp hsorted).2.1).1
    rcases List.mem_cons.mp hrest with heq | hpost
    · exact absurd hj heq.not_lt
    · exact absurd hj (htail j hpost).asymm

theorem scan_first_le (j : Fin way) :
    cost ((List.finRange way).tail.foldl (keep fun i idx => cost i < cost idx) 0) ≤ cost j :=
  not_lt.mp (not_better_foldl_keep _ (lt_asymm_cost cost) (lt_neg_cost cost)
    (List.mem_finRange j))

end Smallest

/-! ### One reference -/

/-- Way `i` has the smallest counter of its set, and is the first of those that have. -/
def LeastCounter (s : Sim) (index : Fin numSets) (i : Fin way) : Prop :=
  (∀ j, s.lfuList index i ≤ s.lfuList index j) ∧ ∀ j < i, s.lfuList index i < s.lfuList index j

/-- Way `i` has the smallest cost of its set. -/
def LeastCost (s : Sim) (index : Fin numSets) (i : Fin way) : Prop :=
  ∀ j, getCost (s.lfuList index i) (s.lfuAgeList index i)
    ≤ getCost (s.lfuList index j) (s.lfuAgeList index j)

/-- Writing a line where it is changes nothing. -/
theorem update_line {tables : Fin numSets → Ways} {index : Fin numSets} {i : Fin way} {line : ℕ}
    (h : tables index i = line) :
    Function.update tables index (Function.update (tables index) i line) = tables := by
  subst h
  rw [Function.update_eq_self, Function.update_eq_self]

/-- **How LFU ends a reference.** -/
theorem insertClLfu_served (s : Sim) (addr : ℕ) :
    ∃ kind i, Served kind s (insertClLfu s addr) (lineOf addr) i
      ∧ (kind = .evict → LeastCounter s (clIndex (lineOf addr)) i) := by
  cases hfind : findWay (s.clSets (clIndex (lineOf addr))) (lineOf addr) with
  | some i =>
      have hi := (findWay_eq_some hfind).1
      refine ⟨.hit, i, ⟨hi, ?_, ?_, ?_⟩, fun h => absurd h (by decide)⟩
      · rw [update_line hi]
        simp only [insertClLfu, hfind]
      · simp only [insertClLfu, hfind, if_pos]
      · simp only [insertClLfu, hfind, if_pos, Nat.add_zero]
  | none =>
      have habsent := findWay_eq_none hfind
      cases hfree : findWay (s.clSets (clIndex (lineOf addr))) 0 with
      | some i =>
          have hi := (findWay_eq_some hfree).1
          refine ⟨.fill, i, ⟨⟨habsent, hi⟩, ?_, ?_, ?_⟩, fun h => absurd h (by decide)⟩ <;>
            simp only [insertClLfu, hfind, hfree, reduceCtorEq, if_false]
      | none =>
          -- neither the line nor a free way: the scan finds the one to evict
          have hfull := findWay_eq_none hfree
          refine ⟨.evict, _, ⟨⟨habsent, hfull⟩, ?_, ?_, ?_⟩, fun _ =>
            ⟨scan_first_le (s.lfuList (clIndex (lineOf addr))),
              scan_first (s.lfuList (clIndex (lineOf addr)))⟩⟩ <;>
            simp only [insertClLfu, hfind, hfree, reduceCtorEq, if_false]

/-- **How LFUDA ends a reference**, wherever the search for the smallest cost starts. -/
theorem insertClLfuda_served (s : Sim) (addr : ℕ) (start : Fin way) :
    ∃ kind i, Served kind s (insertClLfuda s addr start) (lineOf addr) i
      ∧ (insertClLfuda s addr start).lfuAgeList
        = Function.update s.lfuAgeList (clIndex (lineOf addr))
            (kind.ages (s.lfuAgeList (clIndex (lineOf addr))) i)
      ∧ (kind = .evict → LeastCost s (clIndex (lineOf addr)) i) := by
  cases hfind : findWay (s.clSets (clIndex (lineOf addr))) (lineOf addr) with
  | some i =>
      have hi := (findWay_eq_some hfind).1
      refine ⟨.hit, i, ⟨hi, ?_, ?_, ?_⟩, ?_, fun h => absurd h (by decide)⟩
      · rw [update_line hi]
        simp only [insertClLfuda, hfind]
      · simp only [insertClLfuda, hfind, if_pos]
      · simp only [insertClLfuda, hfind, if_pos, Nat.add_zero]
      · simp only [insertClLfuda, hfind, Kind.ages]
  | none =>
      have habsent := findWay_eq_none hfind
      cases hfree : findWay (s.clSets (clIndex (lineOf addr))) 0 with
      | some i =>
          have hi := (findWay_eq_some hfree).1
          refine ⟨.fill, i, ⟨⟨habsent, hi⟩, ?_, ?_, ?_⟩, ?_, fun h => absurd h (by decide)⟩ <;>
            simp only [insertClLfuda, hfind, hfree, Kind.ages, reduceCtorEq, if_false]
      | none =>
          -- the scan starts anywhere, and goes round the ways
          have hfull := findWay_eq_none hfree
          refine ⟨.evict, _, ⟨⟨habsent, hfull⟩, ?_, ?_, ?_⟩, ?_, fun _ =>
            scan_le (fun i => getCost (s.lfuList (clIndex (lineOf addr)) i)
              (s.lfuAgeList (clIndex (lineOf addr)) i)) start⟩ <;>
            simp only [insertClLfuda, hfind, hfree, Kind.ages, reduceCtorEq, if_false]

/-! ### A trace -/

/-- The cache after a trace under LFU, and the references as observed. -/
def runLfu (trace : List ℕ) : Sim × List Access :=
  trace.foldl (fun p addr => (insertClLfu p.1 addr, p.2 ++ [observe p.1 (insertClLfu p.1 addr) addr]))
    (init, [])

/-- The cache after a trace under LFUDA, with the start of each search, and the references as
observed. -/
def runLfuda (trace : List (ℕ × Fin way)) : Sim × List Access :=
  trace.foldl (fun p r =>
    (insertClLfuda p.1 r.1 r.2, p.2 ++ [observe p.1 (insertClLfuda p.1 r.1 r.2) r.1])) (init, [])

/-- **LFU keeps its books**, over every trace. -/
theorem books_runLfu {trace : List ℕ} (h : ∀ addr ∈ trace, lineOf addr ≠ 0) :
    Books (runLfu trace).2 (runLfu trace).1 := by
  induction trace using List.reverseRecOn with
  | nil => exact Books.init
  | append_singleton trace addr ih =>
      have hbooks := ih fun other hmem => h other (List.mem_append_left _ hmem)
      obtain ⟨kind, i, hserved, -⟩ := insertClLfu_served (runLfu trace).1 addr
      have hstep := hbooks.step (h addr (by simp)) hserved
      rw [runLfu, List.foldl_append]
      exact hstep

/-- **LFUDA keeps its books and its ages**, over every trace and all random choices. -/
theorem books_runLfuda {trace : List (ℕ × Fin way)} (h : ∀ r ∈ trace, lineOf r.1 ≠ 0) :
    Books (runLfuda trace).2 (runLfuda trace).1 ∧ Aged (runLfuda trace).2 (runLfuda trace).1 := by
  induction trace using List.reverseRecOn with
  | nil => exact ⟨Books.init, Aged.init⟩
  | append_singleton trace r ih =>
      obtain ⟨hbooks, haged⟩ := ih fun other hmem => h other (List.mem_append_left _ hmem)
      obtain ⟨kind, i, hserved, hages, -⟩ := insertClLfuda_served (runLfuda trace).1 r.1 r.2
      have hline := h r (by simp)
      have hstep := hbooks.step hline hserved
      have hstep' := haged.step hbooks hline hserved hages
      rw [runLfuda, List.foldl_append]
      exact ⟨hstep, hstep'⟩

/-- **The books of LFU and LFUDA.**  After every trace the tables of either say what they should.
The next reference, whatever it is, ends with its line in its set, and a way loses its line only
when its set is full and it has the smallest counter, or the smallest cost. -/
theorem lfu_lfuda_books :
    (∀ trace addr, (∀ a ∈ trace, lineOf a ≠ 0) → lineOf addr ≠ 0 →
      Books (runLfu trace).2 (runLfu trace).1
      ∧ (∃ i, (insertClLfu (runLfu trace).1 addr).clSets (clIndex (lineOf addr)) i = lineOf addr)
      ∧ ∀ index i, LosesLine (runLfu trace).1 (insertClLfu (runLfu trace).1 addr) index i →
          (∀ j, (runLfu trace).1.clSets index j ≠ 0) ∧ LeastCounter (runLfu trace).1 index i)
    ∧ ∀ trace addr start, (∀ r ∈ trace, lineOf r.1 ≠ 0) → lineOf addr ≠ 0 →
      Books (runLfuda trace).2 (runLfuda trace).1 ∧ Aged (runLfuda trace).2 (runLfuda trace).1
      ∧ (∃ i, (insertClLfuda (runLfuda trace).1 addr start).clSets (clIndex (lineOf addr)) i
          = lineOf addr)
      ∧ ∀ index i,
          LosesLine (runLfuda trace).1 (insertClLfuda (runLfuda trace).1 addr start) index i →
          (∀ j, (runLfuda trace).1.clSets index j ≠ 0) ∧ LeastCost (runLfuda trace).1 index i := by
  constructor
  · intro trace addr h _
    obtain ⟨kind, i', hserved, hleast⟩ := insertClLfu_served (runLfu trace).1 addr
    refine ⟨books_runLfu h, ⟨i', hserved.clSets_self⟩, fun index i hloses => ?_⟩
    obtain ⟨rfl, rfl, rfl⟩ := hserved.of_losesLine hloses
    exact ⟨hserved.before.2, hleast rfl⟩
  · intro trace addr start h _
    obtain ⟨kind, i', hserved, -, hleast⟩ :=
      insertClLfuda_served (runLfuda trace).1 addr start
    refine ⟨(books_runLfuda h).1, (books_runLfuda h).2, ⟨i', hserved.clSets_self⟩,
      fun index i hloses => ?_⟩
    obtain ⟨rfl, rfl, rfl⟩ := hserved.of_losesLine hloses
    exact ⟨hserved.before.2, hleast rfl⟩

/-- A sixth line for the set. -/
theorem lfu_lfuda_books_sample :
    (Books (runLfu sampleTrace).2 (runLfu sampleTrace).1
      ∧ (∃ i, (insertClLfu (runLfu sampleTrace).1 0x18040).clSets (clIndex (lineOf 0x18040)) i
          = lineOf 0x18040)
      ∧ ∀ index i,
          LosesLine (runLfu sampleTrace).1 (insertClLfu (runLfu sampleTrace).1 0x18040) index i →
          (∀ j, (runLfu sampleTrace).1.clSets index j ≠ 0)
            ∧ LeastCounter (runLfu sampleTrace).1 index i)
    ∧ Books (runLfuda (sampleTrace.map fun a => (a, 2))).2
        (runLfuda (sampleTrace.map fun a => (a, 2))).1 :=
  have hline : lineOf 0x18040 ≠ 0 := fun hzero =>
    absurd ((lineOf_eq_zero_iff 0x18040).mp hzero) (by decide)
  have hstarts : ∀ r ∈ sampleTrace.map fun a => (a, (2 : Fin way)), lineOf r.1 ≠ 0 := by
    intro r hr
    obtain ⟨a, ha, rfl⟩ := List.mem_map.mp hr
    exact sampleTrace_ne_zero a ha
  ⟨lfu_lfuda_books.1 sampleTrace 0x18040 sampleTrace_ne_zero hline,
    (lfu_lfuda_books.2 (sampleTrace.map fun a => (a, 2)) 0x18040 1 hstarts hline).1⟩

end MyTests.L1iMiss
