/-
MyTests/L1iMiss/Lru.lean

`src/mysql/l1i-miss/l1i-miss.py`: the policy LRU, which the program uses, and `parse`.

The two shifting loops of `insert_cl_lru` do one thing: the line is taken out of its
set, where it may not have been, and put in front (`ofFn_insertSet`).  So each set holds
the most recent of its lines, after every trace (`insertClLru_foldl`), and a
reference misses exactly when its line is not among them.
-/
import MyTests.Lib.Recency
import MyTests.L1iMiss.Cache

namespace MyTests.L1iMiss

open MyTests.Lib

/-! ### `insert_cl_lru` -/

/-- `for j in range(n - 1, -1, -1): cl_set[j + 1] = cl_set[j]`. -/
def shiftLoop : (n : ℕ) → n < way → Ways → Ways
  | 0, _, clSet => clSet
  | n + 1, hn, clSet =>
      shiftLoop n (Nat.lt_of_succ_lt hn)
        (Function.update clSet ⟨n + 1, hn⟩ (clSet ⟨n, Nat.lt_of_succ_lt hn⟩))

/-- `insert_cl_lru`, after `int(addr, 16)`. -/
def insertClLru (s : Sim) (addr : ℕ) : Sim :=
  let addr := lineOf addr
  let index := clIndex addr
  let clSet := s.clSets index
  match findWay clSet addr with
  | some i =>
      -- move to head
      let clSet := shiftLoop i i.isLt clSet
      { s with clSets := Function.update s.clSets index (Function.update clSet 0 addr) }
  | none =>
      let clSet := shiftLoop (way - 1) (by decide) clSet
      { s with
        missCount := s.missCount + 1
        clSets := Function.update s.clSets index (Function.update clSet 0 addr) }

/-! ### `parse` -/

/-- A character of `[0-9a-f]`. -/
def isHexDigit (c : Char) : Bool := ('0' ≤ c && c ≤ '9') || ('a' ≤ c && c ≤ 'f')

/-- `addr_regex.match(addr)`. -/
def addrRegexMatch (addr : List Char) : Bool :=
  8 ≤ addr.length && addr.length ≤ 16 && addr.all isHexDigit

def digitValue (c : Char) : ℕ := if c ≤ '9' then c.toNat - '0'.toNat else c.toNat - 'a'.toNat + 10

/-- `int(addr, 16)`, of an address that matches. -/
def hexValue (addr : List Char) : ℕ := addr.foldl (fun n c => 16 * n + digitValue c) 0

/-- `parse`, from the sixth word of the line on. -/
def parse (s : Sim) (addr : List Char) : Except String Sim :=
  if !addrRegexMatch addr then .error ("invalud addr: " ++ String.ofList addr)
  else .ok (insertClLru { s with refCount := s.refCount + 1 } (hexValue addr))

/-! ### One reference -/

variable {s : Sim} {index : Fin numSets} {clSet : Ways}

/-- The ways up to `n` get what their predecessors had. -/
theorem shiftLoop_apply : ∀ (n : ℕ) (hn : n < way) (clSet : Ways) (j : Fin way),
    shiftLoop n hn clSet j
      = if 1 ≤ j.val ∧ j.val ≤ n then clSet ⟨j - 1, by omega⟩ else clSet j := by
  intro n
  induction n with
  | zero =>
      intro hn clSet j
      rw [shiftLoop, if_neg (by omega)]
  | succ n ih =>
      intro hn clSet j
      rw [shiftLoop, ih]
      -- the round writes way `n + 1`, the rounds after it those in front
      by_cases hj : j.val = n + 1
      · obtain rfl : j = ⟨n + 1, hn⟩ := Fin.ext hj
        rw [if_neg (by simp), if_pos (by simp), Function.update_self]
        rfl
      · have hne : j ≠ ⟨n + 1, hn⟩ := fun h => hj (congrArg Fin.val h)
        by_cases hin : 1 ≤ j.val ∧ j.val ≤ n
        · have hne' : (⟨j - 1, by omega⟩ : Fin way) ≠ ⟨n + 1, hn⟩ := by
            intro h
            have hval := congrArg Fin.val h
            simp only at hval
            omega
          rw [if_pos hin, if_pos (by omega), Function.update_of_ne hne']
        · rw [if_neg hin, if_neg (by omega), Function.update_of_ne hne]

/-- The shift up to way `n` drops the line of this way, and leaves the first free. -/
theorem ofFn_shift (n : ℕ) (hn : n < way) (clSet : Ways) (addr : ℕ) :
    List.ofFn (Function.update (shiftLoop n hn clSet) 0 addr)
      = addr :: (List.ofFn clSet).eraseIdx n := by
  apply List.ext_getElem
  · rw [List.length_ofFn, List.length_cons, List.length_eraseIdx_of_lt (by simpa using hn),
      List.length_ofFn]
    rfl
  · intro j hj hj'
    rw [List.length_ofFn] at hj
    rw [List.getElem_ofFn]
    cases j with
    | zero => exact Function.update_self _ _ _
    | succ j =>
        have hne : (⟨j + 1, hj⟩ : Fin way) ≠ 0 :=
          fun h => absurd (congrArg Fin.val h) (Nat.succ_ne_zero j)
        rw [Function.update_of_ne hne, shiftLoop_apply, List.getElem_cons_succ,
          List.getElem_eraseIdx]
        by_cases hjn : j < n
        · rw [if_pos (show 1 ≤ j + 1 ∧ j + 1 ≤ n by omega), dif_pos hjn, List.getElem_ofFn]
          rfl
        · rw [if_neg (show ¬ (1 ≤ j + 1 ∧ j + 1 ≤ n) by omega), dif_neg hjn, List.getElem_ofFn]

/-- The first way of a line is its place in the list of the ways. -/
theorem idxOf_ofFn {addr : ℕ} {i : Fin way} (h : findWay clSet addr = some i) :
    (List.ofFn clSet).idxOf addr = i := by
  obtain ⟨hi, hbefore⟩ := findWay_eq_some h
  have hlt : i.val < (List.ofFn clSet).length := by
    rw [List.length_ofFn]
    exact i.isLt
  rw [List.idxOf, List.findIdx_eq hlt]
  constructor
  · simpa using hi
  · intro j hj
    have hne := hbefore ⟨j, hj.trans i.isLt⟩ hj
    simpa using hne

/-- **What the two loops do.** -/
theorem ofFn_insertSet (s : Sim) (addr : ℕ) :
    List.ofFn ((insertClLru s addr).clSets (clIndex (lineOf addr)))
      = (lineOf addr :: (List.ofFn (s.clSets (clIndex (lineOf addr)))).erase (lineOf addr)).take
          way := by
  generalize hset : s.clSets (clIndex (lineOf addr)) = clSet
  have hlen : (List.ofFn clSet).length = way := List.length_ofFn
  cases hfind : findWay clSet (lineOf addr) with
  | some i =>
      have hlt : i.val < (List.ofFn clSet).length := hlen.symm ▸ i.isLt
      rw [List.erase_eq_eraseIdx_of_idxOf (idxOf_ofFn hfind), List.take_of_length_le]
      · simp only [insertClLru, hset, hfind, Function.update_self, ofFn_shift]
      · rw [List.length_cons, List.length_eraseIdx_of_lt hlt, hlen]
        decide
  | none =>
      have hdrop : (List.ofFn clSet).eraseIdx (way - 1) = (List.ofFn clSet).take (way - 1) := by
        rw [List.eraseIdx_eq_take_drop_succ, List.drop_of_length_le (by rw [hlen]; decide),
          List.append_nil]
      rw [List.erase_of_not_mem (notMem_ofFn_of_findWay hfind)]
      simp only [insertClLru, hset, hfind, Function.update_self, ofFn_shift, hdrop]
      rfl

theorem clSets_insertClLru_of_ne {addr : ℕ} (h : index ≠ clIndex (lineOf addr)) :
    (insertClLru s addr).clSets index = s.clSets index := by
  simp only [insertClLru]
  cases findWay (s.clSets (clIndex (lineOf addr))) (lineOf addr) with
  | some i => exact Function.update_of_ne h _ _
  | none => exact Function.update_of_ne h _ _

theorem missCount_insertClLru (s : Sim) (addr : ℕ) :
    (insertClLru s addr).missCount = s.missCount
      + if lineOf addr ∈ List.ofFn (s.clSets (clIndex (lineOf addr))) then 0 else 1 := by
  simp only [insertClLru]
  cases hfind : findWay (s.clSets (clIndex (lineOf addr))) (lineOf addr) with
  | some i =>
      rw [if_pos (mem_ofFn_of_findWay hfind)]
      rfl
  | none => rw [if_neg (notMem_ofFn_of_findWay hfind)]

/-! ### A trace -/

/-- The cache after a trace. -/
def lru (trace : List ℕ) : Sim := trace.foldl insertClLru init

/-- The distinct lines of the trace that map to a set, most recent first. -/
def recentLines (trace : List ℕ) (index : Fin numSets) : List ℕ :=
  ((trace.map lineOf).filter fun line => clIndex line = index).reverse.eraseDups

/-- Whether the line of reference `n` is not among the most recent of its set at this point. -/
def refMisses (trace : List ℕ) (n : ℕ) : Bool :=
  match (trace)[n]? with
  | none => false
  | some addr =>
      lineOf addr ∉ (recentLines (trace.take n) (clIndex (lineOf addr))).take way

variable {trace : List ℕ} {addr : ℕ}

theorem recentLines_concat (trace : List ℕ) (addr : ℕ) (index : Fin numSets) :
    recentLines (trace ++ [addr]) index
      = if clIndex (lineOf addr) = index
        then lineOf addr :: (recentLines trace index).erase (lineOf addr)
        else recentLines trace index := by
  rw [recentLines, List.map_append, List.filter_append, List.reverse_append]
  by_cases h : clIndex (lineOf addr) = index
  · rw [if_pos h, List.map_singleton, List.filter_singleton, decide_eq_true h]
    exact eraseDups_cons_erase _ _
  · rw [if_neg h, List.map_singleton, List.filter_singleton, decide_eq_false h]
    rfl

/-- **One reference** keeps the most recent lines in every set. -/
theorem ofFn_insertClLru (hline : lineOf addr ≠ 0)
    (h : ∀ index, List.ofFn (s.clSets index) = mostRecent way 0 (recentLines trace index))
    (index : Fin numSets) : List.ofFn ((insertClLru s addr).clSets index)
      = mostRecent way 0 (recentLines (trace ++ [addr]) index) := by
  rw [recentLines_concat]
  by_cases hindex : clIndex (lineOf addr) = index
  · subst hindex
    rw [ofFn_insertSet, h, mostRecent_cons hline, if_pos rfl]
  · rw [clSets_insertClLru_of_ne (Ne.symm hindex), h, if_neg hindex]

/-- **Every set holds the most recent of its lines**, after every trace. -/
theorem ofFn_lru (h : ∀ addr ∈ trace, lineOf addr ≠ 0) (index : Fin numSets) :
    List.ofFn ((lru trace).clSets index) = mostRecent way 0 (recentLines trace index) := by
  induction trace using List.reverseRecOn generalizing index with
  | nil => rfl
  | append_singleton trace addr ih =>
      have hinit := ih fun other hmem => h other (List.mem_append_left _ hmem)
      rw [lru, List.foldl_append]
      exact ofFn_insertClLru (h addr (by simp)) hinit index

theorem refMisses_append_of_lt {n : ℕ} (hn : n < trace.length) :
    refMisses (trace ++ [addr]) n = refMisses trace n := by
  rw [refMisses, refMisses, List.getElem?_append_left hn, List.take_append_of_le_length hn.le]

theorem missCount_lru (h : ∀ addr ∈ trace, lineOf addr ≠ 0) :
    (lru trace).missCount = (List.range trace.length).countP (refMisses trace) := by
  induction trace using List.reverseRecOn with
  | nil => rfl
  | append_singleton trace addr ih =>
      have hinit : ∀ other ∈ trace, lineOf other ≠ 0 :=
        fun other hmem => h other (List.mem_append_left _ hmem)
      have hbefore : (List.range trace.length).countP (refMisses (trace ++ [addr]))
          = (List.range trace.length).countP (refMisses trace) := by
        apply List.countP_congr
        intro n hn
        rw [refMisses_append_of_lt (List.mem_range.mp hn)]
      have hlast : refMisses (trace ++ [addr]) trace.length
          = decide (lineOf addr ∉ (recentLines trace (clIndex (lineOf addr))).take way) := by
        rw [refMisses, List.getElem?_concat_length, List.take_left]
      rw [lru, List.foldl_append, List.length_append, List.length_singleton, List.range_succ,
        List.countP_append, List.countP_singleton, hbefore, hlast, ← ih hinit]
      show (insertClLru (lru trace) addr).missCount = _
      rw [missCount_insertClLru, ofFn_lru hinit]
      simp only [mem_mostRecent (h addr (by simp)), decide_not, Bool.not_eq_true',
        decide_eq_false_iff_not, ite_not]

/-- **The policy is LRU.**  Each set holds the last distinct lines of the trace that map to it,
most recent first, and then unused ways; the misses counted are the references to a line that is
not among the most recent of its set. -/
theorem lru_correct (trace : List ℕ) (h : ∀ addr ∈ trace, lineOf addr ≠ 0) :
    (∀ index, List.ofFn ((lru trace).clSets index)
      = (recentLines trace index).take way
        ++ List.replicate (way - (recentLines trace index).length) 0)
    ∧ (lru trace).missCount = (List.range trace.length).countP (refMisses trace) :=
  ⟨ofFn_lru h, missCount_lru h⟩

theorem lru_correct_sample :
    (∀ index, List.ofFn ((lru sampleTrace).clSets index)
      = (recentLines sampleTrace index).take way
        ++ List.replicate (way - (recentLines sampleTrace index).length) 0)
    ∧ (lru sampleTrace).missCount
      = (List.range sampleTrace.length).countP (refMisses sampleTrace) :=
  lru_correct sampleTrace sampleTrace_ne_zero

/-! ### The input -/

theorem insertClLru_refCount (s : Sim) (n addr : ℕ) :
    insertClLru { s with refCount := n } addr = { insertClLru s addr with refCount := n } := by
  simp only [insertClLru]
  cases findWay (s.clSets (clIndex (lineOf addr))) (lineOf addr) with
  | some i => rfl
  | none => rfl

/-- **The program runs the policy on its input**, and counts the references, unless a word is no
address. -/
theorem parse_foldlM (words : List (List Char)) (h : ∀ word ∈ words, addrRegexMatch word) :
    words.foldlM parse init
      = .ok { lru (words.map hexValue) with refCount := words.length } := by
  induction words using List.reverseRecOn with
  | nil => rfl
  | append_singleton words word ih =>
      rw [List.foldlM_append, ih fun other hmem => h other (List.mem_append_left _ hmem)]
      show (List.foldlM parse _ [word] : Except String Sim) = _
      rw [List.foldlM_cons, parse, h word (by simp)]
      show Except.ok (insertClLru { lru (words.map hexValue) with refCount := words.length + 1 }
        (hexValue word)) = _
      rw [insertClLru_refCount, lru, lru, List.map_append, List.foldl_append, List.length_append]
      rfl

end MyTests.L1iMiss
