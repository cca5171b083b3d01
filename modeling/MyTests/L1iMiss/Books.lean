/-
MyTests/L1iMiss/Books.lean

`src/mysql/l1i-miss/l1i-miss.py`: what the counting policies write down.

A reference is observed from outside, by the tables before and after it (`observe`):
the line, whether it was found, the way it is in afterwards, and what that way held.
`Books` says what the tables have to do with the references so far.

The policies differ in the way that makes room for a new line and in the ages.  For
the rest, a reference ends in one of three ways (`Served`), and each of them keeps the
books (`Books.step`).
-/
import MyTests.Lib.Since
import MyTests.L1iMiss.Cache

namespace MyTests.L1iMiss

open MyTests.Lib

/-! ### References -/

/-- A reference, as it is observed. -/
structure Access where
  line : ℕ
  found : Bool
  way : Fin way
  old : ℕ
deriving DecidableEq, Repr

/-- What the tables before and after a reference to `addr` show. -/
def observe (s s' : Sim) (addr : ℕ) : Access :=
  let line := lineOf addr
  let i := (findWay (s'.clSets (clIndex line)) line).getD 0
  { line := line
    found := line ∈ List.ofFn (s.clSets (clIndex line))
    way := i
    old := s.clSets (clIndex line) i }

/-- A reference to `line`. -/
def refersTo (line : ℕ) (e : Access) : Bool := e.line = line

/-- A reference that brings `line` in. -/
def bringsIn (line : ℕ) (e : Access) : Bool := e.line = line && !e.found

/-- A reference that hits or fills way `i` of a set. -/
def touches (index : Fin numSets) (i : Fin way) (e : Access) : Bool :=
  clIndex e.line = index && e.way = i

/-- A miss that evicts a line from a set. -/
def evictsIn (index : Fin numSets) (e : Access) : Bool :=
  clIndex e.line = index && !e.found && e.old ≠ 0

/-- The references to a line since it was last brought in, with this one. -/
def refsSince (line : ℕ) (es : List Access) : ℕ := since (bringsIn line) (refersTo line) es + 1

/-- The evicting misses in a set since way `i` was last hit or filled. -/
def missesSince (index : Fin numSets) (i : Fin way) (es : List Access) : ℕ :=
  since (touches index i) (evictsIn index) es

/-! ### The books -/

/-- What the tables are after the references `es`. -/
structure Books (es : List Access) (s : Sim) : Prop where
  distinct : ∀ index i j, s.clSets index i = s.clSets index j → s.clSets index i ≠ 0 → i = j
  maps : ∀ index i, s.clSets index i ≠ 0 → clIndex (s.clSets index i) = index
  empty : ∀ index i, s.clSets index i = 0 → s.lfuList index i = 0
  counter : ∀ index i, s.clSets index i ≠ 0 →
    s.lfuList index i = refsSince (s.clSets index i) es
  misses : s.missCount = es.countP fun e => !e.found

/-- What the ages are after the references `es`. -/
def Aged (es : List Access) (s : Sim) : Prop :=
  ∀ index i, s.clSets index i ≠ 0 → s.lfuAgeList index i = missesSince index i es

theorem Books.init : Books [] init where
  distinct := fun _ _ _ _ hne => absurd rfl hne
  maps := fun _ _ hne => absurd rfl hne
  empty := fun _ _ _ => rfl
  counter := fun _ _ hne => absurd rfl hne
  misses := rfl

theorem Aged.init : Aged [] init := fun _ _ hne => absurd rfl hne

/-! ### How a reference ends -/

inductive Kind
  | hit
  | fill
  | evict
deriving DecidableEq, Repr

/-- The ways of the set before a reference that ends so in way `i`. -/
def Kind.Before (clSet : Ways) (line : ℕ) (i : Fin way) : Kind → Prop
  | .hit => clSet i = line
  | .fill => (∀ j, clSet j ≠ line) ∧ clSet i = 0
  | .evict => (∀ j, clSet j ≠ line) ∧ ∀ j, clSet j ≠ 0

/-- The reference to `line` ends in way `i`. -/
structure Served (kind : Kind) (s s' : Sim) (line : ℕ) (i : Fin way) : Prop where
  before : kind.Before (s.clSets (clIndex line)) line i
  clSets : s'.clSets = Function.update s.clSets (clIndex line)
    (Function.update (s.clSets (clIndex line)) i line)
  lfuList : s'.lfuList = Function.update s.lfuList (clIndex line)
    (Function.update (s.lfuList (clIndex line)) i
      (if kind = .hit then s.lfuList (clIndex line) i + 1 else 1))
  missCount : s'.missCount = s.missCount + if kind = .hit then 0 else 1

variable {kind : Kind} {s s' : Sim} {line addr : ℕ} {i j : Fin way} {index : Fin numSets}
  {es : List Access}

theorem Served.clSets_self (h : Served kind s s' line i) : s'.clSets (clIndex line) i = line := by
  rw [h.clSets, Function.update_self, Function.update_self]

/-- Nothing happens anywhere else. -/
theorem Served.other (h : Served kind s s' line i) (hne : ¬ (index = clIndex line ∧ j = i)) :
    s'.clSets index j = s.clSets index j ∧ s'.lfuList index j = s.lfuList index j := by
  rw [h.clSets, h.lfuList]
  by_cases hindex : index = clIndex line
  · subst hindex
    have hj : j ≠ i := fun hj => hne ⟨rfl, hj⟩
    simp only [Function.update_self, Function.update_of_ne hj, and_self]
  · simp only [Function.update_of_ne hindex, and_self]

/-- The line is nowhere else. -/
theorem Served.ne_line (h : Served kind s s' line i) (hbooks : Books es s) (hline : line ≠ 0)
    (hne : ¬ (index = clIndex line ∧ j = i)) : s.clSets index j ≠ line := by
  intro hj
  have hmaps := hbooks.maps index j (by rwa [hj])
  rw [hj] at hmaps
  subst hmaps
  have hbefore := h.before
  cases kind with
  | hit => exact hne ⟨rfl, hbooks.distinct _ j i (hj.trans hbefore.symm) (by rwa [hj])⟩
  | fill => exact hbefore.1 j hj
  | evict => exact hbefore.1 j hj

/-- What is observed of it. -/
theorem Served.observe (h : Served kind s s' (lineOf addr) i) (hbooks : Books es s)
    (hline : lineOf addr ≠ 0) :
    observe s s' addr = ⟨lineOf addr, kind = .hit, i, s.clSets (clIndex (lineOf addr)) i⟩ := by
  have hway : findWay (s'.clSets (clIndex (lineOf addr))) (lineOf addr) = some i := by
    cases hfind : findWay (s'.clSets (clIndex (lineOf addr))) (lineOf addr) with
    | none => exact absurd h.clSets_self (findWay_eq_none hfind i)
    | some j =>
        have hj := (findWay_eq_some hfind).1
        by_contra hji
        have hne : ¬ (clIndex (lineOf addr) = clIndex (lineOf addr) ∧ j = i) :=
          fun heq => hji (congrArg some heq.2)
        rw [(h.other hne).1] at hj
        exact h.ne_line hbooks hline hne hj
  have hfound : lineOf addr ∈ List.ofFn (s.clSets (clIndex (lineOf addr))) ↔ kind = .hit := by
    rw [List.mem_ofFn]
    have hbefore := h.before
    cases kind with
    | hit => exact iff_of_true ⟨i, hbefore⟩ rfl
    | fill => exact iff_of_false (fun ⟨j, hj⟩ => hbefore.1 j hj) (by decide)
    | evict => exact iff_of_false (fun ⟨j, hj⟩ => hbefore.1 j hj) (by decide)
  simp only [L1iMiss.observe, hway, Option.getD_some, hfound]

/-! ### One reference -/

theorem refsSince_concat (x : ℕ) (es : List Access) (e : Access) :
    refsSince x (es ++ [e])
      = if e.line = x then (if e.found then refsSince x es + 1 else 1) else refsSince x es := by
  rw [refsSince, refsSince]
  by_cases hline : e.line = x
  · rw [if_pos hline]
    by_cases hfound : e.found
    · rw [if_pos hfound, since_concat_succ (by simp [bringsIn, hfound]) (by simp [refersTo, hline])]
    · rw [if_neg hfound, since_concat_of_pos (by simp [bringsIn, hline, hfound])]
  · rw [if_neg hline, since_concat_same (by simp [bringsIn, hline]) (by simp [refersTo, hline])]

/-- **A reference keeps the books.** -/
theorem Books.step (h : Books es s) (hline : lineOf addr ≠ 0)
    (hserved : Served kind s s' (lineOf addr) i) : Books (es ++ [observe s s' addr]) s' := by
  rw [hserved.observe h hline]
  have hself := hserved.clSets_self
  constructor
  case distinct =>
    intro index j k hjk hne
    by_cases hj : index = clIndex (lineOf addr) ∧ j = i
    -- of two ways with one line, both are the served one or neither is
    · by_cases hk : index = clIndex (lineOf addr) ∧ k = i
      · exact hj.2.trans hk.2.symm
      · obtain ⟨rfl, rfl⟩ := hj
        rw [hself, (hserved.other hk).1] at hjk
        exact absurd hjk.symm (hserved.ne_line h hline hk)
    · by_cases hk : index = clIndex (lineOf addr) ∧ k = i
      · obtain ⟨rfl, rfl⟩ := hk
        rw [hself, (hserved.other hj).1] at hjk
        exact absurd hjk (hserved.ne_line h hline hj)
      · rw [(hserved.other hj).1] at hjk hne
        rw [(hserved.other hk).1] at hjk
        exact h.distinct index j k hjk hne
  case maps =>
    intro index j hne
    by_cases hj : index = clIndex (lineOf addr) ∧ j = i
    · obtain ⟨rfl, rfl⟩ := hj
      rw [hself]
    · rw [(hserved.other hj).1] at hne ⊢
      exact h.maps index j hne
  case empty =>
    intro index j hzero
    by_cases hj : index = clIndex (lineOf addr) ∧ j = i
    · obtain ⟨rfl, rfl⟩ := hj
      exact absurd (hself.symm.trans hzero) hline
    · rw [(hserved.other hj).1] at hzero
      rw [(hserved.other hj).2]
      exact h.empty index j hzero
  case counter =>
    intro index j hne
    rw [refsSince_concat]
    by_cases hj : index = clIndex (lineOf addr) ∧ j = i
    · obtain ⟨rfl, rfl⟩ := hj
      rw [hself, if_pos rfl, hserved.lfuList, Function.update_self, Function.update_self]
      have hbefore := hserved.before
      cases kind with
      | hit =>
          -- a hit counts on from what the counter has been
          have hold : s.clSets (clIndex (lineOf addr)) j = lineOf addr := hbefore
          have hcounter := h.counter _ j (by rwa [hold])
          rw [hold] at hcounter
          simp [hcounter]
      -- a line that comes in starts at 1
      | fill => simp
      | evict => simp
    · rw [(hserved.other hj).1] at hne ⊢
      rw [(hserved.other hj).2, if_neg (hserved.ne_line h hline hj).symm]
      exact h.counter index j hne
  case misses =>
    rw [hserved.missCount, h.misses, List.countP_append, List.countP_singleton]
    cases kind <;> rfl

/-- A way loses the line it holds. -/
def LosesLine (s s' : Sim) (index : Fin numSets) (i : Fin way) : Prop :=
  s.clSets index i ≠ 0 ∧ s'.clSets index i ≠ s.clSets index i

/-- Only an eviction takes a line away. -/
theorem Served.of_losesLine (h : Served kind s s' line i) (hloses : LosesLine s s' index j) :
    kind = .evict ∧ index = clIndex line ∧ j = i := by
  have hhere : index = clIndex line ∧ j = i := by
    by_contra hne
    exact hloses.2 (h.other hne).1
  obtain ⟨rfl, rfl⟩ := hhere
  refine ⟨?_, rfl, rfl⟩
  have hbefore := h.before
  cases kind with
  | hit => exact absurd (h.clSets_self.trans hbefore.symm) hloses.2
  | fill => exact absurd hbefore.2 hloses.1
  | evict => rfl

/-! ### The ages -/

/-- The ages of the set after a reference that ends so in way `i`. -/
def Kind.ages (lfuAge : Ways) (i : Fin way) : Kind → Ways
  | .hit | .fill => Function.update lfuAge i 0
  | .evict => Function.update (fun j => lfuAge j + 1) i 0

/-- **A reference keeps the ages**, when it sets them so. -/
theorem Aged.step (h : Aged es s) (hbooks : Books es s) (hline : lineOf addr ≠ 0)
    (hserved : Served kind s s' (lineOf addr) i)
    (hages : s'.lfuAgeList = Function.update s.lfuAgeList (clIndex (lineOf addr))
      (kind.ages (s.lfuAgeList (clIndex (lineOf addr))) i)) :
    Aged (es ++ [observe s s' addr]) s' := by
  rw [hserved.observe hbooks hline]
  intro index j hne
  rw [missesSince, hages]
  by_cases hindex : index = clIndex (lineOf addr)
  · subst hindex
    rw [Function.update_self]
    by_cases hj : j = i
    · subst hj
      -- the way that is touched is young again
      rw [since_concat_of_pos (by simp [touches])]
      cases kind <;> simp [Kind.ages]
    -- the other ways of the set keep their line, and age with its misses
    · have hother : s'.clSets (clIndex (lineOf addr)) j = s.clSets (clIndex (lineOf addr)) j :=
        (hserved.other fun heq => hj heq.2).1
      rw [hother] at hne
      have hage := h _ j hne
      have hbefore := hserved.before
      have huntouched : ¬ touches (clIndex (lineOf addr)) j
          ⟨lineOf addr, kind = .hit, i, s.clSets (clIndex (lineOf addr)) i⟩ := by
        simp [touches, Ne.symm hj]
      cases kind with
      | hit =>
          rw [since_concat_same huntouched (by simp [evictsIn]), Kind.ages,
            Function.update_of_ne hj]
          exact hage
      | fill =>
          rw [since_concat_same huntouched (by simp [evictsIn, hbefore.2]), Kind.ages,
            Function.update_of_ne hj]
          exact hage
      -- only an eviction makes the other ways older
      | evict =>
          rw [since_concat_succ huntouched (by simp [evictsIn, hbefore.2 i]), Kind.ages,
            Function.update_of_ne hj]
          exact congrArg (· + 1) hage
  · have hother : s'.clSets index j = s.clSets index j :=
      (hserved.other fun heq => hindex heq.1).1
    rw [hother] at hne
    rw [Function.update_of_ne hindex, since_concat_same (by simp [touches, Ne.symm hindex])
      (by simp [evictsIn, Ne.symm hindex])]
    exact h index j hne

end MyTests.L1iMiss
