/-
MyTests/Cpp/SharedPtr.lean

`src/cpp/shared-ptr.cc`: the class `shared_ptr`, over an explicit heap.

A program is a sequence of operations on named handles, as for `uniq_ptr`.  The
objects and their counters are on heaps of their own, and the two are allocated
together, so the counter of an object has its address.

Two members are not safe in every state.  `inc_ref` follows `refcnt_` without looking
whether it is null, so an empty handle must not be copied or assigned from.  `free()`
leaves the fields of the handle as they are unless it deletes the object, so a handle
that shares its object still refers to it afterwards, and is counted no more.
`Careful` says when an operation avoids both; then, and only then, it keeps the counts
(`Books.careful_iff`).
-/
import MyTests.Lib.Transition
import MyTests.Lib.Heap

namespace MyTests.Cpp.SharedPtr

open MyTests.Lib

variable {ι : Type} [DecidableEq ι] {α : Type}

/-! ### The class -/

/-- The heaps, the handles in scope, and their fields `ptr_` and `refcnt_`. -/
structure State (ι α : Type) where
  objects : Heap α
  counters : Heap ℤ
  live : Finset ι
  ptr : ι → Option ℕ
  refcnt : ι → Option ℕ

/-- Before the first operation. -/
def State.init : State ι α := ⟨Heap.empty, Heap.empty, ∅, fun _ => none, fun _ => none⟩

/-- The result of an `int` operation. -/
def toInt (n : ℤ) : Except Fault ℤ :=
  if -2 ^ 31 ≤ n ∧ n < 2 ^ 31 then .ok n else .error .overflow

/-- `inc_ref`. -/
def incRef (s : State ι α) (h : ι) : Except Fault (State ι α) :=
  match s.refcnt h with
  | none => .error .null
  | some c => do
      let n ← toInt ((← s.counters.read c) + 1)
      let counters ← s.counters.write c n
      return { s with counters := counters }

/-- `delete_ptr`. -/
def deletePtr (s : State ι α) (h : ι) : Except Fault (State ι α) :=
  match s.refcnt h with
  | none => .ok s
  | some c => do
      let n ← toInt ((← s.counters.read c) - 1)
      let counters ← s.counters.write c n
      if n = 0 then
        let objects ← s.objects.freeOpt (s.ptr h)
        let counters ← counters.free c
        return { s with
          objects := objects
          counters := counters
          ptr := Function.update s.ptr h none
          refcnt := Function.update s.refcnt h none }
      else return { s with counters := counters }

/-- `refcnt_ = sptr.refcnt_; ptr_ = sptr.ptr_`. -/
def copyFields (s : State ι α) (h src : ι) : State ι α :=
  { s with
    ptr := Function.update s.ptr h (s.ptr src)
    refcnt := Function.update s.refcnt h (s.refcnt src) }

/-- The operations; `construct` is given a fresh raw pointer to `v`, or nothing. -/
inductive Op (ι α : Type)
  | construct (h : ι) (v : Option α)
  | copyConstruct (h src : ι)
  | assign (h src : ι)
  | free (h : ι)
  | destroy (h : ι)

/-- The handles of the operation are there, and the new one is not. -/
def Op.Scoped (s : State ι α) : Op ι α → Prop
  | construct h _ => h ∉ s.live
  | copyConstruct h src => h ∉ s.live ∧ src ∈ s.live
  | assign h src => h ∈ s.live ∧ src ∈ s.live
  | free h => h ∈ s.live
  | destroy h => h ∈ s.live

def Op.exec (s : State ι α) : Op ι α → Except Fault (State ι α)
  | construct h none => .ok { s with
      live := insert h s.live
      ptr := Function.update s.ptr h none
      refcnt := Function.update s.refcnt h none }
  | construct h (some v) =>
      let (p, objects) := s.objects.alloc v
      let (c, counters) := s.counters.alloc 1
      .ok {
        objects := objects
        counters := counters
        live := insert h s.live
        ptr := Function.update s.ptr h (some p)
        refcnt := Function.update s.refcnt h (some c) }
  | copyConstruct h src => incRef { copyFields s h src with live := insert h s.live } h
  | assign h src =>
      if h ≠ src then do
        let s ← deletePtr s h
        incRef (copyFields s h src) h
      else .ok s
  | free h => deletePtr s h
  | destroy h => do
      let s ← deletePtr s h
      return { s with live := s.live.erase h }

/-! ### The property and the condition -/

/-- Reference counting is right: a handle refers to a live object, whose counter is the number
of the handles that do; an object, and a counter, has been deleted, and once, if and only if no
handle refers to it. -/
structure Counted (s : State ι α) : Prop where
  counter : ∀ h ∈ s.live, ∀ p, s.ptr h = some p → s.objects.cells p ≠ none
    ∧ ∃ c, s.refcnt h = some c ∧ s.counters.cells c = some (refs s.live s.ptr p : ℤ)
  object_deleted : ∀ p < s.objects.next,
    s.objects.freed.count p = 1 ↔ ∀ h ∈ s.live, s.ptr h ≠ some p
  counter_deleted : ∀ c < s.counters.next,
    s.counters.freed.count c = 1 ↔ ∀ h ∈ s.live, s.refcnt h ≠ some c
  once : s.objects.freed.Nodup ∧ s.counters.freed.Nodup

/-- The operation copies no empty handle, takes no counter out of the range of an `int`, and does
not `free()` a handle that shares its object with another. -/
def Op.Careful (s : State ι α) : Op ι α → Prop
  | construct _ _ => True
  | copyConstruct _ src => ∃ p, s.ptr src = some p ∧ refs s.live s.ptr p + 1 < 2 ^ 31
  | assign h src => h = src
      ∨ ∃ p, s.ptr src = some p ∧ refs (s.live.erase h) s.ptr p + 1 < 2 ^ 31
  | free h => ∀ p, s.ptr h = some p → refs (s.live.erase h) s.ptr p = 0
  | destroy _ => True

/-- One operation of the program. -/
def Step (s : State ι α) (ops : List (Op ι α)) (t : State ι α) : Prop :=
  ∃ op : Op ι α, ops = [op] ∧ op.Scoped s ∧ op.exec s = .ok t

/-- One operation that meets the condition. -/
def CarefulStep (s : State ι α) (ops : List (Op ι α)) (t : State ι α) : Prop :=
  ∃ op : Op ι α, ops = [op] ∧ op.Scoped s ∧ op.Careful s ∧ op.exec s = .ok t

/-! ### The books -/

/-- The heaps count the handles of `L`. -/
structure Books (L : Finset ι) (s : State ι α) : Prop where
  paired : ∀ h ∈ L, s.refcnt h = s.ptr h
  next : s.counters.next = s.objects.next
  count : ∀ p, s.counters.cells p
    = if refs L s.ptr p = 0 then none else some (refs L s.ptr p : ℤ)
  object : ∀ p, s.objects.cells p = none ↔ refs L s.ptr p = 0
  bound : ∀ p, refs L s.ptr p < 2 ^ 31

variable {L : Finset ι} {s t : State ι α} {h src : ι} {p : ℕ}

omit [DecidableEq ι] in
theorem Books.init : Books ∅ (State.init : State ι α) where
  paired := fun h hmem => absurd hmem (Finset.notMem_empty h)
  next := rfl
  count := fun _ => rfl
  object := fun _ => iff_of_true rfl rfl
  bound := fun _ => by show 0 < 2 ^ 31; decide

omit [DecidableEq ι] in
theorem Books.count_pos (hs : Books L s) (hpos : 0 < refs L s.ptr p) :
    s.counters.cells p = some (refs L s.ptr p : ℤ) ∧ ∃ v, s.objects.cells p = some v := by
  refine ⟨by rw [hs.count, if_neg hpos.ne'], ?_⟩
  apply Option.ne_none_iff_exists'.mp
  intro hnone
  exact hpos.ne' ((hs.object p).mp hnone)

/-- A handle whose fields are set together. -/
theorem Books.paired_insert (hs : Books L s) (q : Option ℕ) :
    ∀ g ∈ insert h L, Function.update s.refcnt h q g = Function.update s.ptr h q g := by
  intro g hg
  by_cases hgh : g = h
  · rw [hgh, Function.update_self, Function.update_self]
  · rw [Function.update_of_ne hgh, Function.update_of_ne hgh]
    exact hs.paired g (Finset.mem_of_mem_insert_of_ne hg hgh)

omit [DecidableEq ι] in
/-- Books that are kept are right. -/
theorem Books.counted (hs : Books s.live s) : Counted s := by
  have hcounter : ∀ p, s.counters.cells p = none ↔ refs s.live s.ptr p = 0 := by
    intro p
    rw [hs.count]
    by_cases hzero : refs s.live s.ptr p = 0
    · exact iff_of_true (if_pos hzero) hzero
    · rw [if_neg hzero]
      exact iff_of_false (Option.some_ne_none _) hzero
  constructor
  case counter =>
    intro h hlive p hp
    obtain ⟨hcount, v, hv⟩ := hs.count_pos (refs_pos_iff.mpr ⟨h, hlive, hp⟩)
    refine ⟨by rw [hv]; exact Option.some_ne_none v, p, ?_, hcount⟩
    -- the counter of an object has the object's own address
    rw [hs.paired h hlive, hp]
  case object_deleted =>
    intro p hp
    rw [Heap.count_freed_iff hp, hs.object, refs_eq_zero_iff]
  case counter_deleted =>
    intro c hc
    rw [Heap.count_freed_iff hc, hcounter, refs_eq_zero_iff]
    constructor
    · intro hall h hlive
      rw [hs.paired h hlive]
      exact hall h hlive
    · intro hall h hlive
      rw [← hs.paired h hlive]
      exact hall h hlive
  case once => exact ⟨s.objects.nodup, s.counters.nodup⟩

/-! ### `inc_ref` and `delete_ptr` -/

theorem toInt_eq {n : ℤ} (hlow : -2 ^ 31 ≤ n) (hhigh : n < 2 ^ 31) : toInt n = .ok n :=
  if_pos ⟨hlow, hhigh⟩

omit [DecidableEq ι] in
/-- A counter that is there goes up. -/
theorem incRef_eq {c n : ℕ} (hc : s.refcnt h = some c) (hcell : s.counters.cells c = some (n : ℤ))
    (hn : n + 1 < 2 ^ 31) : ∃ K, incRef s h = .ok { s with counters := K }
      ∧ K.cells = Function.update s.counters.cells c (some ((n + 1 : ℕ) : ℤ))
      ∧ K.next = s.counters.next := by
  obtain ⟨K, hwrite, hK, hnext⟩ := Heap.exists_write hcell ((n : ℤ) + 1)
  refine ⟨K, ?_, by rw [hK, Nat.cast_succ], hnext⟩
  have hinc : toInt ((n : ℤ) + 1) = .ok ((n : ℤ) + 1) := toInt_eq (by omega) (by omega)
  rw [incRef, hc]
  show (s.counters.read c >>= _) = _
  rw [Heap.read_eq hcell, ok_bind, hinc, ok_bind, hwrite]
  rfl

/-- A counter above 1 goes down. -/
theorem deletePtr_shared {c n : ℕ} (hc : s.refcnt h = some c)
    (hcell : s.counters.cells c = some ((n + 1 : ℕ) : ℤ)) (hn : n + 1 < 2 ^ 31) (hshared : n ≠ 0) :
    ∃ K, deletePtr s h = .ok { s with counters := K }
      ∧ K.cells = Function.update s.counters.cells c (some (n : ℤ))
      ∧ K.next = s.counters.next := by
  obtain ⟨K, hwrite, hK, hnext⟩ := Heap.exists_write hcell (n : ℤ)
  refine ⟨K, ?_, hK, hnext⟩
  have hdec : toInt (((n + 1 : ℕ) : ℤ) - 1) = .ok (n : ℤ) := by
    rw [Nat.cast_succ, add_sub_cancel_right]
    exact toInt_eq (by omega) (by omega)
  rw [deletePtr, hc]
  show (s.counters.read c >>= _) = _
  rw [Heap.read_eq hcell, ok_bind, hdec, ok_bind, hwrite, ok_bind]
  exact if_neg (Nat.cast_ne_zero.mpr hshared)

/-- A counter at 1 goes, and the object with it. -/
theorem deletePtr_last {c : ℕ} {v : α} (hc : s.refcnt h = some c)
    (hcell : s.counters.cells c = some 1) (hp : s.ptr h = some p)
    (hobject : s.objects.cells p = some v) :
    ∃ O K, deletePtr s h = .ok { s with
        objects := O
        counters := K
        ptr := Function.update s.ptr h none
        refcnt := Function.update s.refcnt h none }
      ∧ O.cells = Function.update s.objects.cells p none ∧ O.next = s.objects.next
      ∧ K.cells = Function.update s.counters.cells c none ∧ K.next = s.counters.next := by
  obtain ⟨K, hwrite, hK, hnext⟩ := Heap.exists_write hcell 0
  have hzero : K.cells c = some 0 := by rw [hK, Function.update_self]
  obtain ⟨K', hfree', hK', hnext'⟩ := Heap.exists_free hzero
  obtain ⟨O, hfree, hO, hOnext⟩ := Heap.exists_free hobject
  refine ⟨O, K', ?_, hO, hOnext, by rw [hK', hK, Function.update_idem], hnext'.trans hnext⟩
  have hdec : toInt ((1 : ℤ) - 1) = .ok 0 := by
    rw [sub_self]
    exact toInt_eq (by norm_num) (by norm_num)
  rw [deletePtr, hc]
  show (s.counters.read c >>= _) = _
  rw [Heap.read_eq hcell, ok_bind, hdec, ok_bind, hwrite, ok_bind, if_pos rfl, hp, Heap.freeOpt,
    hfree, ok_bind, hfree']
  rfl

/-! ### Release -/

omit [DecidableEq ι] in
/-- The books of the handles of `L`, when the heap at `p` has been brought up to date and the
others have the handles they had. -/
theorem Books.of_update {M : Finset ι} (hs : Books L s) (hpaired : ∀ h ∈ M, t.refcnt h = t.ptr h)
    (hnext : t.counters.next = t.objects.next)
    (hother : ∀ q, q ≠ p → refs M t.ptr q = refs L s.ptr q
      ∧ t.counters.cells q = s.counters.cells q ∧ t.objects.cells q = s.objects.cells q)
    (hcount : t.counters.cells p
      = if refs M t.ptr p = 0 then none else some (refs M t.ptr p : ℤ))
    (hobject : t.objects.cells p = none ↔ refs M t.ptr p = 0)
    (hbound : refs M t.ptr p < 2 ^ 31) : Books M t := by
  refine ⟨hpaired, hnext, fun q => ?_, fun q => ?_, fun q => ?_⟩
  · by_cases hq : q = p
    · rw [hq, hcount]
    · obtain ⟨hrefs, hcells, -⟩ := hother q hq
      rw [hrefs, hcells, hs.count]
  · by_cases hq : q = p
    · rw [hq, hobject]
    · obtain ⟨hrefs, -, hcells⟩ := hother q hq
      rw [hrefs, hcells, hs.object]
  · by_cases hq : q = p
    · rw [hq]
      exact hbound
    · rw [(hother q hq).1]
      exact hs.bound q

omit [DecidableEq ι] in
/-- The books of other handles, when every object has as many of them. -/
theorem Books.of_refs_eq {M : Finset ι} (hs : Books L s) (hpaired : ∀ h ∈ M, t.refcnt h = t.ptr h)
    (hrefs : ∀ p, refs M t.ptr p = refs L s.ptr p) (hobjects : t.objects = s.objects)
    (hcounters : t.counters = s.counters) : Books M t := by
  refine ⟨hpaired, ?_, fun p => ?_, fun p => ?_, fun p => ?_⟩
  · rw [hobjects, hcounters, hs.next]
  · rw [hrefs, hcounters, hs.count]
  · rw [hrefs, hobjects, hs.object]
  · rw [hrefs]
    exact hs.bound p

/-- **A released handle is counted no more.**  If it was the last, its object is deleted and its
fields are null; if it was not, they stay as they were. -/
theorem Books.deletePtr (hs : Books s.live s) (hlive : h ∈ s.live) :
    ∃ t, deletePtr s h = .ok t ∧ Books (s.live.erase h) t ∧ t.live = s.live
      ∧ (∀ g, g ≠ h → t.ptr g = s.ptr g ∧ t.refcnt g = s.refcnt g)
      ∧ (∀ p, s.ptr h = some p → refs (s.live.erase h) s.ptr p ≠ 0 →
          t.ptr h = s.ptr h ∧ t.refcnt h = s.refcnt h)
      ∧ ((∀ p, s.ptr h = some p → refs (s.live.erase h) s.ptr p = 0) →
          t.ptr h = none ∧ t.refcnt h = none) := by
  have hpaired := hs.paired h hlive
  have hothers : ∀ g ∈ s.live.erase h, s.refcnt g = s.ptr g :=
    fun g hg => hs.paired g (Finset.mem_of_mem_erase hg)
  cases hptr : s.ptr h with
  | none =>
      rw [hptr] at hpaired
      refine ⟨s, by rw [SharedPtr.deletePtr, hpaired], hs.of_refs_eq hothers ?_ rfl rfl, rfl,
        fun _ _ => ⟨rfl, rfl⟩, fun _ hp => absurd hp.symm (Option.some_ne_none _),
        fun _ => ⟨hptr, hpaired⟩⟩
      intro p
      exact (refs_erase_of_ne hlive (by rw [hptr]; exact (Option.some_ne_none p).symm)).symm
  | some p =>
      rw [hptr] at hpaired
      obtain ⟨hcount, v, hv⟩ := hs.count_pos (refs_pos_iff.mpr ⟨h, hlive, hptr⟩)
      have hbound := hs.bound p
      have hself := refs_erase_self hlive hptr
      rw [hself] at hcount hbound
      have hother : ∀ q, q ≠ p → refs (s.live.erase h) s.ptr q = refs s.live s.ptr q := by
        intro q hq
        have hne : s.ptr h ≠ some q := fun heq => hq (Option.some.inj (heq.symm.trans hptr))
        exact (refs_erase_of_ne hlive hne).symm
      by_cases hlast : refs (s.live.erase h) s.ptr p = 0
      -- the last handle: object and counter are deleted, the fields are null
      · rw [hlast] at hcount
        obtain ⟨O, K, hexec, hO, hOnext, hK, hKnext⟩ := deletePtr_last hpaired hcount hptr hv
        have hkept : ∀ q, refs (s.live.erase h) (Function.update s.ptr h none) q
            = refs (s.live.erase h) s.ptr q :=
          fun q => refs_update_of_notMem (Finset.notMem_erase h s.live) none
        refine ⟨_, hexec, hs.of_update (p := p) ?_ ?_ ?_ ?_ ?_ ?_, rfl, ?_, ?_, ?_⟩
        · intro g hg
          simp only [Function.update_of_ne (Finset.ne_of_mem_erase hg)]
          exact hothers g hg
        · exact hKnext.trans (hs.next.trans hOnext.symm)
        · intro q hq
          rw [hkept, hK, hO, Function.update_of_ne hq, Function.update_of_ne hq]
          exact ⟨hother q hq, rfl, rfl⟩
        · rw [hkept, if_pos hlast, hK, Function.update_self]
        · rw [hkept, hO, Function.update_self]
          exact iff_of_true rfl hlast
        · rw [hkept]
          omega
        · exact fun g hg => ⟨Function.update_of_ne hg _ _, Function.update_of_ne hg _ _⟩
        · intro q hq hne
          obtain rfl := Option.some.inj hq
          exact absurd hlast hne
        · exact fun _ => ⟨Function.update_self _ _ _, Function.update_self _ _ _⟩
      -- others are left: the counter goes down, and nothing else changes
      · obtain ⟨K, hexec, hK, hKnext⟩ := deletePtr_shared hpaired hcount hbound hlast
        refine ⟨_, hexec, hs.of_update (p := p) hothers (hKnext.trans hs.next) ?_ ?_ ?_ ?_, rfl,
          fun _ _ => ⟨rfl, rfl⟩, fun _ _ _ => ⟨hptr, rfl⟩, fun hall => absurd (hall p rfl) hlast⟩
        · intro q hq
          rw [hK, Function.update_of_ne hq]
          exact ⟨hother q hq, rfl, rfl⟩
        · rw [if_neg hlast, hK, Function.update_self]
        · rw [hs.object, hself]
          exact iff_of_false (Nat.succ_ne_zero _) hlast
        · exact Nat.lt_of_succ_lt hbound

/-! ### Adoption -/

/-- **A handle that takes the fields of another is counted.**  `M` are the handles with it. -/
theorem Books.adopt {M : Finset ι} (hs : Books L s) (hnot : h ∉ L) (hsrc : src ∈ L)
    (hp : s.ptr src = some p) (hbound : refs L s.ptr p + 1 < 2 ^ 31) :
    ∃ t, incRef { copyFields s h src with live := M } h = .ok t ∧ t.live = M
      ∧ Books (insert h L) t := by
  have hpaired : s.refcnt src = some p := (hs.paired src hsrc).trans hp
  have hpos : 0 < refs L s.ptr p := refs_pos_iff.mpr ⟨src, hsrc, hp⟩
  obtain ⟨hcount, v, hv⟩ := hs.count_pos hpos
  have hrefs : ∀ q, refs (insert h L) (Function.update s.ptr h (s.ptr src)) q
      = refs L s.ptr q + if s.ptr src = some q then 1 else 0 :=
    fun q => refs_insert_update hnot (s.ptr src)
  have hself := hrefs p
  rw [if_pos hp] at hself
  obtain ⟨K, hexec, hK, hKnext⟩ :=
    incRef_eq (s := { copyFields s h src with live := M }) (h := h) (c := p)
      (by simp [copyFields, hpaired]) hcount hbound
  refine ⟨_, hexec, rfl, hs.of_update (p := p) ?_ (hKnext.trans hs.next) ?_ ?_ ?_ ?_⟩
  · intro g hg
    show Function.update s.refcnt h (s.refcnt src) g = Function.update s.ptr h (s.ptr src) g
    rw [hs.paired src hsrc]
    exact hs.paired_insert (s.ptr src) g hg
  -- the counts of the other objects stay
  · intro q hq
    have hnone : ¬ s.ptr src = some q := by
      rw [hp]
      exact fun heq => hq (Option.some.inj heq).symm
    refine ⟨?_, ?_, rfl⟩
    · exact (hrefs q).trans (by rw [if_neg hnone, Nat.add_zero])
    · rw [hK, Function.update_of_ne hq]
      rfl
  -- the counter of `p` has gone up with its handles
  · show K.cells p = if refs (insert h L) (Function.update s.ptr h (s.ptr src)) p = 0 then none
      else some (refs (insert h L) (Function.update s.ptr h (s.ptr src)) p : ℤ)
    rw [hself, if_neg (Nat.succ_ne_zero _), hK, Function.update_self]
  · show s.objects.cells p = none ↔ refs (insert h L) (Function.update s.ptr h (s.ptr src)) p = 0
    rw [hself, hv]
    exact iff_of_false (Option.some_ne_none v) (Nat.succ_ne_zero _)
  · show refs (insert h L) (Function.update s.ptr h (s.ptr src)) p < 2 ^ 31
    rw [hself]
    exact hbound

/-! ### The operations -/

/-- A new handle is counted, and so is its object. -/
theorem Books.construct (hs : Books s.live s) (hnot : h ∉ s.live) (v : Option α) :
    ∃ t, (Op.construct h v).exec s = .ok t ∧ Books t.live t := by
  cases v with
  | none =>
      refine ⟨_, rfl, hs.of_refs_eq (hs.paired_insert none) (fun p => ?_) rfl rfl⟩
      exact (refs_insert_update hnot none).trans (by rw [if_neg (Option.some_ne_none p).symm]; rfl)
  | some v =>
      have hrefs : ∀ q, refs (insert h s.live) (Function.update s.ptr h (some s.objects.next)) q
          = refs s.live s.ptr q + if some s.objects.next = some q then 1 else 0 :=
        fun q => refs_insert_update hnot (some s.objects.next)
      -- nothing refers to an address that has not been given out
      have hnone : refs s.live s.ptr s.objects.next = 0 :=
        (hs.object s.objects.next).mp s.objects.cells_next
      have hself := hrefs s.objects.next
      rw [hnone, if_pos rfl] at hself
      refine ⟨_, rfl, hs.of_update (p := s.objects.next) ?_ ?_ ?_ ?_ ?_ ?_⟩
      · intro g hg
        show Function.update s.refcnt h (some s.counters.next) g
          = Function.update s.ptr h (some s.objects.next) g
        rw [hs.next]
        exact hs.paired_insert _ g hg
      · show s.counters.next + 1 = s.objects.next + 1
        rw [hs.next]
      · intro q hq
        refine ⟨?_, ?_, ?_⟩
        · exact (hrefs q).trans (by rw [if_neg fun heq => hq (Option.some.inj heq).symm]; rfl)
        · show Function.update s.counters.cells s.counters.next (some 1) q = _
          rw [hs.next, Function.update_of_ne hq]
        · exact Function.update_of_ne hq _ _
      · show Function.update s.counters.cells s.counters.next (some 1) s.objects.next = _
        rw [hself, hs.next, Function.update_self]
        rfl
      · show Function.update s.objects.cells s.objects.next (some v) s.objects.next = none ↔ _
        rw [hself, Function.update_self]
        exact iff_of_false (Option.some_ne_none v) Nat.one_ne_zero
      · rw [hself]
        norm_num

/-- The books after an operation that meets the condition. -/
theorem Books.exec (hs : Books s.live s) {op : Op ι α} (hop : op.Scoped s)
    (hcareful : op.Careful s) : ∃ t, op.exec s = .ok t ∧ Books t.live t := by
  cases op with
  | construct h v => exact hs.construct hop v
  | copyConstruct h src =>
      obtain ⟨p, hp, hbound⟩ := hcareful
      obtain ⟨t, hexec, hlive, ht⟩ := hs.adopt (M := insert h s.live) hop.1 hop.2 hp hbound
      rw [← hlive] at ht
      exact ⟨t, hexec, ht⟩
  | assign h src =>
      by_cases hne : h = src
      · exact ⟨s, if_neg (not_not.mpr hne), hs⟩
      · obtain ⟨p, hp, hbound⟩ := hcareful.resolve_left hne
        -- the target gives up what it had, then takes what the source has
        obtain ⟨s₁, hdelete, hs₁, hlive₁, hframe, -, -⟩ := hs.deletePtr hop.1
        have hsrc : src ∈ s.live.erase h := Finset.mem_erase.mpr ⟨Ne.symm hne, hop.2⟩
        have hrefs : refs (s.live.erase h) s₁.ptr p = refs (s.live.erase h) s.ptr p :=
          refs_congr fun g hg => (hframe g (Finset.ne_of_mem_erase hg)).1
        obtain ⟨t, hexec, hlive, ht⟩ := hs₁.adopt (M := s₁.live) (Finset.notMem_erase h s.live) hsrc
          ((hframe src (Ne.symm hne)).1.trans hp) (by rw [hrefs]; exact hbound)
        rw [Finset.insert_erase hop.1, ← hlive₁, ← hlive] at ht
        refine ⟨t, ?_, ht⟩
        rw [Op.exec, if_pos hne, hdelete, ok_bind]
        exact hexec
  | free h =>
      obtain ⟨t, hexec, ht, hlive, -, -, hlast⟩ := hs.deletePtr hop
      -- the caller is the last, so the handle is null afterwards and counts no more
      obtain ⟨hptr, hrefcnt⟩ := hlast hcareful
      refine ⟨t, hexec, ht.of_refs_eq ?_ ?_ rfl rfl⟩
      · intro g hg
        by_cases hgh : g = h
        · rw [hgh, hptr, hrefcnt]
        · exact ht.paired g (Finset.mem_erase.mpr ⟨hgh, hlive ▸ hg⟩)
      · intro p
        rw [hlive]
        exact refs_erase_of_ne hop (by rw [hptr]; exact (Option.some_ne_none p).symm)
  | destroy h =>
      obtain ⟨t, hexec, ht, hlive, -⟩ := hs.deletePtr hop
      refine ⟨{ t with live := s.live.erase h }, ?_, ht.of_refs_eq ht.paired ?_ rfl rfl⟩
      · rw [Op.exec, hexec, ok_bind, ← hlive]
        rfl
      · exact fun p => rfl

/-- Adoption without a fault. -/
theorem Books.of_incRef {M : Finset ι} (hs : Books L s) (hsrc : src ∈ L)
    (hexec : incRef { copyFields s h src with live := M } h = .ok t) :
    ∃ p, s.ptr src = some p ∧ refs L s.ptr p + 1 < 2 ^ 31 := by
  have hrefcnt : ({ copyFields s h src with live := M } : State ι α).refcnt h = s.ptr src :=
    (Function.update_self _ _ _).trans (hs.paired src hsrc)
  rw [incRef, hrefcnt] at hexec
  cases hp : s.ptr src with
  | none =>
      rw [hp] at hexec
      exact absurd hexec (by simp)
  | some p =>
      refine ⟨p, rfl, ?_⟩
      by_contra hbound
      obtain ⟨hcount, -⟩ := hs.count_pos (refs_pos_iff.mpr ⟨src, hsrc, hp⟩)
      have hover : toInt ((refs L s.ptr p : ℤ) + 1) = .error .overflow := by
        refine if_neg fun hrange => hbound ?_
        have hlt := hrange.2
        omega
      rw [hp] at hexec
      change (s.counters.read p >>= _) = _ at hexec
      rw [Heap.read_eq hcount, ok_bind, hover] at hexec
      exact absurd hexec (by rintro ⟨⟩)

/-- An operation after which the counts are right meets the condition. -/
theorem Books.careful (hs : Books s.live s) {op : Op ι α} (hop : op.Scoped s)
    (hexec : op.exec s = .ok t) (ht : Counted t) : op.Careful s := by
  cases op with
  | construct h v => trivial
  | copyConstruct h src => exact hs.of_incRef hop.2 hexec
  | assign h src =>
      by_cases hne : h = src
      · exact .inl hne
      · obtain ⟨s₁, hdelete, hs₁, hlive₁, hframe, -, -⟩ := hs.deletePtr hop.1
        have hsrc : src ∈ s.live.erase h := Finset.mem_erase.mpr ⟨Ne.symm hne, hop.2⟩
        rw [Op.exec, if_pos hne, hdelete, ok_bind] at hexec
        obtain ⟨p, hp, hbound⟩ := hs₁.of_incRef hsrc (M := s₁.live) hexec
        refine .inr ⟨p, (hframe src (Ne.symm hne)).1.symm.trans hp, ?_⟩
        rwa [refs_congr fun g hg => (hframe g (Finset.ne_of_mem_erase hg)).1] at hbound
  | free h =>
      intro p hp
      by_contra hshared
      obtain ⟨t', hexec', hbooks, hlive, -, hkept, -⟩ := hs.deletePtr hop
      obtain rfl := Except.ok.inj (hexec'.symm.trans hexec)
      obtain ⟨hptr, hrefcnt⟩ := hkept p hp hshared
      have hself : refs t'.live t'.ptr p = refs (s.live.erase h) t'.ptr p + 1 := by
        rw [hlive]
        exact refs_erase_self hop (hptr.trans hp)
      -- the handle still refers to the object, and is counted no more
      obtain ⟨-, c, hc, hcount⟩ := ht.counter h (hlive ▸ hop) p (hptr.trans hp)
      obtain rfl : c = p := by
        rw [hrefcnt, hs.paired h hop, hp] at hc
        exact (Option.some.inj hc).symm
      rw [hbooks.count] at hcount
      split_ifs at hcount with hzero
      have heq := Option.some.inj hcount
      omega
  | destroy h => trivial

/-- **An operation keeps the counts right if and only if it meets the condition.** -/
theorem Books.careful_iff (hs : Books s.live s) {op : Op ι α} (hop : op.Scoped s) :
    op.Careful s ↔ ∃ t, op.exec s = .ok t ∧ Counted t := by
  constructor
  · intro hcareful
    obtain ⟨t, hexec, ht⟩ := hs.exec hop hcareful
    exact ⟨t, hexec, ht.counted⟩
  · rintro ⟨t, hexec, ht⟩
    exact hs.careful hop hexec ht

/-- The books are kept in every run that meets the condition. -/
theorem Books.run {ops : List (Op ι α)} (hrun : Run CarefulStep State.init ops s) :
    Books s.live s := by
  refine hrun.invariant (I := fun _ s => Books s.live s) Books.init ?_
  rintro _ s₁ _ s₂ hs ⟨op, -, hop, hcareful, hexec⟩
  obtain ⟨t, ht, hbooks⟩ := hs.exec hop hcareful
  obtain rfl := Except.ok.inj (ht.symm.trans hexec)
  exact hbooks

/-- **Reference counting is sound in every run that meets the condition**, and a next operation
that does not meet it breaks the counting or is at fault. -/
theorem counted_iff (ops : List (Op ι α)) (s : State ι α)
    (hrun : Run CarefulStep State.init ops s) :
    Counted s ∧ ∀ op : Op ι α, op.Scoped s →
      (op.Careful s ↔ ∃ t, op.exec s = .ok t ∧ Counted t) := by
  have hs := Books.run hrun
  exact ⟨hs.counted, fun op hop => hs.careful_iff hop⟩

/-- A handle and its copy. -/
theorem counted_iff_copy : ∃ s : State ℕ ℕ,
    Run CarefulStep State.init [.construct 0 (some 7), .copyConstruct 1 0] s ∧ Counted s
      ∧ ∀ op : Op ℕ ℕ, op.Scoped s → (op.Careful s ↔ ∃ t, op.exec s = .ok t ∧ Counted t) := by
  have hcreated : CarefulStep (State.init : State ℕ ℕ) [.construct 0 (some 7)] _ :=
    ⟨.construct 0 (some 7), rfl, Finset.notMem_empty 0, trivial, rfl⟩
  have hrun := (Run.single hcreated).tail
    ⟨.copyConstruct 1 0, rfl, ⟨by decide, by decide⟩, ⟨0, rfl, by decide⟩, rfl⟩
  exact ⟨_, hrun, counted_iff _ _ hrun⟩

/-- An empty handle cannot be copied.  An object with two handles is deleted when one of them is
freed and destroyed, and the other then refers to a counter that is gone. -/
theorem not_counted :
    (∃ s : State ℕ ℕ, Run Step State.init [.construct 0 none] s
      ∧ (Op.copyConstruct 1 0 : Op ℕ ℕ).Scoped s
      ∧ (Op.copyConstruct 1 0).exec s = .error .null)
    ∧ ∃ s : State ℕ ℕ,
      Run Step State.init [.construct 0 (some 7), .copyConstruct 1 0, .free 1, .destroy 1] s
      ∧ ¬ Counted s ∧ (Op.destroy 0 : Op ℕ ℕ).Scoped s
      ∧ (Op.destroy 0).exec s = .error (.dangling 0) := by
  constructor
  · have hempty : Step (State.init : State ℕ ℕ) [.construct 0 none] _ :=
      ⟨.construct 0 none, rfl, Finset.notMem_empty 0, rfl⟩
    exact ⟨_, Run.single hempty, ⟨by decide, by decide⟩, rfl⟩
  · have hcreated : Step (State.init : State ℕ ℕ) [.construct 0 (some 7)] _ :=
      ⟨.construct 0 (some 7), rfl, Finset.notMem_empty 0, rfl⟩
    have hcopied := (Run.single hcreated).tail
      ⟨.copyConstruct 1 0, rfl, ⟨by decide, by decide⟩, rfl⟩
    have hfreed := hcopied.tail ⟨.free 1, rfl, Finset.mem_insert_self _ _, rfl⟩
    have hdestroyed := hfreed.tail ⟨.destroy 1, rfl, Finset.mem_insert_self _ _, rfl⟩
    refine ⟨_, hdestroyed, ?_, Finset.mem_erase.mpr ⟨by decide, by decide⟩, rfl⟩
    intro hcounted
    exact (hcounted.counter 0 (by decide) 0 rfl).1 rfl

end MyTests.Cpp.SharedPtr
