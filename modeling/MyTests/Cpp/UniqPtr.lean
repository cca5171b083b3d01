/-
MyTests/Cpp/UniqPtr.lean

`src/cpp/uniq-ptr.cc`: the class `uniq_ptr`, over an explicit heap.

A program is a sequence of operations on named handles; it constructs a handle that is
not in scope and uses handles that are.  The handles own what they point to: at every
moment each live object has one owner in scope and no other object has any (`Owned`).
A move passes the ownership on, and an assignment that overwrites an owner deletes
what it owned.
-/
import MyTests.Lib.Transition
import MyTests.Lib.Heap

namespace MyTests.Cpp.UniqPtr

open MyTests.Lib

variable {ι : Type} [DecidableEq ι] {α : Type}

/-! ### The class -/

/-- The heap, the handles in scope, and their fields `ptr_`. -/
structure State (ι α : Type) where
  objects : Heap α
  live : Finset ι
  ptr : ι → Option ℕ

/-- Before the first operation. -/
def State.init : State ι α := ⟨Heap.empty, ∅, fun _ => none⟩

/-- The operations; `construct` is given a fresh raw pointer to `v`, or nothing. -/
inductive Op (ι α : Type)
  | construct (h : ι) (v : Option α)
  | moveConstruct (h src : ι)
  | assign (h src : ι)
  | destroy (h : ι)

/-- The handles of the operation are there, and the new one is not. -/
def Op.Scoped (s : State ι α) : Op ι α → Prop
  | construct h _ => h ∉ s.live
  | moveConstruct h src => h ∉ s.live ∧ src ∈ s.live
  | assign h src => h ∈ s.live ∧ src ∈ s.live
  | destroy h => h ∈ s.live

/-- `delete_ptr`. -/
def deletePtr (s : State ι α) (h : ι) : Except Fault (State ι α) := do
  let objects ← s.objects.freeOpt (s.ptr h)
  return { s with objects := objects }

/-- `ptr_ = uptr.ptr_; uptr.ptr_ = nullptr`. -/
def steal (ptr : ι → Option ℕ) (h src : ι) : ι → Option ℕ :=
  Function.update (Function.update ptr h (ptr src)) src none

def Op.exec (s : State ι α) : Op ι α → Except Fault (State ι α)
  | construct h none => .ok { s with
      live := insert h s.live
      ptr := Function.update s.ptr h none }
  | construct h (some v) =>
      let (p, objects) := s.objects.alloc v
      .ok {
        objects := objects
        live := insert h s.live
        ptr := Function.update s.ptr h (some p) }
  | moveConstruct h src => .ok { s with
      live := insert h s.live
      ptr := steal s.ptr h src }
  | assign h src =>
      if h ≠ src then do
        let s ← deletePtr s h
        return { s with ptr := steal s.ptr h src }
      else .ok s
  | destroy h => do
      let s ← deletePtr s h
      return { s with live := s.live.erase h }

/-- One operation of the program. -/
def Step (s : State ι α) (ops : List (Op ι α)) (t : State ι α) : Prop :=
  ∃ op : Op ι α, ops = [op] ∧ op.Scoped s ∧ op.exec s = .ok t

/-! ### Ownership -/

/-- Every live object has one owner in scope, and nothing else has any. -/
def Owned (s : State ι α) : Prop :=
  ∀ p, refs s.live s.ptr p = if (s.objects.cells p).isSome then 1 else 0

variable {s t : State ι α} {h src : ι} {p : ℕ}

omit [DecidableEq ι] in
theorem Owned.init : Owned (State.init : State ι α) := fun _ => rfl

omit [DecidableEq ι] in
/-- What a handle points to is live. -/
theorem Owned.cells_eq_some (hs : Owned s) (hlive : h ∈ s.live) (hp : s.ptr h = some p) :
    ∃ v, s.objects.cells p = some v := by
  have hpos : 0 < refs s.live s.ptr p := refs_pos_iff.mpr ⟨h, hlive, hp⟩
  rw [hs p] at hpos
  apply Option.isSome_iff_exists.mp
  by_contra hnone
  rw [if_neg hnone] at hpos
  exact Nat.lt_irrefl 0 hpos

omit [DecidableEq ι] in
/-- What is live has an owner. -/
theorem Owned.exists_owner (hs : Owned s) (hp : s.objects.cells p ≠ none) :
    ∃ h ∈ s.live, s.ptr h = some p := by
  apply refs_pos_iff.mp
  rw [hs p, if_pos (Option.isSome_iff_ne_none.mpr hp)]
  exact Nat.zero_lt_one

omit [DecidableEq ι] in
/-- Two owners are the same. -/
theorem Owned.owner_unique (hs : Owned s) {g : ι} (hh : h ∈ s.live) (hg : g ∈ s.live)
    (hp : s.ptr h = some p) (hq : s.ptr g = some p) : h = g := by
  have hle : refs s.live s.ptr p ≤ 1 := by
    rw [hs p]
    split_ifs
    · exact le_rfl
    · exact Nat.zero_le 1
  exact Finset.card_le_one.mp hle h (Finset.mem_filter.mpr ⟨hh, hp⟩) g
    (Finset.mem_filter.mpr ⟨hg, hq⟩)

/-- **`delete_ptr`** deletes what the handle owns; the others keep what they own. -/
theorem Owned.deletePtr (hs : Owned s) (hlive : h ∈ s.live) :
    ∃ objects, deletePtr s h = .ok { s with objects := objects }
      ∧ objects.next = s.objects.next
      ∧ (∀ p, objects.cells p = if s.ptr h = some p then none else s.objects.cells p)
      ∧ ∀ p, refs (s.live.erase h) s.ptr p = if (objects.cells p).isSome then 1 else 0 := by
  -- the handles left are the ones there were, less this one
  have hothers : ∀ p, refs (s.live.erase h) s.ptr p + (if s.ptr h = some p then 1 else 0)
      = if (s.objects.cells p).isSome then 1 else 0 := fun p => by rw [← refs_erase hlive, hs p]
  cases hptr : s.ptr h with
  | none =>
      refine ⟨s.objects, by rw [UniqPtr.deletePtr, hptr]; rfl, rfl, fun p => by simp, ?_⟩
      intro p
      rw [← hothers p, hptr]
      simp
  | some q =>
      obtain ⟨v, hq⟩ := hs.cells_eq_some hlive hptr
      obtain ⟨objects, hfree, hcells, hnext⟩ := Heap.exists_free hq
      refine ⟨objects, ?_, hnext, ?_, ?_⟩
      · rw [UniqPtr.deletePtr, hptr, Heap.freeOpt, hfree]
        rfl
      · intro p
        rw [hcells, Function.update_apply]
        simp only [Option.some.injEq, eq_comm]
      · intro p
        have hp := hothers p
        rw [hptr] at hp
        rw [hcells]
        by_cases hpq : p = q
        · subst hpq
          rw [hq] at hp
          simpa using hp
        · rw [Function.update_of_ne hpq, ← hp]
          simp [Ne.symm hpq]

/-- A theft within the scope leaves every object the owners it had, but for what the thief had. -/
theorem refs_steal {live : Finset ι} {f : ι → Option ℕ} (hh : h ∈ live) (hsrc : src ∈ live)
    (hne : h ≠ src) (p : ℕ) :
    refs live (steal f h src) p = refs (live.erase h) f p := by
  have hh' : h ∈ live.erase src := Finset.mem_erase.mpr ⟨hne, hh⟩
  have hsrc' : src ∈ live.erase h := Finset.mem_erase.mpr ⟨hne.symm, hsrc⟩
  rw [steal, refs_update hsrc, refs_update hh', refs_erase hsrc', Finset.erase_right_comm]
  simp

theorem refs_insert_steal {live : Finset ι} {f : ι → Option ℕ} (hh : h ∉ live)
    (hsrc : src ∈ live) (p : ℕ) :
    refs (insert h live) (steal f h src) p = refs live f p := by
  have hne : h ≠ src := fun heq => hh (heq ▸ hsrc)
  have hcount := refs_steal (f := f) (Finset.mem_insert_self h live)
    (Finset.mem_insert_of_mem hsrc) hne p
  rw [hcount, Finset.erase_insert hh]

/-- **Every operation keeps the ownership**, and none is at fault. -/
theorem Owned.exec (hs : Owned s) {op : Op ι α} (hop : op.Scoped s) :
    ∃ t, op.exec s = .ok t ∧ Owned t := by
  cases op with
  | construct h v =>
      cases v with
      | none =>
          refine ⟨_, rfl, fun p => ?_⟩
          rw [← hs p]
          exact (refs_insert_update hop none).trans (by simp)
      | some v =>
          refine ⟨_, rfl, fun p => ?_⟩
          have hcount := refs_insert_update (f := s.ptr) (p := p) hop (some s.objects.next)
          refine hcount.trans ?_
          rw [hs p]
          show _ = if (Function.update s.objects.cells s.objects.next (some v) p).isSome then 1
            else 0
          -- the address is new, so nobody has referred to it
          by_cases hp : p = s.objects.next
          · subst hp
            simp
          · rw [Function.update_of_ne hp]
            simp [Ne.symm hp]
  | moveConstruct h src =>
      refine ⟨_, rfl, fun p => ?_⟩
      rw [← hs p]
      exact refs_insert_steal hop.1 hop.2 p
  | assign h src =>
      by_cases hne : h = src
      · exact ⟨s, if_neg (not_not.mpr hne), hs⟩
      -- what the target has owned is deleted before it takes the source's
      · obtain ⟨objects, hdelete, -, -, hrefs⟩ := hs.deletePtr hop.1
        refine ⟨{ s with objects := objects, ptr := steal s.ptr h src }, ?_, fun p => ?_⟩
        · rw [Op.exec, if_pos hne, hdelete]
          rfl
        · exact (refs_steal hop.1 hop.2 hne p).trans (hrefs p)
  | destroy h =>
      obtain ⟨objects, hdelete, -, -, hrefs⟩ := hs.deletePtr hop
      refine ⟨{ s with objects := objects, live := s.live.erase h }, ?_, hrefs⟩
      rw [Op.exec, hdelete]
      rfl

/-- **The ownership is kept in every run.** -/
theorem Owned.run {ops : List (Op ι α)} (hrun : Run Step State.init ops s) : Owned s := by
  refine hrun.invariant (I := fun _ s => Owned s) Owned.init ?_
  rintro _ s₁ _ s₂ hs ⟨op, -, hop, hexec⟩
  obtain ⟨t, ht, howned⟩ := hs.exec hop
  obtain rfl := Except.ok.inj (ht.symm.trans hexec)
  exact howned

/-! ### Deletion -/

/-- The operation destroys or overwrites the handle `h`. -/
def Op.Releases (h : ι) : Op ι α → Prop
  | construct _ _ => False
  | moveConstruct _ _ => False
  | assign g src => g = h ∧ g ≠ src
  | destroy g => g = h

omit [DecidableEq ι] in
/-- When the object of one handle is deleted. -/
theorem Owned.deleted_iff (hs : Owned s) (hlive : h ∈ s.live) {objects : Heap α}
    (hcells : ∀ p, objects.cells p = if s.ptr h = some p then none else s.objects.cells p) :
    s.objects.cells p ≠ none ∧ objects.cells p = none ↔ s.ptr h = some p := by
  rw [hcells]
  constructor
  · rintro ⟨hne, hnone⟩
    by_contra hptr
    rw [if_neg hptr] at hnone
    exact hne hnone
  · intro hptr
    obtain ⟨v, hv⟩ := hs.cells_eq_some hlive hptr
    exact ⟨by rw [hv]; exact Option.some_ne_none v, if_pos hptr⟩

/-- **An object is deleted exactly when its owner is destroyed or overwritten.** -/
theorem Owned.exec_deleted_iff (hs : Owned s) {op : Op ι α} (hop : op.Scoped s)
    (hexec : op.exec s = .ok t) (p : ℕ) :
    s.objects.cells p ≠ none ∧ t.objects.cells p = none
      ↔ ∃ h ∈ s.live, s.ptr h = some p ∧ op.Releases h := by
  -- an operation that releases nothing leaves the heap as it is, but for a new object
  have hkept : s.objects = t.objects → (∀ h, ¬ op.Releases h) →
      (s.objects.cells p ≠ none ∧ t.objects.cells p = none
        ↔ ∃ h ∈ s.live, s.ptr h = some p ∧ op.Releases h) := by
    intro hobjects hnot
    rw [← hobjects]
    exact iff_of_false (fun h => h.1 h.2) fun ⟨h, _, _, hrel⟩ => hnot h hrel
  cases op with
  | construct h v =>
      cases v with
      | none =>
          obtain rfl := Except.ok.inj hexec
          exact hkept rfl fun _ hrel => hrel
      | some v =>
          obtain rfl := Except.ok.inj hexec
          refine iff_of_false ?_ fun ⟨h, _, _, hrel⟩ => hrel
          rintro ⟨hne, hnone⟩
          -- the new object is at an address that was free
          have hp : p ≠ s.objects.next := fun heq => hne (heq ▸ s.objects.cells_next)
          have hsame : Function.update s.objects.cells s.objects.next (some v) p = none := hnone
          rw [Function.update_of_ne hp] at hsame
          exact hne hsame
  | moveConstruct h src =>
      obtain rfl := Except.ok.inj hexec
      exact hkept rfl fun _ hrel => hrel
  | assign h src =>
      by_cases hne : h = src
      · rw [Op.exec, if_neg (not_not.mpr hne)] at hexec
        obtain rfl := Except.ok.inj hexec
        exact hkept rfl fun _ hrel => hrel.2 hne
      · obtain ⟨objects, hdelete, -, hcells, -⟩ := hs.deletePtr hop.1
        rw [Op.exec, if_pos hne, hdelete] at hexec
        obtain rfl := Except.ok.inj hexec
        refine (hs.deleted_iff hop.1 hcells).trans ⟨fun hptr => ⟨h, hop.1, hptr, rfl, hne⟩, ?_⟩
        rintro ⟨g, -, hptr, rfl, -⟩
        exact hptr
  | destroy h =>
      obtain ⟨objects, hdelete, -, hcells, -⟩ := hs.deletePtr hop
      rw [Op.exec, hdelete] at hexec
      obtain rfl := Except.ok.inj hexec
      refine (hs.deleted_iff hop hcells).trans ⟨fun hptr => ⟨h, hop, hptr, rfl⟩, ?_⟩
      rintro ⟨g, -, hptr, rfl⟩
      exact hptr

/-! ### Who owns what afterwards -/

/-- The target of the operation owns what it was given, or what the source has owned; a source
that is another handle owns nothing any more. -/
def Op.Passes (s t : State ι α) : Op ι α → Prop
  | construct h none => t.ptr h = none
  | construct h (some v) => ∃ p, t.ptr h = some p ∧ s.objects.cells p = none
      ∧ t.objects.cells p = some v
  | moveConstruct h src => t.ptr h = s.ptr src ∧ t.ptr src = none
  | assign h src => t.ptr h = s.ptr src ∧ (h ≠ src → t.ptr src = none)
  | destroy h => h ∉ t.live

/-- The handles of the operation. -/
def Op.Names (g : ι) : Op ι α → Prop
  | construct h _ => g = h
  | moveConstruct h src => g = h ∨ g = src
  | assign h src => g = h ∨ g = src
  | destroy h => g = h

/-- The other handles own what they did, and what is still there is what it was. -/
structure Op.Spares (op : Op ι α) (s t : State ι α) : Prop where
  others : ∀ g ∈ s.live, ¬ op.Names g → g ∈ t.live ∧ t.ptr g = s.ptr g
  contents : ∀ p, s.objects.cells p ≠ none → t.objects.cells p ≠ none →
    t.objects.cells p = s.objects.cells p

omit [DecidableEq ι] in
theorem cells_of_kept {objects : Heap α}
    (hcells : ∀ p, objects.cells p = if s.ptr h = some p then none else s.objects.cells p)
    (hp : objects.cells p ≠ none) : objects.cells p = s.objects.cells p := by
  rw [hcells] at hp ⊢
  split at hp
  · exact absurd rfl hp
  · exact if_neg ‹_›

theorem steal_src (ptr : ι → Option ℕ) (h src : ι) : steal ptr h src src = none :=
  Function.update_self ..

theorem steal_self (ptr : ι → Option ℕ) (hne : h ≠ src) : steal ptr h src h = ptr src := by
  rw [steal, Function.update_of_ne hne, Function.update_self]

theorem steal_of_ne (ptr : ι → Option ℕ) {g : ι} (hg : ¬ (g = h ∨ g = src)) :
    steal ptr h src g = ptr g := by
  obtain ⟨hh, hsrc⟩ := not_or.mp hg
  rw [steal, Function.update_of_ne hsrc, Function.update_of_ne hh]

/-- **An operation passes on the ownership** of its own handles only. -/
theorem Owned.exec_passes (hs : Owned s) {op : Op ι α} (hop : op.Scoped s)
    (hexec : op.exec s = .ok t) : op.Passes s t ∧ op.Spares s t := by
  cases op with
  | construct h v =>
      cases v with
      | none =>
          obtain rfl := Except.ok.inj hexec
          refine ⟨Function.update_self .., fun g hg hne => ⟨Finset.mem_insert_of_mem hg, ?_⟩, ?_⟩
          · exact Function.update_of_ne hne ..
          · exact fun _ _ _ => rfl
      | some v =>
          obtain rfl := Except.ok.inj hexec
          refine ⟨⟨s.objects.next, Function.update_self .., s.objects.cells_next,
            Function.update_self ..⟩, fun g hg hne => ⟨Finset.mem_insert_of_mem hg, ?_⟩, ?_⟩
          · exact Function.update_of_ne hne ..
          · intro p hp _
            have hpn : p ≠ s.objects.next := fun heq => hp (heq ▸ s.objects.cells_next)
            exact Function.update_of_ne hpn ..
  | moveConstruct h src =>
      obtain rfl := Except.ok.inj hexec
      have hne : h ≠ src := fun heq => hop.1 (heq ▸ hop.2)
      refine ⟨⟨steal_self _ hne, steal_src ..⟩,
        fun g hg hnot => ⟨Finset.mem_insert_of_mem hg, steal_of_ne _ hnot⟩, fun _ _ _ => rfl⟩
  | assign h src =>
      by_cases hne : h = src
      -- the assignment to itself does nothing
      · rw [Op.exec, if_neg (not_not.mpr hne)] at hexec
        obtain rfl := Except.ok.inj hexec
        exact ⟨⟨congrArg s.ptr hne, fun hnot => absurd hne hnot⟩, fun g hg _ => ⟨hg, rfl⟩,
          fun _ _ _ => rfl⟩
      · obtain ⟨objects, hdelete, -, hcells, -⟩ := hs.deletePtr hop.1
        rw [Op.exec, if_pos hne, hdelete] at hexec
        obtain rfl := Except.ok.inj hexec
        refine ⟨⟨steal_self _ hne, fun _ => steal_src ..⟩,
          fun g hg hnot => ⟨hg, steal_of_ne _ hnot⟩, fun p _ hp => ?_⟩
        exact cells_of_kept hcells hp
  | destroy h =>
      obtain ⟨objects, hdelete, -, hcells, -⟩ := hs.deletePtr hop
      rw [Op.exec, hdelete] at hexec
      obtain rfl := Except.ok.inj hexec
      refine ⟨Finset.notMem_erase h s.live, fun g hg hne => ⟨Finset.mem_erase.mpr ⟨hne, hg⟩, rfl⟩,
        fun p _ hp => ?_⟩
      exact cells_of_kept hcells hp

/-- Unique ownership in the state `s`, and what the next operation does to it. -/
structure UniqueOwnership (s : State ι α) : Prop where
  unique : ∀ h ∈ s.live, ∀ g ∈ s.live, ∀ p, s.ptr h = some p → s.ptr g = some p → h = g
  usable : ∀ h ∈ s.live, ∀ p, s.ptr h = some p → s.objects.cells p ≠ none
  owner : ∀ p, s.objects.cells p ≠ none → ∃ h ∈ s.live, s.ptr h = some p
  once : s.objects.freed.Nodup
  no_leak : s.live = ∅ → ∀ p < s.objects.next, s.objects.freed.count p = 1
  next : ∀ op : Op ι α, op.Scoped s → ∃ t, op.exec s = .ok t
    ∧ (∀ p, s.objects.cells p ≠ none ∧ t.objects.cells p = none
      ↔ ∃ h ∈ s.live, s.ptr h = some p ∧ op.Releases h)
    ∧ op.Passes s t ∧ op.Spares s t

/-- **Ownership is unique in every run**, no operation is at fault, a move and an assignment pass
the ownership on, and when all handles are destroyed every object has been deleted once. -/
theorem uniqueOwnership (ops : List (Op ι α)) (s : State ι α) (hrun : Run Step State.init ops s) :
    UniqueOwnership s := by
  have hs := Owned.run hrun
  constructor
  case unique => exact fun h hh g hg p hp hq => hs.owner_unique hh hg hp hq
  case usable =>
    intro h hlive p hp
    obtain ⟨v, hv⟩ := hs.cells_eq_some hlive hp
    rw [hv]
    exact Option.some_ne_none v
  case owner => exact fun p hp => hs.exists_owner hp
  case once => exact s.objects.nodup
  case no_leak =>
    intro hempty p hp
    refine (Heap.count_freed_iff hp).mpr ?_
    by_contra hne
    obtain ⟨h, hlive, -⟩ := hs.exists_owner hne
    rw [hempty] at hlive
    exact absurd hlive (Finset.notMem_empty h)
  case next =>
    intro op hop
    obtain ⟨t, ht, -⟩ := hs.exec hop
    exact ⟨t, ht, hs.exec_deleted_iff hop ht, hs.exec_passes hop ht⟩

/-- An object that has moved from handle 0 to handle 1. -/
theorem uniqueOwnership_moved : ∃ s : State ℕ ℕ,
    Run Step State.init [.construct 0 (some 7), .moveConstruct 1 0] s ∧ UniqueOwnership s := by
  have hfirst : Step (State.init : State ℕ ℕ) [.construct 0 (some 7)]
      ⟨(Heap.empty.alloc 7).2, {0}, Function.update (fun _ => none) 0 (some 0)⟩ :=
    ⟨.construct 0 (some 7), rfl, Finset.notMem_empty 0, rfl⟩
  have hsecond : Step (⟨(Heap.empty.alloc 7).2, {0}, Function.update (fun _ => none) 0 (some 0)⟩ :
      State ℕ ℕ) [.moveConstruct 1 0]
      ⟨(Heap.empty.alloc 7).2, {1, 0}, steal (Function.update (fun _ => none) 0 (some 0)) 1 0⟩ :=
    ⟨.moveConstruct 1 0, rfl, ⟨by simp, by simp⟩, rfl⟩
  have hrun := (Run.single hfirst).tail hsecond
  exact ⟨_, hrun, uniqueOwnership _ _ hrun⟩

end MyTests.Cpp.UniqPtr
