/-
MyTests/QueuedSpin/System.lean

The invariant of the whole system: any number of locks over one `qnodes`
array.

A step on lock `l` is a `View.step` of the view of `l`, and for every other
lock it changes at most nodes of threads that are not on that lock; that is
where the life time of a node matters.  So the invariants of the locks are kept
independently (`SysInv.step`).  What follows from them for every reachable
state comes last: mutual exclusion, and that one node per thread is enough.  A
schedule shows that such states include queues (`exists_contended`).
-/
import MyTests.QueuedSpin.Order

namespace MyTests.QueuedSpin

open Lib

variable {L : Type} [DecidableEq L] {s s' : State L} {l l' : L} {t u : Tid} {pc : Pc}

/-! ### Steps seen from a lock -/

theorem Thread.pcOn_eq_some {th : Thread L} : th.pcOn l = some pc ↔ th = .locking l pc := by
  cases th with
  | locking l' pc' =>
      simp only [Thread.pcOn, Thread.locking.injEq]
      split <;> simp_all
  | _ => simp [Thread.pcOn]

theorem State.view_pc : (s.view l).pc t = some pc ↔ s.thread t = .locking l pc :=
  Thread.pcOn_eq_some

/-- The program points on `l` after a thread has moved. -/
theorem pcOn_update {threads : Tid → Thread L} {th : Thread L} :
    (fun u => (Function.update threads t th u).pcOn l)
      = Function.update (fun u => (threads u).pcOn l) t (th.pcOn l) :=
  Function.comp_update (Thread.pcOn l) threads t th

theorem pcOn_update_of_eq {threads : Tid → Thread L} {th : Thread L}
    (h : th.pcOn l = (threads t).pcOn l) :
    (fun u => (Function.update threads t th u).pcOn l) = fun u => (threads u).pcOn l := by
  rw [pcOn_update, h]
  exact Function.update_eq_self t fun u => (threads u).pcOn l

theorem held_update {held : Tid → L → Bool} {b : Bool} :
    (fun u => Function.update held t (Function.update (held t) l b) u l)
      = Function.update (fun u => held u l) t b := by
  refine (Function.comp_update (fun h : L → Bool => h l) held t _).trans ?_
  rw [Function.update_self]
  rfl

theorem held_update_of_ne {held : Tid → L → Bool} {b : Bool} (hl : l' ≠ l) :
    (fun u => Function.update held t (Function.update (held t) l b) u l') = fun u => held u l' := by
  refine (Function.comp_update (fun h : L → Bool => h l') held t _).trans ?_
  rw [Function.update_of_ne hl]
  exact Function.update_eq_self t fun u => held u l'

/-- A thread that is at `pc` on `l` is at no program point on another lock. -/
theorem Thread.pcOn_of_ne (hl : l' ≠ l) : (Thread.locking l pc).pcOn l' = none := if_neg hl.symm

/-- On its own lock a step of the system is a step of the view. -/
theorem State.view_lockStep (s : State L) (t : Tid) (l : L) (pc : Pc) :
    (s.lockStep t l pc).view l = (s.view l).step t pc := by
  unfold State.lockStep State.view View.step
  simp only [View.mk.injEq]
  refine ⟨Function.update_self .., ?_, ?_, trivial⟩
  · rw [pcOn_update]
    cases (QueuedSpin.lockStep t (s.lock l) s.qnodes pc).next with
    | some pc' => exact congrArg (Function.update _ t) (if_pos rfl)
    | none => rfl
  · cases (QueuedSpin.lockStep t (s.lock l) s.qnodes pc).next with
    | some pc' => rfl
    | none => exact held_update

/-- On another lock a step changes nodes only. -/
theorem State.view_lockStep_of_ne (hpc : s.thread t = .locking l pc) (hl : l' ≠ l) :
    (s.lockStep t l pc).view l'
      = { s.view l' with nodes := (QueuedSpin.lockStep t (s.lock l) s.qnodes pc).nodes } := by
  unfold State.lockStep State.view
  simp only [View.mk.injEq]
  refine ⟨Function.update_of_ne hl .., ?_, ?_, trivial⟩
  · refine pcOn_update_of_eq ?_
    rw [hpc, Thread.pcOn_of_ne hl]
    cases (QueuedSpin.lockStep t (s.lock l) s.qnodes pc).next with
    | some pc' => exact Thread.pcOn_of_ne hl
    | none => rfl
  · cases (QueuedSpin.lockStep t (s.lock l) s.qnodes pc).next with
    | some pc' => rfl
    | none => exact held_update_of_ne hl

theorem State.view_callLock : (s.callLock t l).view l
    = { s.view l with pc := Function.update (s.view l).pc t (some .cmpxchg) } := by
  unfold State.callLock State.view
  simp only [View.mk.injEq, true_and, and_true]
  rw [pcOn_update]
  exact congrArg (Function.update _ t) (if_pos rfl)

/-- A call on `l` is invisible to the other locks. -/
theorem State.view_callLock_of_ne (hidle : s.thread t = .idle) (hl : l' ≠ l) :
    (s.callLock t l).view l' = s.view l' := by
  unfold State.callLock State.view
  simp only [View.mk.injEq, true_and, and_true]
  apply pcOn_update_of_eq
  rw [hidle, Thread.pcOn_of_ne hl]
  rfl

theorem State.view_callUnlock (hidle : s.thread t = .idle) : (s.callUnlock t l).view l' = s.view l' := by
  unfold State.callUnlock State.view
  simp only [View.mk.injEq, true_and, and_true]
  apply pcOn_update_of_eq
  rw [hidle]
  rfl

theorem State.view_unlockStore (hpc : s.thread t = .unlocking l) : (s.unlockStore t l).view l
    = { s.view l with word := { (s.view l).word with locked := 0 }
                      held := Function.update (s.view l).held t false } := by
  unfold State.unlockStore State.view
  simp only [View.mk.injEq, and_true]
  refine ⟨Function.update_self .., ?_, held_update⟩
  apply pcOn_update_of_eq
  rw [hpc]
  rfl

theorem State.view_unlockStore_of_ne (hpc : s.thread t = .unlocking l) (hl : l' ≠ l) :
    (s.unlockStore t l).view l' = s.view l' := by
  unfold State.unlockStore State.view
  simp only [View.mk.injEq, and_true]
  refine ⟨Function.update_of_ne hl .., ?_, held_update_of_ne hl⟩
  apply pcOn_update_of_eq
  rw [hpc]
  rfl

/-! ### Stores to other threads' nodes -/

/-- The call of `queued_spin_lock(l)` of thread `u` is in the queue of `l`. -/
def State.queuedOn (s : State L) (u : Tid) (l : L) : Prop :=
  ∃ pc, s.thread u = .locking l pc ∧ pc.queued = true

/-- The node, other than its own, that a thread stores to at a program
point. -/
def Pc.target : Pc → Option Tid
  | .link prev => some prev
  | .handOver next => some next
  | _ => none

theorem lockStep_nodes_of_ne {w : Qspinlock} {nodes : Tid → McsSpinlock} (hut : u ≠ t)
    (htarget : pc.target ≠ some u) : (lockStep t w nodes pc).nodes u = nodes u := by
  cases pc <;> simp only [lockStep] <;> (try split) <;> (try split) <;>
    simp_all [Pc.target, Ne.symm, Function.update_of_ne]

theorem Inv.target_mem {v : View} {r : Roles} (h : Inv v r) (hpc : v.pc t = some pc)
    (htarget : pc.target = some u) : u ∈ r.queue := by
  cases pc with
  | link prev =>
      obtain rfl : prev = u := by simpa [Pc.target] using htarget
      exact (h.pcOk t _ hpc).1.mem_left
  | handOver next =>
      obtain rfl : next = u := by simpa [Pc.target] using htarget
      obtain ⟨rest, hq⟩ := h.queue_of_handOver hpc
      simp [hq]
  | _ => simp [Pc.target] at htarget

/-- A call returns with its node counter back at 0. -/
theorem Inv.count_of_return {v : View} {r : Roles} (h : Inv v r) (hpc : v.pc t = some pc)
    (hret : (lockStep t v.word v.nodes pc).next = none) :
    ((lockStep t v.word v.nodes pc).nodes t).count = 0 := by
  have hcount := h.count t pc hpc
  cases pc with
  | release =>
      simp only [lockStep, Function.update_self, hcount]
      rfl
  | cmpxchg =>
      simp only [lockStep]
      split <;> exact hcount
  | clearPendingSetLocked => exact hcount
  | _ =>
      revert hret
      simp only [lockStep]
      repeat' split
      all_goals simp

/-! ### The invariant of the system -/

/-- Every lock is in a consistent state with the given roles, the node of a
thread that is not locking is free, and nobody unlocks what it does not hold. -/
structure SysInv (ρ : L → Roles) (s : State L) : Prop where
  lock : ∀ l, Inv (s.view l) (ρ l)
  free : ∀ t, (∀ l pc, s.thread t ≠ .locking l pc) → (s.qnodes t).count = 0
  unlocking : ∀ t l, s.thread t = .unlocking l → s.held t l = true

/-- The calls that have committed to `l` and not acquired it, in order. -/
def waitingCalls (ρ : L → Roles) (s : State L) (l : L) : List Call :=
  ((ρ l).line (s.view l)).waiting.map fun u => ⟨u, s.calls u⟩

/-- The call that an event commits to `l`. -/
def commitOf (l : L) (e : Event L) : Option Call :=
  if e.lock = l ∧ e.mark = .commit then some e.call else none

/-- The call that acquires `l` in an event. -/
def acquireOf (l : L) (e : Event L) : Option Call :=
  if e.lock = l ∧ e.mark = .acquire then some e.call else none

/-- Marks move calls into and out of the line, and lose none. -/
theorem Line.marks_waiting {ℓ ℓ' : Line} {ms : List Mark} (h : ℓ.marks t ms = some ℓ') :
    ℓ.waiting ++ ms.filterMap (fun m => if m = .commit then some t else none)
      = ms.filterMap (fun m => if m = .acquire then some t else none) ++ ℓ'.waiting := by
  induction ms generalizing ℓ with
  | nil =>
      obtain rfl : ℓ = ℓ' := by simpa [Line.marks] using h
      simp
  | cons m ms ih =>
      cases m with
      | commit =>
          have hrest := ih (ℓ := { ℓ with waiting := ℓ.waiting ++ [t] }) h
          simpa using hrest
      | acquire =>
          -- only the first of those who wait acquires, and only a free lock
          obtain ⟨⟨ho, hh⟩, h⟩ : (ℓ.owner = none ∧ ℓ.waiting.head? = some t) ∧
              Line.marks t ⟨some t, ℓ.waiting.tail⟩ ms = some ℓ' := by
            unfold Line.marks at h
            simp only [List.foldlM_cons, Line.mark] at h
            split at h
            · exact ⟨‹_›, h⟩
            · cases h
          obtain ⟨rest, hrest⟩ := List.head?_eq_some_iff.mp hh
          have hmarks := ih h
          simpa [hrest] using hmarks

theorem commitOf_lockEvents : (s.lockEvents t l pc).filterMap (commitOf l)
    = ((lockStep t (s.lock l) s.qnodes pc).marks.filterMap
        (fun m => if m = .commit then some t else none)).map fun u => ⟨u, s.calls u⟩ := by
  unfold State.lockEvents
  rw [List.filterMap_map, List.map_filterMap]
  refine List.filterMap_congr fun m _ => ?_
  cases m <;> simp [commitOf]

theorem acquireOf_lockEvents : (s.lockEvents t l pc).filterMap (acquireOf l)
    = ((lockStep t (s.lock l) s.qnodes pc).marks.filterMap
        (fun m => if m = .acquire then some t else none)).map fun u => ⟨u, s.calls u⟩ := by
  unfold State.lockEvents
  rw [List.filterMap_map, List.map_filterMap]
  refine List.filterMap_congr fun m _ => ?_
  cases m <;> simp [acquireOf]

theorem commitOf_lockEvents_of_ne (hl : l' ≠ l) :
    (s.lockEvents t l pc).filterMap (commitOf l') = [] := by
  unfold State.lockEvents
  rw [List.filterMap_map, List.filterMap_eq_nil_iff]
  intro m _
  simp [commitOf, hl.symm]

theorem acquireOf_lockEvents_of_ne (hl : l' ≠ l) :
    (s.lockEvents t l pc).filterMap (acquireOf l') = [] := by
  unfold State.lockEvents
  rw [List.filterMap_map, List.filterMap_eq_nil_iff]
  intro m _
  simp [acquireOf, hl.symm]

/-- One step of the system: the invariant is kept, and on every lock the calls
that waited, followed by those that commit now, are the calls that acquire now,
followed by those that wait afterwards. -/
def SysStep (ρ : L → Roles) (s : State L) (e : List (Event L)) (s' : State L) : Prop :=
  ∃ ρ', SysInv ρ' s' ∧ ∀ l, waitingCalls ρ s l ++ e.filterMap (commitOf l)
    = e.filterMap (acquireOf l) ++ waitingCalls ρ' s' l

variable {ρ : L → Roles}

theorem SysInv.step_lock (h : SysInv ρ s) (hpc : s.thread t = .locking l pc) :
    SysStep ρ s (s.lockEvents t l pc) (s.lockStep t l pc) := by
  have hv := State.view_pc.mpr hpc
  obtain ⟨r', hinv, hline⟩ := (h.lock l).step hv
  -- the step stores to nodes of threads on the lock `l` alone
  have hoff : ∀ u l₁ pcu, l₁ ≠ l → s.thread u = .locking l₁ pcu →
      (QueuedSpin.lockStep t (s.lock l) s.qnodes pc).nodes u = s.qnodes u := by
    intro u l₁ pcu hl hu
    refine lockStep_nodes_of_ne ?_ fun htarget => ?_
    · rintro rfl
      simp_all
    · obtain ⟨pcu', hu', -⟩ := ((h.lock l).queue u).mp ((h.lock l).target_mem hv htarget)
      rw [State.view_pc, hu] at hu'
      exact hl (Thread.locking.inj hu').1
  refine ⟨Function.update ρ l r', ⟨fun l₁ => ?_, fun u hu => ?_, fun u l₁ hu => ?_⟩,
    fun l₁ => ?_⟩
  · by_cases hl : l₁ = l
    · subst hl
      rw [Function.update_self, State.view_lockStep]
      exact hinv
    · rw [Function.update_of_ne hl, State.view_lockStep_of_ne hpc hl]
      exact (h.lock l₁).frame fun u pcu hu => hoff u l₁ pcu hl (State.view_pc.mp hu)
  · by_cases hut : u = t
    · -- the call has just returned
      subst hut
      refine (h.lock l).count_of_return hv ?_
      cases hn : (QueuedSpin.lockStep u (s.lock l) s.qnodes pc).next with
      | none => exact hn
      | some pc' => exact absurd (by simp [State.lockStep, hn]) (hu l pc')
    · have hfree : ∀ l₁ pcu, s.thread u ≠ .locking l₁ pcu := by
        intro l₁ pcu
        simpa [State.lockStep, hut] using hu l₁ pcu
      show ((QueuedSpin.lockStep t (s.lock l) s.qnodes pc).nodes u).count = 0
      rw [lockStep_nodes_of_ne hut fun htarget => ?_]
      · exact h.free u hfree
      · obtain ⟨pcu, hu', -⟩ := ((h.lock l).queue u).mp ((h.lock l).target_mem hv htarget)
        exact hfree l pcu (State.view_pc.mp hu')
  · have hut : u ≠ t := by
      rintro rfl
      simp only [State.lockStep, Function.update_self] at hu
      split at hu <;> cases hu
    have hheld := h.unlocking u l₁ (by simpa [State.lockStep, hut] using hu)
    simp only [State.lockStep]
    cases (QueuedSpin.lockStep t (s.lock l) s.qnodes pc).next with
    | some pc' => exact hheld
    | none => simpa [hut] using hheld
  · -- on this lock the line moves by the marks of the step, elsewhere not at all
    by_cases hl : l₁ = l
    · subst hl
      have hcalls := congrArg (List.map fun u => (⟨u, s.calls u⟩ : Call)) (Line.marks_waiting hline)
      rw [List.map_append, List.map_append] at hcalls
      rw [commitOf_lockEvents, acquireOf_lockEvents, waitingCalls, waitingCalls,
        Function.update_self, State.view_lockStep]
      exact hcalls
    · rw [commitOf_lockEvents_of_ne hl, acquireOf_lockEvents_of_ne hl, waitingCalls, waitingCalls,
        Function.update_of_ne hl, State.view_lockStep_of_ne hpc hl, List.append_nil]
      rfl

/-- Who stands in line is inside `queued_spin_lock`. -/
theorem Inv.pc_of_waiting {v : View} {r : Roles} (h : Inv v r) (hu : u ∈ (r.line v).waiting) :
    ∃ pc, v.pc u = some pc := by
  simp only [Roles.line, List.mem_append, Option.mem_toList, Option.filter_eq_some_iff,
    List.mem_filter] at hu
  rcases hu with ⟨hu, -⟩ | ⟨hu, -⟩
  · obtain ⟨pc, hpc, -⟩ := (h.pender u).mp hu
    exact ⟨pc, hpc⟩
  · obtain ⟨pc, hpc, -⟩ := (h.queue u).mp hu
    exact ⟨pc, hpc⟩

theorem SysInv.step_call (h : SysInv ρ s) (hidle : s.thread t = .idle) :
    SysStep ρ s [] (s.callLock t l) := by
  have hfree : ∀ l₁, (s.view l₁).pc t = none := by
    intro l₁
    simp [State.view, hidle, Thread.pcOn]
  have hcount : (s.qnodes t).count = 0 := h.free t (by simp [hidle])
  refine ⟨ρ, ⟨fun l₁ => ?_, fun u hu => ?_, fun u l₁ hu => ?_⟩,
    fun l₁ => ?_⟩
  · by_cases hl : l₁ = l
    · subst hl
      rw [State.view_callLock]
      exact (h.lock l₁).call (hfree l₁) hcount
    · rw [State.view_callLock_of_ne hidle hl]
      exact h.lock l₁
  · refine h.free u fun l₁ pcu => ?_
    by_cases hut : u = t
    · simp [hut, hidle]
    · simpa [State.callLock, hut] using hu l₁ pcu
  · have hut : u ≠ t := by
      rintro rfl
      simp [State.callLock] at hu
    exact h.unlocking u l₁ (by simpa [State.callLock, hut] using hu)
  · have hline : (ρ l₁).line ((s.callLock t l).view l₁) = (ρ l₁).line (s.view l₁) := by
      by_cases hl : l₁ = l
      · subst hl
        rw [State.view_callLock]
        have hfree' := hfree l₁
        exact Roles.line_congr rfl rfl rfl (inClass_update_any (by rw [hfree']; rfl))
          (inClass_update_any (by rw [hfree']; rfl))
      · rw [State.view_callLock_of_ne hidle hl]
    simp only [waitingCalls, hline, List.filterMap_nil, List.append_nil, List.nil_append]
    -- the call counter of `t` goes up, but `t` waits nowhere
    refine List.map_congr_left fun u hu => ?_
    obtain ⟨pcu, hpcu⟩ := (h.lock l₁).pc_of_waiting hu
    have hut : u ≠ t := by
      rintro rfl
      simp [hfree] at hpcu
    simp [State.callLock, hut]

theorem SysInv.step_unlock (h : SysInv ρ s) (hidle : s.thread t = .idle)
    (hheld : s.held t l = true) : SysStep ρ s [] (s.callUnlock t l) := by
  refine ⟨ρ, ⟨fun l₁ => ?_, fun u hu => ?_, fun u l₁ hu => ?_⟩,
    fun l₁ => ?_⟩
  · rw [State.view_callUnlock hidle]
    exact h.lock l₁
  · refine h.free u fun l₁ pcu => ?_
    by_cases hut : u = t
    · simp [hut, hidle]
    · simpa [State.callUnlock, hut] using hu l₁ pcu
  · by_cases hut : u = t
    · subst hut
      obtain rfl : l = l₁ := by simpa [State.callUnlock] using hu
      exact hheld
    · exact h.unlocking u l₁ (by simpa [State.callUnlock, hut] using hu)
  · simp only [waitingCalls, State.view_callUnlock hidle, List.filterMap_nil, List.append_nil,
      List.nil_append]
    rfl

theorem SysInv.step_store (h : SysInv ρ s) (hpc : s.thread t = .unlocking l) :
    SysStep ρ s [] (s.unlockStore t l) := by
  have hheld := h.unlocking t l hpc
  have hfree : (s.view l).pc t = none := by simp [State.view, hpc, Thread.pcOn]
  -- the lock has no owner any more; its line is as before
  refine ⟨Function.update ρ l { ρ l with owner := none }, ⟨fun l₁ => ?_, fun u hu => ?_, fun u l₁ hu => ?_⟩,
    fun l₁ => ?_⟩
  · by_cases hl : l₁ = l
    · subst hl
      rw [Function.update_self, State.view_unlockStore hpc]
      exact (h.lock l₁).unlock hheld hfree
    · rw [Function.update_of_ne hl, State.view_unlockStore_of_ne hpc hl]
      exact h.lock l₁
  · refine h.free u fun l₁ pcu => ?_
    by_cases hut : u = t
    · simp [hut, hpc]
    · simpa [State.unlockStore, hut] using hu l₁ pcu
  · have hut : u ≠ t := by
      rintro rfl
      simp [State.unlockStore] at hu
    have hheld := h.unlocking u l₁ (by simpa [State.unlockStore, hut] using hu)
    simpa [State.unlockStore, hut] using hheld
  · by_cases hl : l₁ = l
    · subst hl
      simp only [waitingCalls, Function.update_self, State.view_unlockStore hpc,
        List.filterMap_nil, List.append_nil, List.nil_append]
      rfl
    · simp only [waitingCalls, Function.update_of_ne hl, State.view_unlockStore_of_ne hpc hl,
        List.filterMap_nil, List.append_nil, List.nil_append]
      rfl

/-- **One step of any thread.** -/
theorem SysInv.step {e : List (Event L)} (h : SysInv ρ s) (hs : Step s e s') :
    SysStep ρ s e s' := by
  cases hs with
  | call t l hidle => exact h.step_call hidle
  | lock t l pc hpc => exact h.step_lock hpc
  | unlock t l hidle hheld => exact h.step_unlock hidle hheld
  | store t l hpc => exact h.step_store hpc

theorem SysInv.init : SysInv (fun _ => ⟨none, none, []⟩) (State.init L) where
  lock l := by
    refine ⟨rfl, ?_, ?_, ?_, List.nodup_nil, ?_, ?_, ?_, ?_, ?_⟩ <;>
      simp [State.view, State.init, Thread.pcOn]
  free t _ := rfl
  unlocking t l h := by cases h

theorem Reachable.sysInv (h : Reachable s) : ∃ ρ, SysInv ρ s := by
  refine Lib.Reachable.invariant (I := fun s => ∃ ρ, SysInv ρ s) ⟨_, SysInv.init⟩ ?_ h
  rintro s₁ e s₂ ⟨ρ, hρ⟩ hs
  obtain ⟨ρ', hρ', -⟩ := hρ.step hs
  exact ⟨ρ', hρ'⟩

/-! ### Schedules -/

deriving instance DecidableEq for Pc, Thread

/-- What one thread does next. -/
inductive Action (L : Type)
  | callLock (t : Tid) (l : L)
  | callUnlock (t : Tid) (l : L)
  /-- the next access of a thread that is inside one of the functions -/
  | go (t : Tid)

def act : Action L → State L → Option (List (Event L) × State L)
  | .callLock t l, s =>
      match s.thread t with
      | .idle => some ([], s.callLock t l)
      | _ => none
  | .callUnlock t l, s =>
      match s.thread t with
      | .idle => if s.held t l then some ([], s.callUnlock t l) else none
      | _ => none
  | .go t, s =>
      match s.thread t with
      | .idle => none
      | .locking l pc => some (s.lockEvents t l pc, s.lockStep t l pc)
      | .unlocking l => some ([], s.unlockStore t l)

theorem step_of_act (a : Action L) (s : State L) (e : List (Event L)) (s' : State L)
    (h : act a s = some (e, s')) : Step s e s' := by
  cases a with
  | callLock t l =>
      simp only [act] at h
      split at h
      · rename_i hidle
        obtain ⟨rfl, rfl⟩ := Prod.mk.inj (Option.some.inj h)
        exact .call t l hidle
      · exact absurd h (Option.some_ne_none _).symm
  | callUnlock t l =>
      simp only [act] at h
      split at h
      · rename_i hidle
        split at h
        · rename_i hheld
          obtain ⟨rfl, rfl⟩ := Prod.mk.inj (Option.some.inj h)
          exact .unlock t l hidle hheld
        · exact absurd h (Option.some_ne_none _).symm
      · exact absurd h (Option.some_ne_none _).symm
  | go t =>
      simp only [act] at h
      split at h
      · exact absurd h (Option.some_ne_none _).symm
      · rename_i l pc hpc
        obtain ⟨rfl, rfl⟩ := Prod.mk.inj (Option.some.inj h)
        exact .lock t l pc hpc
      · rename_i l hpc
        obtain ⟨rfl, rfl⟩ := Prod.mk.inj (Option.some.inj h)
        exact .store t l hpc

/-- Thread 1 has got the lock from thread 0 over the pending bit.  Thread 2 is the head of the
queue, and thread 3 is about to swap the tail. -/
def queueing : List (Action Unit) :=
  [.callLock 0 (), .go 0, .callLock 1 (), .go 1, .go 1, .callLock 2 (), .go 2, .go 2, .go 2, .go 2,
    .go 2, .go 2, .callUnlock 0 (), .go 0, .go 1, .go 1, .callLock 3 (), .go 3, .go 3, .go 3, .go 3,
    .go 3]

/-- A lock with an owner, a head that waits for it, and a thread behind that. -/
theorem exists_contended : ∃ s : State Unit, Reachable s ∧ s.held 1 () = true
    ∧ s.thread 2 = .locking () (.waitHead none) ∧ s.thread 3 = .locking () (.link 2) := by
  obtain ⟨es, s, hrun, hgood⟩ := exists_run_of_schedule step_of_act (s := State.init Unit)
    (queueing ++ [.go 3])
    (fun _ s => decide (s.held 1 () = true ∧ s.thread 2 = .locking () (.waitHead none)
      ∧ s.thread 3 = .locking () (.link 2))) (by decide +kernel)
  obtain ⟨hheld, h2, h3⟩ := of_decide_eq_true hgood
  exact ⟨s, ⟨es, hrun⟩, hheld, h2, h3⟩

/-! ### Mutual exclusion -/

/-- Thread `t` is between the return of `queued_spin_lock(l)` and its store in
`queued_spin_unlock(l)`. -/
def State.inCriticalSection (s : State L) (t : Tid) (l : L) : Prop := s.held t l = true

theorem SysInv.owner_of_held (h : SysInv ρ s) (ht : s.inCriticalSection t l) :
    (ρ l).owner = some t :=
  ((h.lock l).owner t).mpr (Or.inl ht)

/-- **Mutual exclusion.**  At most one thread is in the critical section of a
lock, and the locked byte is 1 as long as one is. -/
theorem mutual_exclusion (h : Reachable s) (l : L) :
    (∀ t u, s.inCriticalSection t l → s.inCriticalSection u l → t = u) ∧
      ∀ t, s.inCriticalSection t l → (s.lock l).locked = 1 := by
  obtain ⟨ρ, hρ⟩ := h.sysInv
  refine ⟨fun t u ht hu => ?_, fun t ht => ?_⟩
  · exact Option.some.inj ((hρ.owner_of_held ht).symm.trans (hρ.owner_of_held hu))
  · have hword : s.lock l = (ρ l).word := (hρ.lock l).word
    rw [hword, Roles.word, hρ.owner_of_held ht]
    rfl

theorem mutual_exclusion_contended : ∃ s : State Unit, Reachable s ∧ s.queuedOn 2 ()
    ∧ s.queuedOn 3 () ∧ (s.lock ()).locked = 1 ∧ ∀ t, s.inCriticalSection t () ↔ t = 1 := by
  obtain ⟨s, hreach, hheld, h2, h3⟩ := exists_contended
  obtain ⟨hone, hlocked⟩ := mutual_exclusion hreach ()
  refine ⟨s, hreach, ⟨_, h2, rfl⟩, ⟨_, h3, rfl⟩, hlocked 1 hheld, fun t => ⟨fun ht => ?_, ?_⟩⟩
  · exact hone t 1 ht hheld
  · rintro rfl
    exact hheld

/-! ### One node per thread -/

theorem SysInv.count_cases (h : SysInv ρ s) (t : Tid) :
    (s.qnodes t).count = 0 ∨ (s.qnodes t).count = 1 := by
  by_cases ht : ∀ l pc, s.thread t ≠ .locking l pc
  · exact Or.inl (h.free t ht)
  · push Not at ht
    obtain ⟨l, pc, hpc⟩ := ht
    have hcount : (s.qnodes t).count = if pc.counted then 1 else 0 :=
      (h.lock l).count t pc (State.view_pc.mpr hpc)
    split at hcount
    · exact Or.inr hcount
    · exact Or.inl hcount

theorem SysInv.queuedOn_of_mem (h : SysInv ρ s) (hu : u ∈ (ρ l).queue) : s.queuedOn u l := by
  obtain ⟨pc, hpc, hq⟩ := ((h.lock l).queue u).mp hu
  exact ⟨pc, State.view_pc.mp hpc, hq⟩

/-- A tail code that is not 0 decodes to a thread that is queued on this
lock. -/
theorem SysInv.decodeTail (h : SysInv ρ s) (htail : (s.lock l).tail ≠ 0) :
    ∃ u, QueuedSpin.decodeTail (tailWord (s.lock l).tail) = some u ∧ s.queuedOn u l := by
  have hword : (s.lock l).tail = queueTail (ρ l).queue := congrArg Qspinlock.tail (h.lock l).word
  cases hlast : (ρ l).queue.getLast? with
  | none =>
      rw [hword, queueTail, hlast] at htail
      exact absurd rfl htail
  | some u =>
      refine ⟨u, ?_, h.queuedOn_of_mem (List.mem_of_getLast? hlast)⟩
      rw [hword, queueTail_eq_tailOf.mpr hlast]
      exact decodeTail_tailWord u

/-- **One node per thread is enough.**  Every node counter is 0 or 1 and no
thread reaches `abort()`; every tail that is not 0 decodes to a thread that is
queued on that lock, and no thread fails the assertion of `decode_tail`; and
whenever the next access of a thread is a store to the node of another thread,
the owner of that node is queued on the same lock.  No access other than such a
store changes another thread's node. -/
theorem one_node_per_thread (h : Reachable s) :
    (∀ t, (s.qnodes t).count = 0 ∨ (s.qnodes t).count = 1) ∧
      (∀ t l, s.thread t ≠ .locking l .aborted ∧ s.thread t ≠ .locking l .assertFailed) ∧
      (∀ l, (s.lock l).tail ≠ 0 →
        ∃ u, decodeTail (tailWord (s.lock l).tail) = some u ∧ s.queuedOn u l) ∧
      (∀ t l pc u, s.thread t = .locking l pc → pc.target = some u → s.queuedOn u l) ∧
      ∀ t l pc u, s.thread t = .locking l pc → u ≠ t →
        (s.lockStep t l pc).qnodes u ≠ s.qnodes u → pc.target = some u := by
  obtain ⟨ρ, hρ⟩ := h.sysInv
  refine ⟨hρ.count_cases, fun t l => ⟨fun ht => ?_, fun ht => ?_⟩, fun l => hρ.decodeTail,
    fun t l pc u ht htarget => ?_, fun t l pc u _ hut hne => ?_⟩
  · exact (hρ.lock l).pcOk t _ (State.view_pc.mpr ht)
  · exact (hρ.lock l).pcOk t _ (State.view_pc.mpr ht)
  · exact hρ.queuedOn_of_mem ((hρ.lock l).target_mem (State.view_pc.mpr ht) htarget)
  · by_contra htarget
    exact hne (lockStep_nodes_of_ne hut htarget)

/-- Thread 3 is about to write to the node of thread 2, which is queued. -/
theorem one_node_per_thread_contended : ∃ s : State Unit, Reachable s
    ∧ s.thread 3 = .locking () (.link 2) ∧ s.queuedOn 2 ()
    ∧ ((s.qnodes 2).count = 0 ∨ (s.qnodes 2).count = 1) := by
  obtain ⟨s, hreach, -, -, h3⟩ := exists_contended
  obtain ⟨hcount, -, -, htarget, -⟩ := one_node_per_thread hreach
  exact ⟨s, hreach, h3, htarget 3 () _ 2 h3 rfl, hcount 2⟩

end MyTests.QueuedSpin
