/-
MyTests/QueuedSpin/Inspect.lean

The functions of `qspinlock.h` that only look at the lock: what the answer of
one read of the word says about the threads.

    queued_spin_is_locked      the word is not 0
    queued_spin_is_contended   the word is not 0 beside the locked byte

The word is a function of the roles, but the pending bit may belong to a thread
that has not committed and is about to undo it (`clear_pending`).  Alone it
would make a free lock look taken.  It is never alone: the thread has set it
over a queue, and as long as the bit is set the head of that queue can neither
clear the tail nor leave before somebody is queued behind it (`Attended`).  So
the answers are exact (`queued_spin_inspect`).
-/
import MyTests.QueuedSpin.Fifo

namespace MyTests.QueuedSpin

open Lib

/-! ### The functions -/

/-- `queued_spin_is_locked` -/
def queuedSpinIsLocked (lock : Qspinlock) : BitVec 32 := lock.val

/-- `queued_spin_value_unlocked` -/
def queuedSpinValueUnlocked (lock : Qspinlock) : BitVec 32 := if lock.val = 0 then 1 else 0

/-- `queued_spin_is_contended` -/
def queuedSpinIsContended (lock : Qspinlock) : BitVec 32 := lock.val &&& ~~~qLockedMask

variable {v : View} {r : Roles} {t u : Tid} {pc : Pc} {o : Option Pc} {pcs : Tid → Option Pc}

/-! ### Nobody undoes pending alone -/

/-- While a thread is about to undo pending, somebody is queued. -/
def Attended (pcs : Tid → Option Pc) : Prop :=
  ∀ t, pcs t = some .clearPending → ∃ u pc, pcs u = some pc ∧ pc.queued = true

/-- A thread that moves on within the queue, or outside it. -/
theorem Attended.update (h : Attended pcs) (hnew : o ≠ some .clearPending)
    (hkeep : (pcs t).any Pc.queued = true → o.any Pc.queued = true) :
    Attended (Function.update pcs t o) := by
  intro u hu
  have hut : u ≠ t := by
    rintro rfl
    rw [Function.update_self] at hu
    exact hnew hu
  rw [Function.update_of_ne hut] at hu
  obtain ⟨w, pcw, hw, hq⟩ := h u hu
  by_cases hwt : w = t
  · subst hwt
    rw [hw] at hkeep
    obtain ⟨pc', rfl, hq'⟩ := (Option.any_eq_true _ _).mp (hkeep hq)
    exact ⟨w, pc', Function.update_self .., hq'⟩
  · exact ⟨w, pcw, by rwa [Function.update_of_ne hwt], hq⟩

/-- Some other thread is queued, and stays so. -/
theorem Attended.of_other {pcu : Pc} (hut : u ≠ t) (hu : pcs u = some pcu)
    (hq : pcu.queued = true) : Attended (Function.update pcs t o) := by
  intro w _
  refine ⟨u, pcu, ?_, hq⟩
  rwa [Function.update_of_ne hut]

theorem afterWaitHead_queued (val : BitVec 32) (next : Option Tid) :
    (afterWaitHead t val next).queued = true := by
  unfold afterWaitHead
  split <;> rfl

theorem afterSetLocked_queued (next : Option Tid) : (afterSetLocked next).queued = true := by
  cases next <;> rfl

/-- Where a thread comes to undo pending. -/
theorem lockStep_clearPending {w : Qspinlock} {nodes : Tid → McsSpinlock}
    (h : (lockStep t w nodes pc).next = some .clearPending) :
    pc = .fetchSetPending ∧ w.pending = 0 ∧ w.tail ≠ 0 := by
  cases pc with
  | fetchSetPending =>
      simp only [lockStep] at h
      split at h
      · rename_i hcontended
        split at h
        · rename_i hpending
          rw [Qspinlock.and_qPendingMask] at hpending
          rw [ne_eq, Qspinlock.and_not_qLockedMask] at hcontended
          exact ⟨rfl, hpending, fun htail => hcontended ⟨hpending, htail⟩⟩
        · simp at h
      · split at h <;> simp at h
  -- the other accesses lead elsewhere, whatever they find
  | cmpxchg =>
      simp only [lockStep] at h
      split at h
      · cases h
      · rcases slowpathEntry_cases w.val with hentry | hentry | hentry <;>
          rw [hentry] at h <;> cases h
  | condRead cnt =>
      simp only [lockStep] at h
      split at h
      · rcases checkContention_cases w.val with hcheck | hcheck <;> rw [hcheck] at h <;> cases h
      · cases h
  | xchgTail =>
      have hcommitted := afterXchgTail_committed (tailWord w.tail)
      rw [Option.some.inj h] at hcommitted
      cases hcommitted
  | waitHead next =>
      simp only [lockStep] at h
      split at h
      · have hqueued := afterWaitHead_queued (t := t) w.val next
        rw [Option.some.inj h] at hqueued
        cases hqueued
      · cases h
  | setLocked next =>
      have hqueued := afterSetLocked_queued next
      rw [Option.some.inj h] at hqueued
      cases hqueued
  | waitNext =>
      have hqueued := afterSetLocked_queued (nodes t).next
      rw [Option.some.inj h] at hqueued
      cases hqueued
  | _ =>
      simp only [lockStep] at h
      repeat' split at h
      all_goals cases h

/-- Where a thread leaves the queue. -/
theorem lockStep_queued {w : Qspinlock} {nodes : Tid → McsSpinlock} (h : pc.queued = true) :
    (lockStep t w nodes pc).next.any Pc.queued = true
      ∨ (∃ next, pc = .claim w.val next) ∨ ∃ next, pc = .handOver next := by
  cases pc with
  | link prev => exact .inl rfl
  | waitNode =>
      refine .inl ?_
      simp only [lockStep]
      split <;> rfl
  | readNext => exact .inl rfl
  | waitHead next =>
      refine .inl ?_
      simp only [lockStep]
      split
      · exact afterWaitHead_queued _ _
      · rfl
  | claim val next =>
      by_cases hval : w.val = val
      · rw [← hval]
        exact .inr (.inl ⟨next, rfl⟩)
      · refine .inl ?_
        simp only [lockStep, if_neg hval]
        rfl
  | setLocked next => exact .inl (afterSetLocked_queued _)
  | waitNext => exact .inl (afterSetLocked_queued _)
  | handOver next => exact .inr (.inr ⟨next, rfl⟩)
  | _ => cases h

/-- **One step of any thread.** -/
theorem Inv.attended (h : Inv v r) (ha : Attended v.pc) (hpc : v.pc t = some pc) :
    Attended (v.step t pc).pc := by
  show Attended (Function.update v.pc t (lockStep t v.word v.nodes pc).next)
  by_cases hnew : (lockStep t v.word v.nodes pc).next = some .clearPending
  · -- the tail that the thread has seen belongs to somebody else
    obtain ⟨rfl, -, htail⟩ := lockStep_clearPending hnew
    obtain ⟨u, hu⟩ := List.exists_mem_of_ne_nil _ fun hq => htail (h.tail_eq_zero.mpr hq)
    obtain ⟨pcu, hpcu, hq⟩ := (h.queue u).mp hu
    refine .of_other ?_ hpcu hq
    rintro rfl
    rw [hpc] at hpcu
    obtain rfl := Option.some.inj hpcu
    exact Bool.false_ne_true hq
  · by_cases hq : pc.queued = true
    · have hleave : (lockStep t v.word v.nodes pc).next.any Pc.queued = true
          ∨ (∃ next, pc = .claim v.word.val next) ∨ ∃ next, pc = .handOver next :=
        lockStep_queued hq
      rcases hleave with hkeep | ⟨next, rfl⟩ | ⟨next, rfl⟩
      · exact ha.update hnew fun _ => hkeep
      · -- the word has no pending bit, so nobody is about to undo one
        intro u hu
        have hut : u ≠ t := by
          rintro rfl
          rw [Function.update_self] at hu
          exact hnew hu
        rw [Function.update_of_ne hut] at hu
        have hpender : r.pender = some u := (h.pender u).mpr ⟨_, hu, rfl⟩
        have hword : v.word.val = encodeTail t := (h.pcOk t _ hpc).2.2.2.2
        rw [encodeTail_eq, Qspinlock.val_inj] at hword
        have hnone := h.pending_eq_zero.mp (congrArg Qspinlock.pending hword)
        rw [hpender] at hnone
        cases hnone
      · -- somebody is queued behind
        obtain ⟨rest, hqueue⟩ := h.queue_of_handOver hpc
        obtain ⟨pcn, hpcn, hqn⟩ := (h.queue next).mp (by rw [hqueue]; simp)
        refine .of_other ?_ hpcn hqn
        rintro rfl
        have hnodup := h.nodup
        rw [hqueue] at hnodup
        exact (List.nodup_cons.mp hnodup).1 (List.mem_cons_self ..)
    · refine ha.update hnew fun hany => absurd ?_ hq
      rwa [hpc] at hany

/-! ### What the word says -/

variable {L : Type} [DecidableEq L] {s s' : State L} {l : L}

theorem State.attended_step {e : List (Event L)} {ρ : L → Roles} (hρ : SysInv ρ s)
    (ha : ∀ l, Attended (s.view l).pc) (hs : Step s e s') (l : L) : Attended (s'.view l).pc := by
  cases hs with
  | call t l' hidle =>
      by_cases hl : l = l'
      · subst hl
        rw [State.view_callLock]
        refine (ha l).update (by simp) fun hany => ?_
        -- the caller is on no lock before, so it was queued nowhere
        have hnone : (s.view l).pc t = none := by
          show (s.thread t).pcOn l = none
          rw [hidle]
          rfl
        rw [hnone] at hany
        cases hany
      · rw [State.view_callLock_of_ne hidle hl]
        exact ha l
  | lock t l' pc hpc =>
      by_cases hl : l = l'
      · subst hl
        rw [State.view_lockStep]
        exact (hρ.lock l).attended (ha l) (State.view_pc.mpr hpc)
      · rw [State.view_lockStep_of_ne hpc hl]
        exact ha l
  | unlock t l' hidle hheld =>
      rw [State.view_callUnlock hidle]
      exact ha l
  | store t l' hpc =>
      by_cases hl : l = l'
      · subst hl
        rw [State.view_unlockStore hpc]
        exact ha l
      · rw [State.view_unlockStore_of_ne hpc hl]
        exact ha l

theorem Reachable.attended (h : Reachable s) :
    ∃ ρ, SysInv ρ s ∧ ∀ l, Attended (s.view l).pc := by
  refine Lib.Reachable.invariant (I := fun s => ∃ ρ, SysInv ρ s ∧ ∀ l, Attended (s.view l).pc)
    ⟨_, SysInv.init, fun l t ht => by cases ht⟩ ?_ h
  rintro s₁ e s₂ ⟨ρ, hρ, ha⟩ hs
  obtain ⟨ρ', hρ', -⟩ := hρ.step hs
  exact ⟨ρ', hρ', State.attended_step hρ ha hs⟩

/-- Thread `t` has the lock, or its call has committed to it. -/
def State.Engaged (s : State L) (t : Tid) (l : L) : Prop :=
  s.inCriticalSection t l ∨ ∃ pc, s.thread t = .locking l pc ∧ pc.committed = true

/-- Thread `t` waits for the lock, or has it and still has to pass the queue on. -/
def State.Contends (s : State L) (t : Tid) (l : L) : Prop :=
  ∃ pc, s.thread t = .locking l pc ∧ (pc.pendingOwner || pc.queued) = true

theorem Pc.pending_of_pendingOwner (h : pc.pendingOwner = true) : pc.pending = true := by
  cases pc <;> first | rfl | cases h

theorem Pc.committed_of_acquired (h : pc.acquired = true) : pc.committed = true := by
  cases pc <;> first | rfl | cases h

omit [DecidableEq L] in
theorem State.Contends.engaged (h : s.Contends t l) : s.Engaged t l := by
  obtain ⟨pc, hpc, hc⟩ := h
  refine .inr ⟨pc, hpc, ?_⟩
  cases pc <;> first | rfl | cases hc

/-- Pending bit and tail are those of threads that contend. -/
theorem SysInv.contended_iff {ρ : L → Roles} (h : SysInv ρ s) (ha : Attended (s.view l).pc) :
    ((s.lock l).pending = 0 ∧ (s.lock l).tail = 0) ↔ ¬ ∃ t, s.Contends t l := by
  have hinv := h.lock l
  have hpending : (s.lock l).pending = 0 ↔ (ρ l).pender = none := hinv.pending_eq_zero
  have htail : (s.lock l).tail = 0 ↔ (ρ l).queue = [] := hinv.tail_eq_zero
  rw [hpending, htail]
  constructor
  · rintro ⟨hpender, hqueue⟩ ⟨t, pc, hpc, hc⟩
    rcases (Bool.or_eq_true _ _).mp hc with hown | hq
    · have ht := (hinv.pender t).mpr
        ⟨pc, State.view_pc.mpr hpc, Pc.pending_of_pendingOwner hown⟩
      rw [hpender] at ht
      cases ht
    · have ht := (hinv.queue t).mpr ⟨pc, State.view_pc.mpr hpc, hq⟩
      rw [hqueue] at ht
      cases ht
  · intro hno
    have hout : ∀ t pc, (s.view l).pc t = some pc → pc.queued ≠ true := by
      intro t pc hpc hq
      apply hno
      exact ⟨t, pc, State.view_pc.mp hpc, by rw [hq, Bool.or_true]⟩
    constructor
    · cases hpender : (ρ l).pender with
      | none => rfl
      | some t =>
          obtain ⟨pc, hpc, hp⟩ := (hinv.pender t).mp hpender
          cases pc with
          | clearPending =>
              -- its bit is not alone
              obtain ⟨u, pcu, hu, hq⟩ := ha t hpc
              exact (hout u pcu hu hq).elim
          | waitUnlocked => exact (hno ⟨t, _, State.view_pc.mp hpc, rfl⟩).elim
          | clearPendingSetLocked => exact (hno ⟨t, _, State.view_pc.mp hpc, rfl⟩).elim
          | _ => cases hp
    · apply List.eq_nil_iff_forall_not_mem.mpr
      intro t ht
      obtain ⟨pc, hpc, hq⟩ := (hinv.queue t).mp ht
      exact hout t pc hpc hq

/-- The word is that of threads that are engaged. -/
theorem SysInv.locked_iff {ρ : L → Roles} (h : SysInv ρ s) (ha : Attended (s.view l).pc) :
    (s.lock l).val = 0 ↔ ¬ ∃ t, s.Engaged t l := by
  have hinv := h.lock l
  have howner : (s.lock l).locked = 0 ↔ (ρ l).owner = none := hinv.locked_eq_zero
  have hcontended := h.contended_iff ha
  rw [zero_eq_val, Qspinlock.val_inj]
  constructor
  · rintro hword ⟨t, ht⟩
    have hnone := howner.mp (congrArg Qspinlock.locked hword)
    have hno := hcontended.mp
      ⟨congrArg Qspinlock.pending hword, congrArg Qspinlock.tail hword⟩
    -- a holder owns the word, and a committed caller owns it or is queued
    rcases ht with hheld | ⟨pc, hpc, hc⟩
    · rw [h.owner_of_held hheld] at hnone
      cases hnone
    · cases pc with
      | release =>
          have ht := (hinv.owner t).mpr (.inr ⟨_, State.view_pc.mpr hpc, rfl⟩)
          rw [hnone] at ht
          cases ht
      | assertFailed => exact hinv.pcOk t _ (State.view_pc.mpr hpc)
      | _ => exact hno ⟨t, _, hpc, hc⟩
  · intro hno
    obtain ⟨hpending, htail⟩ := hcontended.mpr fun ⟨t, ht⟩ => hno ⟨t, ht.engaged⟩
    have hlocked : (s.lock l).locked = 0 := by
      rw [howner, Option.eq_none_iff_forall_not_mem]
      intro t ht
      rcases (hinv.owner t).mp ht with hheld | ⟨pc, hpc, hacq⟩
      · exact hno ⟨t, .inl hheld⟩
      · exact hno ⟨t, .inr ⟨pc, State.view_pc.mp hpc, Pc.committed_of_acquired hacq⟩⟩
    -- all three parts of the word are 0
    cases hword : s.lock l with
    | mk locked pending tail =>
        rw [hword] at hlocked hpending htail
        obtain rfl := hlocked
        obtain rfl := hpending
        obtain rfl := htail
        rfl

/-- **One look at the lock.**  A lock is found free exactly when no thread has it and no call
has committed to it, and found uncontended exactly when no thread waits for it or has still to
pass it on. -/
theorem queued_spin_inspect (h : Reachable s) (l : L) :
    (queuedSpinIsLocked (s.lock l) = 0 ↔ ¬ ∃ t, s.Engaged t l)
      ∧ (queuedSpinValueUnlocked (s.lock l) = 1 ↔ ¬ ∃ t, s.Engaged t l)
      ∧ (queuedSpinIsContended (s.lock l) = 0 ↔ ¬ ∃ t, s.Contends t l) := by
  obtain ⟨ρ, hρ, ha⟩ := h.attended
  have hlocked := hρ.locked_iff (ha l)
  refine ⟨hlocked, ?_, ?_⟩
  · rw [← hlocked]
    unfold queuedSpinValueUnlocked
    split
    · rename_i hzero
      exact iff_of_true rfl hzero
    · rename_i hzero
      exact iff_of_false (by decide) hzero
  · exact (Qspinlock.and_not_qLockedMask _).trans (hρ.contended_iff (ha l))

theorem queued_spin_inspect_contended : ∃ s : State Unit, Reachable s ∧ s.inCriticalSection 1 ()
    ∧ queuedSpinIsLocked (s.lock ()) ≠ 0 ∧ queuedSpinIsContended (s.lock ()) ≠ 0 := by
  obtain ⟨s, hreach, hheld, h2, -⟩ := exists_contended
  obtain ⟨hlocked, -, hcontended⟩ := queued_spin_inspect hreach ()
  exact ⟨s, hreach, hheld, fun hzero => hlocked.mp hzero ⟨1, .inl hheld⟩,
    fun hzero => hcontended.mp hzero ⟨2, _, h2, rfl⟩⟩

end MyTests.QueuedSpin
