/-
MyTests/QueuedSpin/Fifo.lean

The queued spinlock is first come, first served.

On every lock the calls that have acquired it are a prefix of the calls that
have committed to it (`Run.commits_eq`): the rest is the line of `Order.lean`.
No call commits twice, because a call that has committed is at a program point
behind its commit (`Pc.committed`) and stays there until it returns.
-/
import MyTests.QueuedSpin.System

namespace MyTests.QueuedSpin

open Lib

variable {L : Type} [DecidableEq L] {s s' : State L} {l l' : L} {t u : Tid} {pc pc' : Pc}
  {es e : List (Event L)}

/-! ### Commits and acquisitions agree -/

/-- The acquired calls, followed by the waiting ones, are the committed
calls. -/
theorem Run.commits_eq (hrun : Lib.Run Step (State.init L) es s) :
    ∃ ρ, SysInv ρ s ∧ ∀ l, es.filterMap (commitOf l)
      = es.filterMap (acquireOf l) ++ waitingCalls ρ s l := by
  refine Lib.Run.invariant (I := fun es s => ∃ ρ, SysInv ρ s ∧ ∀ l, es.filterMap (commitOf l)
    = es.filterMap (acquireOf l) ++ waitingCalls ρ s l) ⟨_, SysInv.init, fun l => rfl⟩ ?_ hrun
  rintro es s₁ e s₂ ⟨ρ, hρ, heq⟩ hs
  obtain ⟨ρ', hρ', hstep⟩ := hρ.step hs
  refine ⟨ρ', hρ', fun l => ?_⟩
  calc (es ++ e).filterMap (commitOf l)
      = es.filterMap (acquireOf l) ++ (waitingCalls ρ s₁ l ++ e.filterMap (commitOf l)) := by
        rw [List.filterMap_append, heq l, List.append_assoc]
    _ = es.filterMap (acquireOf l) ++ (e.filterMap (acquireOf l) ++ waitingCalls ρ' s₂ l) := by
        rw [hstep l]
    _ = (es ++ e).filterMap (acquireOf l) ++ waitingCalls ρ' s₂ l := by
        rw [List.filterMap_append, List.append_assoc]

/-! ### A call commits once -/

/-- Behind the commit step of the call. -/
def Pc.committed : Pc → Bool
  | release | assertFailed => true
  | pc => pc.pendingOwner || pc.queued

theorem afterXchgTail_committed (old : BitVec 32) : (afterXchgTail old).committed = true := by
  unfold afterXchgTail
  split
  · split <;> rfl
  · rfl

theorem afterWaitHead_committed (val : BitVec 32) (next : Option Tid) :
    (afterWaitHead t val next).committed = true := by
  unfold afterWaitHead
  split <;> rfl

theorem afterSetLocked_committed (next : Option Tid) : (afterSetLocked next).committed = true := by
  cases next <;> rfl

/-- A call that has committed, or that commits in this step, is behind its
commit as long as it does not return. -/
theorem lockStep_committed {w : Qspinlock} {nodes : Tid → McsSpinlock}
    (hc : pc.committed = true ∨ Mark.commit ∈ (lockStep t w nodes pc).marks)
    (hn : (lockStep t w nodes pc).next = some pc') : pc'.committed = true := by
  revert hc hn
  cases pc <;> simp only [lockStep] <;> repeat' split
  all_goals
    rintro hc hn
    first
      | cases hn; exact afterXchgTail_committed _
      | cases hn; exact afterWaitHead_committed _ _
      | cases hn; exact afterSetLocked_committed _
      | cases hn; rfl
      | simp_all [Pc.committed, Pc.pendingOwner, Pc.queued]

theorem commit_notMem_of_committed {w : Qspinlock} {nodes : Tid → McsSpinlock}
    (hc : pc.committed = true) : Mark.commit ∉ (lockStep t w nodes pc).marks := by
  revert hc
  cases pc <;> simp only [lockStep] <;> repeat' split
  all_goals simp [Pc.committed, Pc.pendingOwner, Pc.queued]

theorem lockStep_marks (t : Tid) (w : Qspinlock) (nodes : Tid → McsSpinlock) (pc : Pc) :
    (lockStep t w nodes pc).marks = [] ∨ (lockStep t w nodes pc).marks = [.commit] ∨
      (lockStep t w nodes pc).marks = [.acquire] ∨
        (lockStep t w nodes pc).marks = [.commit, .acquire] := by
  cases pc <;> simp only [lockStep] <;> repeat' split
  all_goals simp

/-- A step commits at most one call, the one that makes it. -/
theorem commitOf_lockEvents_cases (s : State L) (t : Tid) (l l' : L) (pc : Pc) :
    (s.lockEvents t l pc).filterMap (commitOf l') = [] ∨
      (Mark.commit ∈ (lockStep t (s.lock l) s.qnodes pc).marks ∧
        (s.lockEvents t l pc).filterMap (commitOf l') = [⟨t, s.calls t⟩]) := by
  by_cases hl : l' = l
  · subst hl
    rw [commitOf_lockEvents]
    rcases lockStep_marks t (s.lock l') s.qnodes pc with hm | hm | hm | hm <;> simp [hm]
  · exact Or.inl (commitOf_lockEvents_of_ne hl)

/-- What the history says about a call that has committed: it is the current
one of its thread only while that thread is behind the commit. -/
structure Once (es : List (Event L)) (s : State L) : Prop where
  nodup : ∀ l, (es.filterMap (commitOf l)).Nodup
  seq_le : ∀ l, ∀ c ∈ es.filterMap (commitOf l), c.seq ≤ s.calls c.tid
  committed : ∀ l, ∀ c ∈ es.filterMap (commitOf l), c.seq = s.calls c.tid →
    ∀ l' pc, s.thread c.tid = .locking l' pc → pc.committed = true

theorem Once.step_lock (h : Once es s) (hpc : s.thread t = .locking l pc) :
    Once (es ++ s.lockEvents t l pc) (s.lockStep t l pc) := by
  have hcalls : (s.lockStep t l pc).calls = s.calls := rfl
  -- what is new in the history is the current call of `t`, at its commit
  have hnew : ∀ l' c, c ∈ (s.lockEvents t l pc).filterMap (commitOf l') →
      c = ⟨t, s.calls t⟩ ∧ Mark.commit ∈ (lockStep t (s.lock l) s.qnodes pc).marks := by
    intro l' c hc
    rcases commitOf_lockEvents_cases s t l l' pc with he | ⟨hm, he⟩
    · simp [he] at hc
    · exact ⟨by simpa [he] using hc, hm⟩
  refine ⟨fun l' => ?_, fun l' c hc => ?_, fun l' c hc hseq l₁ pc₁ hpc₁ => ?_⟩
  · rw [List.filterMap_append]
    rcases commitOf_lockEvents_cases s t l l' pc with he | ⟨hm, he⟩
    · rw [he, List.append_nil]
      exact h.nodup l'
    · -- a thread that is behind its commit does not commit
      have hnot : (⟨t, s.calls t⟩ : Call) ∉ es.filterMap (commitOf l') := fun hmem =>
        commit_notMem_of_committed (h.committed l' _ hmem rfl l pc hpc) hm
      rw [he]
      simpa using List.Nodup.concat hnot (h.nodup l')
  · rw [List.filterMap_append, List.mem_append] at hc
    rcases hc with hc | hc
    · exact h.seq_le l' c hc
    · obtain ⟨rfl, -⟩ := hnew l' c hc
      exact le_rfl
  · rw [List.filterMap_append, List.mem_append] at hc
    by_cases hct : c.tid = t
    · rw [hct] at hpc₁
      simp only [State.lockStep, Function.update_self] at hpc₁
      cases hn : (lockStep t (s.lock l) s.qnodes pc).next with
      | none => simp [hn] at hpc₁
      | some pc' =>
          obtain rfl : pc' = pc₁ := by
            rw [hn] at hpc₁
            exact (Thread.locking.inj hpc₁).2
          -- behind the commit before the step, or by it
          refine lockStep_committed ?_ hn
          rcases hc with hc | hc
          · exact Or.inl (h.committed l' c hc hseq l pc (by rw [hct]; exact hpc))
          · exact Or.inr (hnew l' c hc).2
    · have hold : s.thread c.tid = .locking l₁ pc₁ := by
        simpa [State.lockStep, hct] using hpc₁
      rcases hc with hc | hc
      · exact h.committed l' c hc hseq l₁ pc₁ hold
      · exact absurd (by rw [(hnew l' c hc).1]) hct

/-- The other steps emit nothing. -/
theorem Once.step_silent (h : Once es s) (hcalls : ∀ u, s.calls u ≤ s'.calls u)
    (hthread : ∀ u l pc, s'.thread u = .locking l pc → s'.calls u = s.calls u →
      s.thread u = .locking l pc) : Once es s' where
  nodup := h.nodup
  seq_le l c hc := (h.seq_le l c hc).trans (hcalls c.tid)
  committed l c hc hseq l' pc hpc := by
    have heq : s'.calls c.tid = s.calls c.tid :=
      le_antisymm (hseq ▸ h.seq_le l c hc) (hcalls c.tid)
    exact h.committed l c hc (hseq.trans heq) l' pc (hthread c.tid l' pc hpc heq)

theorem Once.step (h : Once es s) (hs : Step s e s') : Once (es ++ e) s' := by
  cases hs with
  | lock t l pc hpc => exact h.step_lock hpc
  | call t l hidle =>
      rw [List.append_nil]
      -- the new call has a number of its own
      refine h.step_silent (fun u => ?_) fun u l' pc hu hseq => ?_
      · by_cases hut : u = t
        · simp [State.callLock, hut]
        · simp [State.callLock, hut]
      · have hut : u ≠ t := by
          rintro rfl
          simp [State.callLock] at hseq
        simpa [State.callLock, hut] using hu
  | unlock t l hidle hheld =>
      rw [List.append_nil]
      refine h.step_silent (fun u => le_rfl) fun u l' pc hu _ => ?_
      have hut : u ≠ t := by
        rintro rfl
        simp [State.callUnlock] at hu
      simpa [State.callUnlock, hut] using hu
  | store t l hpc =>
      rw [List.append_nil]
      refine h.step_silent (fun u => le_rfl) fun u l' pc hu _ => ?_
      have hut : u ≠ t := by
        rintro rfl
        simp [State.unlockStore] at hu
      simpa [State.unlockStore, hut] using hu

theorem Run.once (hrun : Lib.Run Step (State.init L) es s) : Once es s :=
  Lib.Run.invariant (I := Once) ⟨fun l => List.nodup_nil, by simp, by simp⟩
    (fun _ _ _ _ h hs => h.step hs) hrun

/-! ### First come, first served -/

/-- Both calls have an event that `f` reads, and that of `c` comes first. -/
def Before (f : Event L → Option Call) (es : List (Event L)) (c d : Call) : Prop :=
  [c, d].Sublist (es.filterMap f)

/-- **First come, first served.**  In every run, of two calls on the same lock
the one that commits first acquires the lock first: when the later one has
acquired it, the earlier one has done so before. -/
theorem first_come_first_served (hrun : Lib.Run Step (State.init L) es s) (l : L) {c d : Call}
    (hcd : Before (commitOf l) es c d) (hd : d ∈ es.filterMap (acquireOf l)) :
    Before (acquireOf l) es c d := by
  obtain ⟨ρ, -, heq⟩ := Run.commits_eq hrun
  have hpre : es.filterMap (acquireOf l) <+: es.filterMap (commitOf l) := by
    rw [heq l]
    exact List.prefix_append _ _
  exact Lib.fifo_of_served ((Run.once hrun).nodup l) hpre hcd hd

/-- Thread 0 locks and unlocks, then thread 1 locks. -/
theorem first_come_first_served_twoCalls : ∃ es s, Lib.Run Step (State.init Unit) es s ∧
    Before (acquireOf ()) es ⟨0, 1⟩ ⟨1, 1⟩ := by
  have hstart : Lib.Run Step (State.init Unit) [] (State.init Unit) := .refl
  have hrun := (((((hstart.tail (Step.call 0 () rfl)).tail
    (Step.lock 0 () .cmpxchg rfl)).tail (Step.unlock 0 () rfl rfl)).tail
    (Step.store 0 () rfl)).tail (Step.call 1 () rfl)).tail (Step.lock 1 () .cmpxchg rfl)
  refine ⟨_, _, hrun, first_come_first_served hrun () ?_ ?_⟩
  · show List.Sublist _ _
    decide +kernel
  · decide +kernel

end MyTests.QueuedSpin
