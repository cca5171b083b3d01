/-
MyTests/QueuedSpin/Order.lean

The queued spinlock refines a line of waiting calls.

`Line` is the lock as its users see it: who has it, and who is served next.  A
commit joins the line at its end; the lock is given to the head of the line
when nobody has it.  `Roles.line` reads a line off the roles: the pending owner
stands before the queue, and the head of the queue leaves the line when it
takes the lock, although it stays in the queue until it hands over.

`Inv.step` is the step theorem: one access of any thread keeps the invariant
and performs its marks on the line.
-/
import MyTests.QueuedSpin.Transitions

namespace MyTests.QueuedSpin

open Lib

/-! ### The abstract lock -/

/-- Who has the lock, and who waits, first come first. -/
structure Line where
  owner : Option Tid
  waiting : List Tid

/-- The mark of a step of `t` on the line; `none` where a line does not allow
it. -/
def Line.mark (t : Tid) (ℓ : Line) : Mark → Option Line
  | .commit => some { ℓ with waiting := ℓ.waiting ++ [t] }
  | .acquire =>
      if ℓ.owner = none ∧ ℓ.waiting.head? = some t then some ⟨some t, ℓ.waiting.tail⟩ else none

/-- The marks of one step, in order. -/
def Line.marks (t : Tid) (ℓ : Line) (ms : List Mark) : Option Line := ms.foldlM (Line.mark t) ℓ

/-- Thread `u` is at a program point of class `p`. -/
def inClass (p : Pc → Bool) (pcs : Tid → Option Pc) (u : Tid) : Bool := (pcs u).any p

/-- The line behind the roles. -/
def Roles.line (r : Roles) (v : View) : Line where
  owner := r.owner
  waiting := (r.pender.filter (inClass Pc.pendingOwner v.pc)).toList
    ++ r.queue.filter fun u => !inClass Pc.acquired v.pc u

variable {v : View} {r : Roles} {t : Tid} {pc pc' : Pc}

/-- A step keeps the invariant and performs its marks on the line. -/
def Refines (v : View) (r : Roles) (t : Tid) (ms : List Mark) (v' : View) : Prop :=
  ∃ r', Inv v' r' ∧ (r.line v).marks t ms = some (r'.line v')

/-- A move within a class does not change who is in the class. -/
theorem inClass_update_any {pcs : Tid → Option Pc} {p : Pc → Bool} {o : Option Pc}
    (hp : o.any p = (pcs t).any p) : inClass p (Function.update pcs t o) = inClass p pcs := by
  funext u
  unfold inClass
  by_cases hut : u = t
  · subst hut
    simpa using hp
  · simp [hut]

theorem inClass_update {pcs : Tid → Option Pc} {p : Pc → Bool} {o : Option Pc}
    (hpc : pcs t = some pc) (hp : o.any p = p pc) :
    inClass p (Function.update pcs t o) = inClass p pcs :=
  inClass_update_any (by rw [hp, hpc]; rfl)

theorem inClass_update_self {pcs : Tid → Option Pc} {p : Pc → Bool} {o : Option Pc} :
    inClass p (Function.update pcs t o) t = o.any p := by
  simp [inClass]

theorem Roles.line_congr {v' : View} {r' : Roles} (ho : r'.owner = r.owner)
    (hp : r'.pender = r.pender) (hq : r'.queue = r.queue)
    (hpo : inClass Pc.pendingOwner v'.pc = inClass Pc.pendingOwner v.pc)
    (ha : inClass Pc.acquired v'.pc = inClass Pc.acquired v.pc) : r'.line v' = r.line v := by
  simp only [Roles.line, ho, hp, hq, hpo, ha]

/-- The step lemma of the accesses that keep the roles. -/
theorem Inv.refines_quiet (h : Inv v r) (pc' : Pc) (n : McsSpinlock) (hpc : v.pc t = some pc)
    (ha : pc'.acquired = pc.acquired) (hp : pc'.pending = pc.pending)
    (hq : pc'.queued = pc.queued) (ho : pc'.pendingOwner = pc.pendingOwner)
    (hc : pc.queueing = true → pc'.queueing = true)
    (hl : ∀ p, pc ≠ .link p) (hl' : ∀ p, pc' ≠ .link p)
    (hn : pc.queued = true → n = v.nodes t)
    (hcount : n.count = if pc'.counted then 1 else 0)
    (hok : PcOk { v with pc := Function.update v.pc t (some pc')
                         nodes := Function.update v.nodes t n } r t pc') :
    Refines v r t [] { v with pc := Function.update v.pc t (some pc')
                              nodes := Function.update v.nodes t n } := by
  refine ⟨r, h.quiet hpc ha hp hq (ho ▸ id) hc hl hl' hn hcount hok, ?_⟩
  refine congrArg some (Roles.line_congr rfl rfl rfl ?_ ?_).symm
  · exact inClass_update hpc ho
  · exact inClass_update hpc ha

/-- The accesses that change nothing but the program point. -/
theorem Inv.refines_move (h : Inv v r) (hpc : v.pc t = some pc)
    (ha : pc'.acquired = pc.acquired) (hp : pc'.pending = pc.pending)
    (hq : pc'.queued = pc.queued) (ho : pc'.pendingOwner = pc.pendingOwner)
    (hc : pc.queueing = true → pc'.queueing = true)
    (hl : ∀ p, pc ≠ .link p) (hl' : ∀ p, pc' ≠ .link p) (hcount : pc'.counted = pc.counted)
    (hok : PcOk { v with pc := Function.update v.pc t (some pc') } r t pc') :
    Refines v r t [] { v with pc := Function.update v.pc t (some pc') } := by
  have hn : Function.update v.nodes t (v.nodes t) = v.nodes := Function.update_eq_self t v.nodes
  have hquiet := h.refines_quiet pc' (v.nodes t) hpc ha hp hq ho hc hl hl' (fun _ => rfl)
    (by rw [h.count t pc hpc, hcount]) (by rwa [hn])
  rwa [hn] at hquiet

/-! ### The step lemma, path by path -/

/-- The step of `t` at `pc` keeps the invariant and performs its marks. -/
def StepRefines (v : View) (r : Roles) (t : Tid) (pc : Pc) : Prop :=
  Refines v r t (QueuedSpin.lockStep t v.word v.nodes pc).marks (v.step t pc)

theorem checkContention_cases (val : BitVec 32) :
    checkContention val = .incCount ∨ checkContention val = .fetchSetPending := by
  unfold checkContention
  split
  · exact Or.inl rfl
  · exact Or.inr rfl

theorem slowpathEntry_cases (val : BitVec 32) :
    slowpathEntry val = .condRead qPendingLoops ∨ slowpathEntry val = .incCount ∨
      slowpathEntry val = .fetchSetPending := by
  unfold slowpathEntry
  split
  · exact Or.inl rfl
  · exact Or.inr (checkContention_cases val)

/-- The line of a lock with word 0 is empty. -/
theorem Inv.line_of_zero (h : Inv v r) (hw : v.word = ⟨0, 0, 0⟩) : r.line v = ⟨none, []⟩ := by
  obtain rfl : r = ⟨none, none, []⟩ := Roles.word_eq_zero.mp (h.word.symm.trans hw)
  rfl

theorem Line.marks_commit_acquire :
    (⟨none, []⟩ : Line).marks t [.commit, .acquire] = some ⟨some t, []⟩ := by
  simp [Line.marks, Line.mark]

theorem Inv.step_cmpxchg (h : Inv v r) (hpc : v.pc t = some .cmpxchg) :
    StepRefines v r t .cmpxchg := by
  unfold StepRefines View.step
  simp only [lockStep]
  split
  · rename_i hw
    rw [Qspinlock.val_eq_zero] at hw
    refine ⟨⟨some t, none, []⟩, ?_, ?_⟩
    · rw [Qspinlock.ofVal_qLockedVal]
      exact h.acquireFast hw hpc (Or.inl ⟨rfl, rfl, rfl⟩)
    · rw [h.line_of_zero hw]
      exact Line.marks_commit_acquire
  · rcases slowpathEntry_cases v.word.val with e | e | e <;> rw [e] <;>
      exact h.refines_move hpc rfl rfl rfl rfl (by simp [Pc.queueing]) (by simp) (by simp) rfl
        trivial

theorem Inv.step_condRead (h : Inv v r) {cnt : ℕ} (hpc : v.pc t = some (.condRead cnt)) :
    StepRefines v r t (.condRead cnt) := by
  unfold StepRefines View.step
  simp only [lockStep]
  split
  · rcases checkContention_cases v.word.val with e | e <;> rw [e] <;>
      exact h.refines_move hpc rfl rfl rfl rfl (by simp [Pc.queueing]) (by simp) (by simp) rfl
        trivial
  · exact h.refines_move hpc rfl rfl rfl rfl (by simp [Pc.queueing]) (by simp) (by simp) rfl
      trivial

theorem Inv.step_trylockRead (h : Inv v r) (hpc : v.pc t = some .trylockRead) :
    StepRefines v r t .trylockRead := by
  unfold StepRefines View.step
  simp only [lockStep]
  have hok := h.pcOk t _ hpc
  split <;>
    exact h.refines_move hpc rfl rfl rfl rfl (by simp [Pc.queueing]) (by simp) (by simp) rfl hok

theorem Inv.step_trylockCmpxchg (h : Inv v r) (hpc : v.pc t = some .trylockCmpxchg) :
    StepRefines v r t .trylockCmpxchg := by
  unfold StepRefines View.step
  simp only [lockStep]
  have hok := h.pcOk t _ hpc
  split
  · rename_i hw
    rw [Qspinlock.val_eq_zero] at hw
    refine ⟨⟨some t, none, []⟩, ?_, ?_⟩
    · rw [Qspinlock.ofVal_qLockedVal]
      exact h.acquireFast hw hpc (Or.inr ⟨rfl, rfl, rfl⟩)
    · rw [h.line_of_zero hw]
      exact Line.marks_commit_acquire
  · exact h.refines_move hpc rfl rfl rfl rfl (by simp [Pc.queueing]) (by simp) (by simp) rfl hok

/-! The pending bit. -/

/-- What the sub-words say about the roles. -/
theorem Inv.pending_eq_zero (h : Inv v r) : v.word.pending = 0 ↔ r.pender = none := by
  rw [h.word]
  exact flag_isSome_eq_zero

theorem Inv.locked_eq_zero (h : Inv v r) : v.word.locked = 0 ↔ r.owner = none := by
  rw [h.word]
  exact flag_isSome_eq_zero

theorem Inv.tail_eq_zero (h : Inv v r) : v.word.tail = 0 ↔ r.queue = [] := by
  rw [h.word]
  exact queueTail_eq_zero

theorem Inv.pending_or_one (h : Inv v r) : v.word.pending ||| 1 = 1 := by
  rw [h.word]
  exact flag_or_one _

theorem Inv.pending_eq_one (h : Inv v r) (hp : v.word.pending ≠ 0) : v.word.pending = 1 := by
  rw [h.word] at hp ⊢
  obtain ⟨o, _ | u, q⟩ := r
  · exact absurd rfl hp
  · rfl

theorem Inv.step_fetchSetPending (h : Inv v r) (hpc : v.pc t = some .fetchSetPending) :
    StepRefines v r t .fetchSetPending := by
  unfold StepRefines View.step
  simp only [lockStep, Qspinlock.ofVal_or_qPendingVal, h.pending_or_one]
  by_cases hcont : v.word.val &&& ~~~qLockedMask = 0
  · -- no contention: pending is set for good
    obtain ⟨hp, hq⟩ := (Qspinlock.and_not_qLockedMask _).mp hcont
    have hpender := h.pending_eq_zero.mp hp
    have hqueue := h.tail_eq_zero.mp hq
    simp only [hcont, ne_eq, not_true_eq_false, if_false]
    split
    · refine ⟨_, h.setPending hpc hpender rfl (fun _ => hqueue) (by simp), ?_⟩
      simp [Roles.line, hpender, hqueue, Line.marks, Line.mark, Option.filter_some,
        inClass_update_self, Pc.pendingOwner]
    · rename_i hl
      have howner := h.locked_eq_zero.mp ((Qspinlock.and_qLockedMask _).mp (not_not.mp hl))
      refine ⟨_, h.setPending hpc hpender rfl (fun _ => hqueue) (fun _ => howner), ?_⟩
      simp [Roles.line, hpender, hqueue, Line.marks, Line.mark, Option.filter_some,
        inClass_update_self, Pc.pendingOwner]
  · simp only [hcont, ne_eq, not_false_eq_true, if_true]
    by_cases hp : v.word.val &&& qPendingMask = 0
    · -- pending is set by mistake, in front of a queue
      have hpender := h.pending_eq_zero.mp ((Qspinlock.and_qPendingMask _).mp hp)
      simp only [hp, if_true]
      refine ⟨_, h.setPending hpc hpender rfl (by simp [Pc.pendingOwner]) (by simp), ?_⟩
      refine congrArg some ?_
      have ha : inClass Pc.acquired (Function.update v.pc t (some .clearPending)) = _ :=
        inClass_update hpc rfl
      simp [Roles.line, hpender, ha, Option.filter_some, inClass_update_self, Pc.pendingOwner]
    · -- somebody else has set it, and will take care of it
      simp only [hp, if_false]
      have hone := h.pending_eq_one (mt (Qspinlock.and_qPendingMask _).mpr hp)
      have hw : { v.word with pending := 1 } = v.word := by rw [← hone]
      rw [hw]
      exact h.refines_move hpc rfl rfl rfl rfl (by simp [Pc.queueing]) (by simp) (by simp) rfl
        trivial

theorem Inv.step_clearPending (h : Inv v r) (hpc : v.pc t = some .clearPending) :
    StepRefines v r t .clearPending := by
  refine ⟨_, h.clearPending hpc, congrArg some ?_⟩
  have hpender : r.pender = some t := (h.pender t).mpr ⟨_, hpc, rfl⟩
  have ha : inClass Pc.acquired (Function.update v.pc t (some .incCount)) = _ :=
    inClass_update hpc rfl
  -- the bit was set by mistake, so its thread was never in the line for it
  have hpo : inClass Pc.pendingOwner v.pc t = false := by simp [inClass, hpc, Pc.pendingOwner]
  simp [Roles.line, View.step, lockStep, hpender, ha, hpo, Option.filter_some]

theorem Inv.step_waitUnlocked (h : Inv v r) (hpc : v.pc t = some .waitUnlocked) :
    StepRefines v r t .waitUnlocked := by
  unfold StepRefines View.step
  simp only [lockStep]
  split
  · rename_i hl
    exact h.refines_move hpc rfl rfl rfl rfl (by simp [Pc.queueing]) (by simp) (by simp) rfl
      (h.locked_eq_zero.mp ((Qspinlock.and_qLockedMask _).mp hl))
  · exact h.refines_move hpc rfl rfl rfl rfl (by simp [Pc.queueing]) (by simp) (by simp) rfl
      trivial

theorem Inv.step_clearPendingSetLocked (h : Inv v r)
    (hpc : v.pc t = some .clearPendingSetLocked) :
    StepRefines v r t .clearPendingSetLocked := by
  refine ⟨_, h.takePending hpc, ?_⟩
  have hpender : r.pender = some t := (h.pender t).mpr ⟨_, hpc, rfl⟩
  have howner : r.owner = none := h.pcOk t _ hpc
  have ha : inClass Pc.acquired (Function.update v.pc t none) = _ := inClass_update hpc rfl
  have hpo : inClass Pc.pendingOwner v.pc t = true := by simp [inClass, hpc, Pc.pendingOwner]
  simp [Roles.line, View.step, lockStep, Line.marks, Line.mark, hpender, howner, ha, hpo,
    Option.filter_some]

/-! The queue. -/

theorem Inv.step_incCount (h : Inv v r) (hpc : v.pc t = some .incCount) :
    StepRefines v r t .incCount := by
  have hcount : (v.nodes t).count = 0 := h.count t _ hpc
  unfold StepRefines View.step
  simp only [lockStep, hcount]
  exact h.refines_quiet .initLocked { v.nodes t with count := 0 + 1 } hpc
    rfl rfl rfl rfl (by simp [Pc.queueing]) (by simp) (by simp) (by simp [Pc.queued]) rfl trivial

theorem Inv.step_initLocked (h : Inv v r) (hpc : v.pc t = some .initLocked) :
    StepRefines v r t .initLocked := by
  have hcount : (v.nodes t).count = 1 := h.count t _ hpc
  exact h.refines_quiet .initNext { v.nodes t with locked := 0 } hpc
    rfl rfl rfl rfl (by simp [Pc.queueing]) (by simp) (by simp) (by simp [Pc.queued])
    hcount (by simp [PcOk])

theorem Inv.step_initNext (h : Inv v r) (hpc : v.pc t = some .initNext) :
    StepRefines v r t .initNext := by
  have hcount : (v.nodes t).count = 1 := h.count t _ hpc
  have hlocked : (v.nodes t).locked = 0 := h.pcOk t _ hpc
  exact h.refines_quiet .trylockRead { v.nodes t with next := none } hpc
    rfl rfl rfl rfl (by simp [Pc.queueing]) (by simp) (by simp) (by simp [Pc.queued])
    hcount (by simp [PcOk, hlocked])

/-- The tail half-word that `xchg_tail` gets back. -/
theorem Inv.afterXchgTail_cases (h : Inv v r) :
    (∃ prev, r.queue.getLast? = some prev ∧ afterXchgTail (tailWord v.word.tail) = .link prev) ∨
      r.queue = [] ∧ afterXchgTail (tailWord v.word.tail) = .waitHead none := by
  have htail : v.word.tail = queueTail r.queue := by rw [h.word]; rfl
  cases hq : r.queue.getLast? with
  | none =>
      rw [List.getLast?_eq_none_iff] at hq
      refine Or.inr ⟨hq, ?_⟩
      rw [htail, hq]
      rfl
  | some prev =>
      refine Or.inl ⟨prev, rfl, ?_⟩
      rw [htail, queueTail_eq_tailOf.mpr hq]
      simp only [afterXchgTail, decodeTail_tailWord]
      exact if_pos (tailWord_and_qTailMask prev)

theorem Inv.step_xchgTail (h : Inv v r) (hpc : v.pc t = some .xchgTail) :
    StepRefines v r t .xchgTail := by
  have hcases := h.afterXchgTail_cases
  refine ⟨_, h.enqueue hpc hcases, ?_⟩
  have hcls : (afterXchgTail (tailWord v.word.tail)).acquired = false ∧
      (afterXchgTail (tailWord v.word.tail)).pendingOwner = false := by
    rcases hcases with ⟨prev, -, e⟩ | ⟨-, e⟩ <;> rw [e] <;> exact ⟨rfl, rfl⟩
  have ha : inClass Pc.acquired
      (Function.update v.pc t (some (afterXchgTail (tailWord v.word.tail)))) = _ :=
    inClass_update hpc hcls.1
  have hpo : inClass Pc.pendingOwner
      (Function.update v.pc t (some (afterXchgTail (tailWord v.word.tail)))) = _ :=
    inClass_update hpc hcls.2
  have hat : inClass Pc.acquired v.pc t = false := by simp [inClass, hpc, Pc.acquired]
  simp [Roles.line, View.step, lockStep, Line.marks, Line.mark, ha, hpo, hat]

theorem Inv.step_link (h : Inv v r) {prev : Tid} (hpc : v.pc t = some (.link prev)) :
    StepRefines v r t (.link prev) := by
  refine ⟨_, h.link hpc, ?_⟩
  refine congrArg some (Roles.line_congr rfl rfl rfl ?_ ?_).symm
  · exact inClass_update hpc rfl
  · exact inClass_update hpc rfl

theorem Inv.step_waitNode (h : Inv v r) (hpc : v.pc t = some .waitNode) :
    StepRefines v r t .waitNode := by
  have hok := h.pcOk t _ hpc
  unfold StepRefines View.step
  simp only [lockStep]
  split
  · rename_i hl
    exact h.refines_move hpc rfl rfl rfl rfl (by simp [Pc.queueing]) (by simp) (by simp) rfl
      (hok.mp hl)
  · exact h.refines_move hpc rfl rfl rfl rfl (by simp [Pc.queueing]) (by simp) (by simp) rfl hok

theorem Inv.step_readNext (h : Inv v r) (hpc : v.pc t = some .readNext) :
    StepRefines v r t .readNext :=
  h.refines_move hpc rfl rfl rfl rfl (by simp [Pc.queueing]) (by simp) (by simp) rfl
    ⟨h.pcOk t _ hpc, Or.inr rfl⟩

/-! The head of the queue. -/

theorem Inv.step_waitHead (h : Inv v r) {next : Option Tid}
    (hpc : v.pc t = some (.waitHead next)) : StepRefines v r t (.waitHead next) := by
  obtain ⟨hhead, hnext⟩ := h.pcOk t _ hpc
  unfold StepRefines View.step
  simp only [lockStep]
  split
  · -- the lock is free and nobody is pending
    rename_i hw
    obtain ⟨hl, hp⟩ := (Qspinlock.and_qLockedPendingMask _).mp hw
    have howner := h.locked_eq_zero.mp hl
    have hpender := h.pending_eq_zero.mp hp
    have hno : NoPendingOwner v := by
      intro u pcu hu
      have hpu := h.pender u
      rw [hpender] at hpu
      cases pcu <;> simp_all [Pc.pendingOwner, Pc.pending]
    have htail : v.word.tail = queueTail r.queue := by rw [h.word]; rfl
    unfold afterWaitHead
    split
    · -- the head is the last in the queue too: it will try to clear the tail
      rename_i he
      have hlast := (Qspinlock.and_qTailMask_eq_encodeTail _ _).mp he
      refine h.refines_move hpc rfl rfl rfl rfl (by simp [Pc.queueing]) (by simp) (by simp) rfl
        ⟨hhead, hnext, howner, hno.update rfl (by simp [Pc.pendingOwner]), ?_⟩
      rw [encodeTail_eq, ← hlast, Qspinlock.val_inj]
      exact congrArg₂ (Qspinlock.mk · · v.word.tail) hl hp
    · -- somebody is behind it
      rename_i he
      have hlast := mt (Qspinlock.and_qTailMask_eq_encodeTail _ _).mpr he
      rw [htail] at hlast
      refine h.refines_move hpc rfl rfl rfl rfl (by simp [Pc.queueing]) (by simp) (by simp) rfl
        ⟨hhead, hnext, howner, hno.update rfl (by simp [Pc.pendingOwner]), Or.inl ?_⟩
      exact two_le_of_queueTail hhead hlast
  · exact h.refines_move hpc rfl rfl rfl rfl (by simp [Pc.queueing]) (by simp) (by simp) rfl
      ⟨hhead, hnext⟩

/-- The compare-and-swap of the head fails only in front of a follower. -/
theorem Inv.followed_of_claim (h : Inv v r) {val : BitVec 32} {next : Option Tid}
    (hpc : v.pc t = some (.claim val next)) (hw : v.word.val ≠ val) : Followed v r := by
  obtain ⟨hhead, -, howner, hno, rfl⟩ := h.pcOk t _ hpc
  by_cases htail : queueTail r.queue = tailOf t
  · -- then pending must be set, by a thread that came too late
    rw [encodeTail_eq, ne_eq, Qspinlock.val_inj, h.word, Roles.word, howner, htail] at hw
    obtain ⟨u, hu⟩ : ∃ u, r.pender = some u := by
      rw [← Option.ne_none_iff_exists']
      rintro e
      exact hw (by rw [e]; rfl)
    obtain ⟨pcu, hpcu, hpend⟩ := (h.pender u).mp hu
    have hpo := hno u pcu hpcu
    exact Or.inr ⟨u, pcu, hpcu, by cases pcu <;> simp_all [Pc.pending, Pc.pendingOwner, Pc.queueing]⟩
  · exact Or.inl (two_le_of_queueTail hhead htail)

theorem NoPendingOwner.filter_eq_none (hno : NoPendingOwner v) (o : Option Tid) :
    o.filter (inClass Pc.pendingOwner v.pc) = none := by
  rw [Option.filter_eq_none_iff]
  intro u _ hu
  obtain ⟨pc, hpc, hp⟩ := (Option.any_eq_true _ _).mp hu
  simp [hno u pc hpc] at hp

/-- A thread that is not queued does not show in the waiting part of the
queue. -/
theorem filter_inClass_update {pcs : Tid → Option Pc} {p : Pc → Bool} {o : Option Pc}
    {q : List Tid} (ht : t ∉ q) :
    q.filter (fun u => !inClass p (Function.update pcs t o) u)
      = q.filter fun u => !inClass p pcs u := by
  refine List.filter_congr fun u hu => ?_
  have hut : u ≠ t := fun e => ht (e ▸ hu)
  simp [inClass, hut]

theorem Inv.step_claim (h : Inv v r) {val : BitVec 32} {next : Option Tid}
    (hpc : v.pc t = some (.claim val next)) : StepRefines v r t (.claim val next) := by
  obtain ⟨hhead, hnext, howner, hno, hval⟩ := h.pcOk t _ hpc
  unfold StepRefines View.step
  simp only [lockStep]
  split
  · rename_i hw
    refine ⟨⟨some t, none, []⟩, ?_, ?_⟩
    · rw [Qspinlock.ofVal_qLockedVal]
      exact h.claim hpc hw
    · have hq : r.queue = [t] := by
        rw [hval, encodeTail_eq, Qspinlock.val_inj, h.word] at hw
        exact eq_singleton_of_queueTail h.nodup hhead (congrArg Qspinlock.tail hw)
      have hat : inClass Pc.acquired v.pc t = false := by simp [inClass, hpc, Pc.acquired]
      simp [Roles.line, hno.filter_eq_none, hq, howner, hat, Line.marks, Line.mark]
  · rename_i hw
    refine h.refines_move hpc rfl rfl rfl rfl (by simp [Pc.queueing]) (by simp) (by simp) rfl
      ⟨hhead, hnext, howner, hno.update rfl (by simp [Pc.pendingOwner]), ?_⟩
    exact (h.followed_of_claim hpc hw).update hpc rfl le_rfl (by simp [Pc.queueing])

theorem Inv.step_setLocked (h : Inv v r) {next : Option Tid}
    (hpc : v.pc t = some (.setLocked next)) : StepRefines v r t (.setLocked next) := by
  refine ⟨_, h.setLocked hpc, ?_⟩
  obtain ⟨hhead, hnext, howner, hno, hfol⟩ := h.pcOk t _ hpc
  obtain ⟨rest, hq⟩ : ∃ rest, r.queue = t :: rest := List.head?_eq_some_iff.mp hhead
  have hrest : t ∉ rest := (List.nodup_cons.mp (hq ▸ h.nodup)).1
  have hcls : (afterSetLocked next).acquired = true ∧ (afterSetLocked next).pendingOwner = false := by
    cases next <;> exact ⟨rfl, rfl⟩
  have hpo : inClass Pc.pendingOwner (Function.update v.pc t (some (afterSetLocked next))) = _ :=
    inClass_update hpc hcls.2
  have hat : inClass Pc.acquired v.pc t = false := by simp [inClass, hpc, Pc.acquired]
  simp [Roles.line, View.step, lockStep, hpo, hno.filter_eq_none, hq, howner, hat, Line.marks,
    Line.mark, filter_inClass_update hrest, inClass_update_self, hcls.1]

theorem Inv.step_waitNext (h : Inv v r) (hpc : v.pc t = some .waitNext) :
    StepRefines v r t .waitNext := by
  obtain ⟨hhead, hfol⟩ := h.pcOk t _ hpc
  unfold StepRefines View.step
  simp only [lockStep]
  cases hn : (v.nodes t).next with
  | none =>
      exact h.refines_move hpc rfl rfl rfl rfl (by simp [Pc.queueing]) (by simp)
        (by simp [afterSetLocked]) rfl
        ⟨hhead, hfol.update hpc rfl le_rfl (by simp [Pc.queueing])⟩
  | some n =>
      exact h.refines_move hpc rfl rfl rfl rfl (by simp [Pc.queueing]) (by simp)
        (by simp [afterSetLocked]) rfl ⟨hhead, hn⟩

theorem Inv.step_handOver (h : Inv v r) {n : Tid} (hpc : v.pc t = some (.handOver n)) :
    StepRefines v r t (.handOver n) := by
  refine ⟨_, h.handOver hpc, congrArg some ?_⟩
  obtain ⟨hhead, -⟩ := h.pcOk t _ hpc
  obtain ⟨rest, hq⟩ : ∃ rest, r.queue = t :: rest := List.head?_eq_some_iff.mp hhead
  have hpo : inClass Pc.pendingOwner (Function.update v.pc t (some .release)) = _ :=
    inClass_update hpc rfl
  have ha : inClass Pc.acquired (Function.update v.pc t (some .release)) = _ :=
    inClass_update hpc rfl
  have hat : inClass Pc.acquired v.pc t = true := by simp [inClass, hpc, Pc.acquired]
  simp [Roles.line, View.step, lockStep, hpo, ha, hq, hat]

theorem Inv.step_release (h : Inv v r) (hpc : v.pc t = some .release) :
    StepRefines v r t .release := by
  refine ⟨_, h.release hpc, congrArg some ?_⟩
  have hpo : inClass Pc.pendingOwner (Function.update v.pc t none) = _ := inClass_update hpc rfl
  have htq : t ∉ r.queue := by
    rw [h.queue t]
    simp [hpc, Pc.queued]
  simp [Roles.line, View.step, lockStep, hpo, filter_inClass_update htq]

/-- **One access keeps the invariant and performs its marks on the line.** -/
theorem Inv.step (h : Inv v r) (hpc : v.pc t = some pc) : StepRefines v r t pc := by
  cases pc with
  | cmpxchg => exact h.step_cmpxchg hpc
  | condRead cnt => exact h.step_condRead hpc
  | fetchSetPending => exact h.step_fetchSetPending hpc
  | clearPending => exact h.step_clearPending hpc
  | waitUnlocked => exact h.step_waitUnlocked hpc
  | clearPendingSetLocked => exact h.step_clearPendingSetLocked hpc
  | incCount => exact h.step_incCount hpc
  | initLocked => exact h.step_initLocked hpc
  | initNext => exact h.step_initNext hpc
  | trylockRead => exact h.step_trylockRead hpc
  | trylockCmpxchg => exact h.step_trylockCmpxchg hpc
  | xchgTail => exact h.step_xchgTail hpc
  | link prev => exact h.step_link hpc
  | waitNode => exact h.step_waitNode hpc
  | readNext => exact h.step_readNext hpc
  | waitHead next => exact h.step_waitHead hpc
  | claim val next => exact h.step_claim hpc
  | setLocked next => exact h.step_setLocked hpc
  | waitNext => exact h.step_waitNext hpc
  | handOver next => exact h.step_handOver hpc
  | release => exact h.step_release hpc
  | aborted => exact (h.pcOk t _ hpc).elim
  | assertFailed => exact (h.pcOk t _ hpc).elim

end MyTests.QueuedSpin
