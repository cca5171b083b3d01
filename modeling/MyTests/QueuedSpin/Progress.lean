/-
MyTests/QueuedSpin/Progress.lean

The queued spinlock does not get stuck.

The first part is about states: whenever somebody is inside
`queued_spin_lock(l)` and nobody has the lock to give back, some thread inside
can do more than re-read a spin condition that is still false
(`SysInv.not_stuck`), and a head that waits for `node->next` does so in front
of a follower (`SysInv.exists_follower`).

The second part is about runs: the wait for `node->next` ends
(`SysInv.linked`).  The variant is the number of accesses that a follower is
away from its store to `node->next`; another thread may overtake it in the
tail swap, but only to become the one that has to store.
-/
import MyTests.QueuedSpin.System
import MyTests.Lib.Fairness

namespace MyTests.QueuedSpin

open Lib

variable {L : Type} [DecidableEq L] {s s' : State L} {l l' : L} {t u : Tid} {pc pc' : Pc}
  {v : View} {r : Roles} {ρ : L → Roles}

/-! ### Spinning -/

/-- The next access of `t` is a read of a spin condition that is still false,
or there is none. -/
def spins (t : Tid) (w : Qspinlock) (nodes : Tid → McsSpinlock) : Pc → Prop
  | .condRead cnt => w.val = qPendingVal ∧ cnt ≠ 0
  | .waitUnlocked => w.val &&& qLockedMask ≠ 0
  | .waitNode => (nodes t).locked = 0
  | .waitHead _ => w.val &&& qLockedPendingMask ≠ 0
  | .waitNext => (nodes t).next = none
  | .aborted | .assertFailed => True
  | _ => False

/-- A thread of this view can do more than spin. -/
def View.Moves (v : View) : Prop := ∃ t pc, v.pc t = some pc ∧ ¬ spins t v.word v.nodes pc

theorem not_spins_of_queueing (h : pc.queueing = true) (nodes : Tid → McsSpinlock) (w : Qspinlock) :
    ¬ spins t w nodes pc := by
  cases pc <;> simp_all [spins, Pc.queueing]

/-- The successor of a head whose `next` is still `NULL` is about to write
it. -/
theorem Inv.link_of_adj (h : Inv v r) (hadj : Adj r.queue t u) (hnext : (v.nodes t).next = none) :
    v.pc u = some (.link t) := by
  by_contra hne
  have hlink : ∀ p, v.pc u ≠ some (.link p) := by
    intro p hp
    obtain ⟨hpu, -⟩ := h.pcOk u _ hp
    rw [hpu.left_unique h.nodup hadj] at hp
    exact hne hp
  simpa [hnext] using h.linked t u hadj hlink

theorem exists_adj_of_two_le {q : List Tid} (hhead : q.head? = some t) (hlen : 2 ≤ q.length) :
    ∃ u, Adj q t u := by
  rcases q with _ | ⟨x, _ | ⟨y, ys⟩⟩
  · simp at hhead
  · simp at hlen
  · obtain rfl : x = t := by simpa using hhead
    exact ⟨y, by simp [adj_cons]⟩

/-- Where the head waits for `next`, another thread is about to write it or on
the way to the queue. -/
theorem Inv.exists_linker (h : Inv v r) (hhead : r.queue.head? = some t) (hfol : Followed v r)
    (hnext : (v.nodes t).next = none) :
    ∃ u pc, v.pc u = some pc ∧ (pc = .link t ∨ pc.queueing = true) := by
  rcases hfol with hlen | ⟨u, pc, hu, hq⟩
  · obtain ⟨u, hadj⟩ := exists_adj_of_two_le hhead hlen
    exact ⟨u, _, h.link_of_adj hadj hnext, Or.inl rfl⟩
  · exact ⟨u, pc, hu, Or.inr hq⟩

/-- An owner that is still inside `queued_spin_lock` is not the reason to be
stuck. -/
theorem Inv.moves_of_acquired (h : Inv v r) (hpc : v.pc t = some pc) (ha : pc.acquired = true) :
    v.Moves := by
  cases pc with
  | waitNext =>
      obtain ⟨hhead, hfol⟩ := h.pcOk t _ hpc
      by_cases hnext : (v.nodes t).next = none
      · obtain ⟨u, pcu, hu, rfl | hq⟩ := h.exists_linker hhead hfol hnext
        · exact ⟨u, _, hu, id⟩
        · exact ⟨u, pcu, hu, not_spins_of_queueing hq _ _⟩
      · exact ⟨t, _, hpc, hnext⟩
  | handOver n => exact ⟨t, _, hpc, id⟩
  | release => exact ⟨t, _, hpc, id⟩
  | _ => simp [Pc.acquired] at ha

theorem Inv.moves_of_owner (h : Inv v r) (hheld : ∀ u, v.held u = false) (howner : r.owner = some t) :
    v.Moves := by
  rcases (h.owner t).mp howner with hh | ⟨pc, hpc, ha⟩
  · simp [hheld] at hh
  · exact h.moves_of_acquired hpc ha

theorem Inv.moves_of_pender (h : Inv v r) (hheld : ∀ u, v.held u = false)
    (hpender : r.pender = some t) : v.Moves := by
  obtain ⟨pc, hpc, hp⟩ := (h.pender t).mp hpender
  cases howner : r.owner with
  | some o => exact h.moves_of_owner hheld howner
  | none =>
      have hl := (Qspinlock.and_qLockedMask _).mpr (h.locked_eq_zero.mpr howner)
      refine ⟨t, pc, hpc, ?_⟩
      cases pc with
      | waitUnlocked => exact fun hs => hs hl
      | clearPending => exact id
      | clearPendingSetLocked => exact id
      | _ => simp [Pc.pending] at hp

theorem Inv.moves_of_head (h : Inv v r) (howner : r.owner = none) (hpender : r.pender = none)
    (hhead : r.queue.head? = some t) : v.Moves := by
  obtain ⟨pc, hpc, hq⟩ := (h.queue t).mp (List.mem_of_mem_head? hhead)
  have hlp := (Qspinlock.and_qLockedPendingMask _).mpr
    ⟨h.locked_eq_zero.mpr howner, h.pending_eq_zero.mpr hpender⟩
  have hok := h.pcOk t pc hpc
  cases pc with
  | waitNode => exact ⟨t, _, hpc, hok.mpr hhead⟩
  | waitHead next => exact ⟨t, _, hpc, fun hs => hs hlp⟩
  | waitNext => exact h.moves_of_acquired hpc rfl
  | link p => exact ⟨t, _, hpc, id⟩
  | readNext => exact ⟨t, _, hpc, id⟩
  | claim val next => exact ⟨t, _, hpc, id⟩
  | setLocked next => exact ⟨t, _, hpc, id⟩
  | handOver n => exact ⟨t, _, hpc, id⟩
  | _ => simp [Pc.queued] at hq

/-- **No state of a lock is stuck** while nobody has it to give back. -/
theorem Inv.moves (h : Inv v r) (hpc : v.pc t = some pc) (hheld : ∀ u, v.held u = false) :
    v.Moves := by
  cases hpender : r.pender with
  | some p => exact h.moves_of_pender hheld hpender
  | none =>
      cases howner : r.owner with
      | some o => exact h.moves_of_owner hheld howner
      | none =>
          cases hq : r.queue.head? with
          | some x => exact h.moves_of_head howner hpender hq
          | none =>
              -- nobody owns, pends or queues: the word is 0 and no spin waits for that
              rw [List.head?_eq_none_iff] at hq
              have hw : v.word = ⟨0, 0, 0⟩ := by
                rw [h.word, Roles.word, howner, hpender, hq]
                rfl
              have hnq : pc.queued = false := by
                simpa [hq, hpc] using h.queue t
              have hnp : pc.pending = false := by
                simpa [hpender, hpc] using h.pender t
              have hok := h.pcOk t pc hpc
              refine ⟨t, pc, hpc, ?_⟩
              cases pc with
              | condRead cnt =>
                  rintro ⟨hval, -⟩
                  rw [hw, Qspinlock.val_eq_qPendingVal] at hval
                  simp at hval
              | waitUnlocked | waitNode | waitHead | waitNext => simp [Pc.queued, Pc.pending] at hnq hnp
              | aborted | assertFailed => exact hok.elim
              | _ => exact id

/-! ### The head waits in front of a follower -/

/-- The head of the queue of `l` has lost the tail to another thread and is not
yet linked, or has just found its link. -/
def State.awaitsLink (s : State L) (t : Tid) (l : L) : Prop :=
  (∃ next, s.thread t = .locking l (.setLocked next)) ∨ s.thread t = .locking l .waitNext

/-- Thread `u` is queued on `l` or on the way into that queue. -/
def State.queuesOn (s : State L) (u : Tid) (l : L) : Prop :=
  ∃ pc, s.thread u = .locking l pc ∧ (pc.queued = true ∨ pc.queueing = true)

theorem not_queueing_of_queued (hq : pc.queued = true) : pc.queueing = false := by
  cases pc <;> simp_all [Pc.queued, Pc.queueing]

theorem Inv.exists_follower (h : Inv v r) (hpc : v.pc t = some pc) (hq : pc.queued = true)
    (hhead : r.queue.head? = some t) (hfol : Followed v r) :
    ∃ u pcu, u ≠ t ∧ v.pc u = some pcu ∧ (pcu.queued = true ∨ pcu.queueing = true) := by
  rcases hfol with hlen | ⟨u, pcu, hu, hqu⟩
  · obtain ⟨u, hadj⟩ := exists_adj_of_two_le hhead hlen
    obtain ⟨pcu, hu, hqu⟩ := (h.queue u).mp hadj.mem_right
    exact ⟨u, pcu, (hadj.ne h.nodup).symm, hu, Or.inl hqu⟩
  · refine ⟨u, pcu, ?_, hu, Or.inr hqu⟩
    rintro rfl
    obtain rfl : pc = pcu := by simpa [hpc] using hu
    simp [not_queueing_of_queued hq] at hqu

theorem SysInv.exists_follower_of_claim (h : SysInv ρ s) {val : BitVec 32} {next : Option Tid}
    (hpc : s.thread t = .locking l (.claim val next)) (hw : (s.lock l).val ≠ val) :
    ∃ u, u ≠ t ∧ s.queuesOn u l := by
  have hv := State.view_pc.mpr hpc
  obtain ⟨u, pcu, hut, hu, hq⟩ := (h.lock l).exists_follower hv rfl ((h.lock l).pcOk t _ hv).1
    ((h.lock l).followed_of_claim hv hw)
  exact ⟨u, hut, pcu, State.view_pc.mp hu, hq⟩

/-- What a thread that waits for its link may rely on. -/
theorem SysInv.followed (h : SysInv ρ s) (hw : s.awaitsLink t l) :
    (ρ l).queue.head? = some t ∧ Followed (s.view l) (ρ l) ∧
      ∃ pc, (s.view l).pc t = some pc ∧ pc.queued = true := by
  rcases hw with ⟨next, hpc⟩ | hpc
  · have hv := State.view_pc.mpr hpc
    obtain ⟨hhead, -, -, -, hfol⟩ := (h.lock l).pcOk t _ hv
    exact ⟨hhead, hfol, _, hv, rfl⟩
  · have hv := State.view_pc.mpr hpc
    obtain ⟨hhead, hfol⟩ := (h.lock l).pcOk t _ hv
    exact ⟨hhead, hfol, _, hv, rfl⟩

theorem SysInv.exists_follower_of_awaitsLink (h : SysInv ρ s) (hw : s.awaitsLink t l) :
    ∃ u, u ≠ t ∧ s.queuesOn u l := by
  obtain ⟨hhead, hfol, pc, hv, hq⟩ := h.followed hw
  obtain ⟨u, pcu, hut, hu, hqu⟩ := (h.lock l).exists_follower hv hq hhead hfol
  exact ⟨u, hut, pcu, State.view_pc.mp hu, hqu⟩

/-! ### The head is linked in the end -/

/-- The number of accesses before the store to `prev->next`. -/
def Pc.linkDistance : Pc → ℕ
  | link _ => 0
  | xchgTail => 1
  | trylockCmpxchg => 2
  | trylockRead => 3
  | initNext => 4
  | initLocked => 5
  | incCount => 6
  | _ => 7

/-- Thread `u` is about to link itself behind `t`, or on the way to the queue. -/
def State.linksTo (s : State L) (u t : Tid) (l : L) (k : ℕ) : Prop :=
  ∃ pc, s.thread u = .locking l pc ∧ (pc = .link t ∨ pc.queueing = true) ∧ pc.linkDistance = k

/-- A thread inside `queued_spin_lock` moves only by its own steps. -/
theorem Step.thread_eq_or {e : List (Event L)} (hs : Step s e s') (hu : s.thread u = .locking l pc) :
    s'.thread u = .locking l pc ∨ s' = s.lockStep u l pc := by
  cases hs with
  | call t l' hidle =>
      have hut : u ≠ t := by
        rintro rfl
        simp [hidle] at hu
      exact Or.inl (by simpa [State.callLock, hut] using hu)
  | unlock t l' hidle hheld =>
      have hut : u ≠ t := by
        rintro rfl
        simp [hidle] at hu
      exact Or.inl (by simpa [State.callUnlock, hut] using hu)
  | store t l' hpc =>
      have hut : u ≠ t := by
        rintro rfl
        simp [hpc] at hu
      exact Or.inl (by simpa [State.unlockStore, hut] using hu)
  -- a thread in the call moves by its own steps alone
  | lock t l' pc' hpc =>
      by_cases hut : u = t
      · subst hut
        obtain ⟨rfl, rfl⟩ := Thread.locking.inj (hu.symm.trans hpc)
        exact Or.inr rfl
      · exact Or.inl (by simpa [State.lockStep, hut] using hu)

/-- The wait for the link ends only with the link. -/
theorem SysInv.awaitsLink_step {e : List (Event L)} (h : SysInv ρ s) (hs : Step s e s')
    (hw : s.awaitsLink t l) (hnext : (s.qnodes t).next = none) : s'.awaitsLink t l := by
  rcases hw with ⟨next, hpc⟩ | hpc
  · rcases hs.thread_eq_or hpc with hpc' | rfl
    · exact Or.inl ⟨next, hpc'⟩
    · obtain ⟨-, hor, -⟩ := (h.lock l).pcOk t _ (State.view_pc.mpr hpc)
      have hn : next = none := hor.elim id fun e => e.trans hnext
      refine Or.inr ?_
      simp [State.lockStep, lockStep, hn, afterSetLocked]
  · rcases hs.thread_eq_or hpc with hpc' | rfl
    · exact Or.inr hpc'
    · refine Or.inr ?_
      simp [State.lockStep, lockStep, hnext, afterSetLocked]

/-- The store of the link. -/
theorem State.next_of_link (s : State L) (u t : Tid) (l : L) :
    ((s.lockStep u l (.link t)).qnodes t).next = some u := by
  simp [State.lockStep, QueuedSpin.lockStep]

theorem SysInv.tail_ne_zero (h : SysInv ρ s) (ht : t ∈ (ρ l).queue) : (s.lock l).val ≠ 0 := by
  intro hval
  rw [Qspinlock.val_eq_zero] at hval
  have htail := (h.lock l).tail_eq_zero.mp (congrArg Qspinlock.tail hval)
  simp [htail] at ht

/-- A follower that steps comes closer, or finds that another thread has taken
its place behind the head. -/
theorem SysInv.linksTo_step (h : SysInv ρ s) (hw : s.awaitsLink t l)
    (hnext : (s.qnodes t).next = none) (hu : s.thread u = .locking l pc)
    (hq : pc.queueing = true) :
    ∃ u' k, k < pc.linkDistance ∧ (s.lockStep u l pc).linksTo u' t l k := by
  have hv := State.view_pc.mpr hu
  obtain ⟨hhead, -, -⟩ := h.followed hw
  have hne := h.tail_ne_zero (List.mem_of_mem_head? hhead)
  -- a step that goes on towards the link leaves the same thread as the witness
  have hown : ∀ pc', (lockStep u (s.lock l) s.qnodes pc).next = some pc' →
      (pc' = .link t ∨ pc'.queueing = true) → pc'.linkDistance < pc.linkDistance →
      ∃ u' k, k < pc.linkDistance ∧ (s.lockStep u l pc).linksTo u' t l k := by
    intro pc' hn hcls hlt
    exact ⟨u, _, hlt, pc', by simp [State.lockStep, hn], hcls, rfl⟩
  cases pc with
  | clearPending => exact hown .incCount rfl (Or.inr rfl) (by decide)
  | incCount =>
      have hcount : (s.qnodes u).count = 0 := (h.lock l).count u _ hv
      refine hown .initLocked ?_ (Or.inr rfl) (by decide)
      simp [lockStep, hcount]
  | initLocked => exact hown .initNext rfl (Or.inr rfl) (by decide)
  | initNext => exact hown .trylockRead rfl (Or.inr rfl) (by decide)
  | trylockRead =>
      refine hown .xchgTail ?_ (Or.inr rfl) (by decide)
      simp only [lockStep]
      -- the head is queued, so the word is not 0 and the trylock fails
      rw [if_pos hne]
  | trylockCmpxchg =>
      refine hown .xchgTail ?_ (Or.inr rfl) (by decide)
      simp only [lockStep]
      rw [if_neg hne]
  | xchgTail =>
      rcases (h.lock l).afterXchgTail_cases with ⟨prev, hprev, hafter⟩ | ⟨hempty, -⟩
      · by_cases hpt : prev = t
        · subst hpt
          exact hown (.link prev) (congrArg some hafter) (Or.inl rfl) Nat.one_pos
        · -- the head has a successor already, and that one is about to link
          have hlen : 2 ≤ (ρ l).queue.length := two_le_of_queueTail hhead fun e =>
            hpt (Option.some.inj (hprev.symm.trans (queueTail_eq_tailOf.mp e)))
          obtain ⟨b, hadj⟩ := exists_adj_of_two_le hhead hlen
          have hb := State.view_pc.mp ((h.lock l).link_of_adj hadj hnext)
          have hbu : b ≠ u := by
            rintro rfl
            simp [hu] at hb
          exact ⟨b, 0, Nat.one_pos, .link t, by simpa [State.lockStep, hbu] using hb, Or.inl rfl,
            rfl⟩
      · simp [hempty] at hhead
  | _ => simp [Pc.queueing] at hq

/-- At time `m` thread `u` is outside `queued_spin_lock` or takes a step. -/
def Acts (σ : ℕ → State L) (u : Tid) (m : ℕ) : Prop :=
  ∀ l pc, (σ m).thread u = .locking l pc → σ (m + 1) = (σ m).lockStep u l pc

/-- An infinite run in which every thread that stays inside `queued_spin_lock`
takes a step again and again. -/
structure FairRun (σ : ℕ → State L) : Prop where
  step : ∀ n, ∃ e, Step (σ n) e (σ (n + 1))
  fair : ∀ u n, ∃ m ≥ n, Acts σ u m

/-- Thread `t` waits on `l` for its link, which has not been written. -/
def State.unlinked (s : State L) (t : Tid) (l : L) : Prop :=
  (∃ ρ, SysInv ρ s) ∧ s.awaitsLink t l ∧ (s.qnodes t).next = none

/-- Thread `t` waits on `l` for its link, which has been written. -/
def State.linked (s : State L) (t : Tid) (l : L) : Prop :=
  s.awaitsLink t l ∧ (s.qnodes t).next ≠ none

theorem State.unlinked.step {e : List (Event L)} (h : s.unlinked t l) (hs : Step s e s') :
    s'.unlinked t l ∨ s'.linked t l := by
  obtain ⟨⟨ρ, hρ⟩, hw, hnext⟩ := h
  obtain ⟨ρ', hρ', -⟩ := hρ.step hs
  have hw' := hρ.awaitsLink_step hs hw hnext
  by_cases hnext' : (s'.qnodes t).next = none
  · exact Or.inl ⟨⟨ρ', hρ'⟩, hw', hnext'⟩
  · exact Or.inr ⟨hw', hnext'⟩

theorem State.unlinked.exists_linksTo (h : s.unlinked t l) : ∃ u k, s.linksTo u t l k := by
  obtain ⟨⟨ρ, hρ⟩, hw, hnext⟩ := h
  obtain ⟨hhead, hfol, -⟩ := hρ.followed hw
  obtain ⟨u, pc, hu, hcls⟩ := (hρ.lock l).exists_linker hhead hfol hnext
  exact ⟨u, _, pc, State.view_pc.mp hu, hcls, rfl⟩

/-- The step of a follower links the head or brings a follower closer. -/
theorem State.unlinked.step_linksTo {k : ℕ} {e : List (Event L)} (h : s.unlinked t l)
    (hu : s.thread u = .locking l pc) (hcls : pc = .link t ∨ pc.queueing = true)
    (hk : pc.linkDistance = k) (hs : Step s e (s.lockStep u l pc)) :
    (s.lockStep u l pc).linked t l ∨
      ∃ j < k, (s.lockStep u l pc).unlinked t l ∧ ∃ u', (s.lockStep u l pc).linksTo u' t l j := by
  rcases h.step hs with hun | hl
  · obtain ⟨⟨ρ, hρ⟩, hw, hnext⟩ := h
    rcases hcls with rfl | hq
    · -- the follower that is before its store has just linked the head
      have hnone := hun.2.2
      simp [s.next_of_link] at hnone
    · obtain ⟨u', j, hj, hl⟩ := hρ.linksTo_step hw hnext hu hq
      exact Or.inr ⟨j, hk ▸ hj, hun, u', hl⟩
  · exact Or.inl hl

/-- In a fair run a follower acts. -/
theorem FairRun.helper {σ : ℕ → State L} (hσ : FairRun σ) (u t : Tid) (l : L) (k : ℕ) :
    LeadsTo σ (fun s => s.unlinked t l ∧ s.linksTo u t l k)
      (fun s => s.linked t l ∨ ∃ j < k, s.unlinked t l ∧ ∃ u', s.linksTo u' t l j) := by
  refine leadsTo_of_helper (fun m hm => ?_) (fun m hm hact => ?_) (hσ.fair u)
  · obtain ⟨hun, pc, hu, hcls, hk⟩ := hm
    obtain ⟨e, hs⟩ := hσ.step m
    rcases hs.thread_eq_or hu with hu' | heq
    · rcases hun.step hs with hun' | hl
      · exact Or.inl ⟨hun', pc, hu', hcls, hk⟩
      · exact Or.inr (Or.inl hl)
    · rw [heq] at hs ⊢
      exact Or.inr (hun.step_linksTo hu hcls hk hs)
  · obtain ⟨hun, pc, hu, hcls, hk⟩ := hm
    obtain ⟨e, hs⟩ := hσ.step m
    rw [hact l pc hu] at hs ⊢
    exact hun.step_linksTo hu hcls hk hs

/-- **The wait for `node->next` ends** in every fair run. -/
theorem FairRun.linked {σ : ℕ → State L} (hσ : FairRun σ) (t : Tid) (l : L) :
    LeadsTo σ (fun s => s.unlinked t l) (fun s => s.linked t l) := by
  intro n hn
  obtain ⟨u, k, hu⟩ := hn.exists_linksTo
  refine leadsTo_of_variant (Q := fun s => s.linked t l)
    (V := fun k (s : State L) => s.unlinked t l ∧ ∃ u, s.linksTo u t l k)
    (fun k n ⟨hun, u, hu⟩ => ?_) k n ⟨hn, u, hu⟩
  obtain ⟨m, hm, hl | ⟨j, hj, hun', u', hu'⟩⟩ := hσ.helper u t l k n ⟨hun, hu⟩
  · exact ⟨m, hm, Or.inl hl⟩
  · exact ⟨m, hm, Or.inr ⟨j, hj, hun', u', hu'⟩⟩

/-- **Never stuck.**  Take any reachable state and any lock.  If some thread is
inside `queued_spin_lock` on it and none is in the critical section or inside
`queued_spin_unlock`, then a thread inside can do more than re-read a spin
condition that is still false.  A head whose tail-clearing compare-and-swap is
about to fail, or that waits for its link after that, has another thread queued
behind it or on the way into the queue; and in every fair run from this state
its link is written while it waits. -/
theorem never_stuck (h : Reachable s) (l : L) :
    ((∃ t pc, s.thread t = .locking l pc) →
        (∀ t, ¬ s.inCriticalSection t l) → (∀ t, s.thread t ≠ .unlocking l) →
        ∃ t pc, s.thread t = .locking l pc ∧ ¬ spins t (s.lock l) s.qnodes pc) ∧
      (∀ t val next, s.thread t = .locking l (.claim val next) → (s.lock l).val ≠ val →
        ∃ u, u ≠ t ∧ s.queuesOn u l) ∧
      (∀ t, s.awaitsLink t l → ∃ u, u ≠ t ∧ s.queuesOn u l) ∧
      ∀ t, s.awaitsLink t l → ∀ σ : ℕ → State L, FairRun σ → σ 0 = s →
        ∃ n, (σ n).linked t l := by
  obtain ⟨ρ, hρ⟩ := h.sysInv
  refine ⟨?_, fun t val next hpc hw => hρ.exists_follower_of_claim hpc hw,
    fun t hw => hρ.exists_follower_of_awaitsLink hw, fun t hw σ hσ h0 => ?_⟩
  · rintro ⟨t, pc, hpc⟩ hcs -
    obtain ⟨u, pcu, hu, hmoves⟩ := (hρ.lock l).moves (State.view_pc.mpr hpc)
      (fun u => Bool.eq_false_iff.mpr (hcs u))
    exact ⟨u, pcu, State.view_pc.mp hu, hmoves⟩
  -- the link may be there already when the wait begins
  · by_cases hnext : (s.qnodes t).next = none
    · obtain ⟨m, -, hl⟩ := hσ.linked t l 0 (by rw [h0]; exact ⟨⟨ρ, hρ⟩, hw, hnext⟩)
      exact ⟨m, hl⟩
    · exact ⟨0, by rw [h0]; exact ⟨hw, hnext⟩⟩

/-! ### Fair runs exist -/

/-- The next step of a thread that takes and gives back the lock `l` for ever. -/
def State.turn (s : State L) (l : L) (t : Tid) : State L :=
  match s.thread t with
  | .idle => if s.held t l then s.callUnlock t l else s.callLock t l
  | .locking l pc => s.lockStep t l pc
  | .unlocking l => s.unlockStore t l

theorem State.step_turn (s : State L) (l : L) (t : Tid) : ∃ e, Step s e (s.turn l t) := by
  unfold State.turn
  split
  · rename_i hidle
    split
    · rename_i hheld
      exact ⟨_, .unlock t l hidle hheld⟩
    · exact ⟨_, .call t l hidle⟩
  · rename_i l' pc hpc
    exact ⟨_, .lock t l' pc hpc⟩
  · rename_i l' hpc
    exact ⟨_, .store t l' hpc⟩

/-- The threads take turns, from any state on. -/
def roundRobin (s : State L) (l : L) : ℕ → State L
  | 0 => s
  | n + 1 => (roundRobin s l n).turn l ⟨n % maxUserThreads, Nat.mod_lt n (by decide)⟩

/-- From every state there is a fair run. -/
theorem roundRobin_fair (s : State L) (l : L) : FairRun (roundRobin s l) := by
  refine ⟨fun n => State.step_turn _ _ _, fun u n => ⟨n * maxUserThreads + u, ?_, ?_⟩⟩
  · exact (Nat.le_mul_of_pos_right n (by decide)).trans (Nat.le_add_right _ _)
  · intro l' pc hpc
    -- the turn of `u` comes in every round
    have hturn : (⟨(n * maxUserThreads + u) % maxUserThreads, Nat.mod_lt _ (by decide)⟩ : Tid) = u := by
      apply Fin.ext
      exact Nat.mul_add_mod_of_lt u.isLt
    show State.turn _ l _ = _
    rw [hturn, State.turn, hpc]

/-- Thread 2 has read its own tail, thread 3 has come behind it, and the claim of thread 2 has
failed. -/
theorem never_stuck_unlinked : ∃ s : State Unit, Reachable s ∧ s.thread 2 = .locking () .waitNext
    ∧ s.thread 3 = .locking () (.link 2)
    ∧ (∃ t pc, s.thread t = .locking () pc ∧ ¬ spins t (s.lock ()) s.qnodes pc)
    ∧ (∃ u, u ≠ 2 ∧ s.queuesOn u ()) ∧ ∃ n, (roundRobin s () n).linked 2 () := by
  obtain ⟨es, s, hrun, hgood⟩ := exists_run_of_schedule step_of_act (s := State.init Unit)
    (queueing ++ [.callUnlock 1 (), .go 1, .go 2, .go 3, .go 2, .go 2])
    (fun _ s => decide (s.thread 2 = .locking () .waitNext ∧ s.thread 3 = .locking () (.link 2)
      ∧ ∀ t, s.held t () = false ∧ s.thread t ≠ .unlocking ())) (by decide +kernel)
  obtain ⟨h2, h3, hnone⟩ := of_decide_eq_true hgood
  obtain ⟨hmoves, -, hfollower, hlinked⟩ := never_stuck ⟨es, hrun⟩ ()
  have hawaits : s.awaitsLink 2 () := .inr h2
  have houtside : ∀ t, ¬ s.inCriticalSection t () := fun t => Bool.eq_false_iff.mp (hnone t).1
  exact ⟨s, ⟨es, hrun⟩, h2, h3, hmoves ⟨2, _, h2⟩ houtside fun t => (hnone t).2,
    hfollower 2 hawaits, hlinked 2 hawaits _ (roundRobin_fair s ()) rfl⟩

end MyTests.QueuedSpin
