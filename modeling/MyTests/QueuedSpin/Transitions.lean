/-
MyTests/QueuedSpin/Transitions.lean

What each store of the lock does to the invariant of the lock it is made on.

There is one lemma for each access that changes the roles of the threads; it
names the roles after the step.  Accesses that keep the roles are instances of
`Inv.quiet`.  Each lemma checks the fields of `Inv` one after the other; the
last field is where a thread could lose what it relies on, and there the
program points that are affected are named.
-/
import MyTests.QueuedSpin.Invariant

namespace MyTests.QueuedSpin

open Lib

variable {v : View} {r : Roles} {t : Tid} {pc pc' : Pc}

/-! ### The fast path -/

/-- A compare-and-swap from 0 to the locked value takes a lock that nobody waits
for. -/
theorem Inv.acquireFast (h : Inv v r) (hw : v.word = ⟨0, 0, 0⟩) (hpc : v.pc t = some pc)
    {o : Option Pc} {hd : Tid → Bool}
    (ho : pc = .cmpxchg ∧ o = none ∧ hd = Function.update v.held t true ∨
      pc = .trylockCmpxchg ∧ o = some .release ∧ hd = v.held) :
    Inv ⟨⟨1, 0, 0⟩, Function.update v.pc t o, hd, v.nodes⟩ ⟨some t, none, []⟩ := by
  -- a word of zero means that no thread has a role
  obtain rfl : r = ⟨none, none, []⟩ := Roles.word_eq_zero.mp (h.word.symm.trans hw)
  refine ⟨rfl, ?_, ?_, ?_, by simp, by simp, by simp, by simp, ?_, ?_⟩
  · intro u
    have howner_u := h.owner u
    rcases ho with ⟨rfl, rfl, rfl⟩ | ⟨rfl, rfl, rfl⟩ <;> grind [Pc.acquired]
  · intro u
    refine (h.pender u).trans (exists_pc_update o Pc.pending hpc ?_ u)
    rcases ho with ⟨rfl, rfl, -⟩ | ⟨rfl, rfl, -⟩ <;> rfl
  · intro u
    refine (h.queue u).trans (exists_pc_update o Pc.queued hpc ?_ u)
    rcases ho with ⟨rfl, rfl, -⟩ | ⟨rfl, rfl, -⟩ <;> rfl
  · intro u pcu hu
    refine h.count_update o hpc (fun _ => rfl) (fun pc'' e => ?_) hu
    rcases ho with ⟨rfl, rfl, -⟩ | ⟨rfl, rfl, -⟩
    · cases e
    · cases e
      rfl
  · intro u pcu hu
    -- the two callers differ in where they go: the lock function returns, the try goes on
    rcases ho with ⟨rfl, rfl, rfl⟩ | ⟨rfl, rfl, rfl⟩
    · obtain ⟨-, hu'⟩ := of_update_none hu
      have hok := h.pcOk u pcu hu'
      have hpender_u := h.pender u
      cases pcu <;> simp_all [PcOk, Pc.pending]
    · rcases of_update_some hu with ⟨rfl, rfl⟩ | ⟨-, hu'⟩
      · trivial
      · have hok := h.pcOk u pcu hu'
        have hpender_u := h.pender u
        cases pcu <;> simp_all [PcOk, Pc.pending]

/-! ### The pending bit -/

/-- Another thread sets or clears pending. -/
theorem PcOk.of_pender {u : Tid} {pcu : Pc} (h : PcOk v r u pcu) {w : Qspinlock}
    {pcs : Tid → Option Pc} {hd : Tid → Bool} (p : Option Tid)
    (hno : NoPendingOwner v → NoPendingOwner ⟨w, pcs, hd, v.nodes⟩)
    (hf : Followed v r → Followed ⟨w, pcs, hd, v.nodes⟩ { r with pender := p }) :
    PcOk ⟨w, pcs, hd, v.nodes⟩ { r with pender := p } u pcu := by
  cases pcu with
  | claim val next =>
      obtain ⟨hh, hnext, ho, hn, hval⟩ := h
      exact ⟨hh, hnext, ho, hno hn, hval⟩
  | setLocked next =>
      obtain ⟨hh, hnext, ho, hn, hfol⟩ := h
      exact ⟨hh, hnext, ho, hno hn, hf hfol⟩
  | waitNext => exact ⟨h.1, hf h.2⟩
  | _ => exact h

/-- Thread `t` sets the pending bit: for good on an empty queue, or by mistake
in front of a queue. -/
theorem Inv.setPending (h : Inv v r) (hpc : v.pc t = some .fetchSetPending) (hp : r.pender = none)
    (hpc' : pc'.pending = true)
    (hq : pc'.pendingOwner = true → r.queue = [])
    (ho : pc' = .clearPendingSetLocked → r.owner = none) :
    Inv ⟨{ v.word with pending := 1 }, Function.update v.pc t (some pc'), v.held, v.nodes⟩
      { r with pender := some t } where
  word := by
    rw [h.word]
    rfl
  owner := fun u => (h.owner u).trans
    (or_congr_right (exists_pc_update (some pc') Pc.acquired hpc (Pc.acquired_of_pending hpc') u))
  pender := by
    intro u
    have hpender_u := h.pender u
    grind [Pc.pending]
  queue := fun u => (h.queue u).trans
    (exists_pc_update (some pc') Pc.queued hpc (Pc.queued_of_pending hpc') u)
  nodup := h.nodup
  linked := fun _ _ hab hb => h.linked_update hpc nofun hab hb
  unlinked := by
    intro a b p hab hb
    refine h.unlinked_update (some pc') (fun q e => ?_) hab hb
    obtain rfl := Option.some.inj e
    cases hpc'
  last := h.last
  count := fun u pcu hu => h.count_update (some pc') hpc (fun _ => rfl)
    (by rintro _ ⟨⟩; exact Pc.counted_of_pending hpc') hu
  pcOk := by
    intro u pcu hu
    rcases of_update_some hu with ⟨rfl, rfl⟩ | ⟨hut, hu'⟩
    · cases pcu <;> simp_all [Pc.pending, PcOk]
    · have hok := h.pcOk u pcu hu'
      by_cases hqe : r.queue = []
      · -- no thread is at the head, so no other fact mentions the pending bit
        cases pcu <;> simp_all [PcOk]
      · -- in front of a queue the bit is a mistake, so there is still no pending owner
        refine hok.of_pender _ (fun hno => hno.update rfl fun pc'' e => ?_) fun hf =>
          hf.update hpc rfl le_rfl (by simp [Pc.queueing])
        obtain rfl : pc' = pc'' := Option.some.inj e
        cases hpo : pc'.pendingOwner
        · rfl
        · exact absurd (hq hpo) hqe

/-- The pending bit that was set in front of a queue is taken back. -/
theorem Inv.clearPending (h : Inv v r) (hpc : v.pc t = some .clearPending) :
    Inv ⟨{ v.word with pending := 0 }, Function.update v.pc t (some .incCount), v.held, v.nodes⟩
      { r with pender := none } where
  word := by
    rw [h.word]
    rfl
  owner := fun u =>
    (h.owner u).trans (or_congr_right (exists_pc_update (some .incCount) Pc.acquired hpc rfl u))
  pender := by
    intro u
    have hpender_u := h.pender u
    have hpender_t := h.pender t
    grind [Pc.pending]
  queue := fun u => (h.queue u).trans (exists_pc_update (some .incCount) Pc.queued hpc rfl u)
  nodup := h.nodup
  linked := fun _ _ hab hb => h.linked_update hpc nofun hab hb
  unlinked := fun _ _ _ hab hb => h.unlinked_update (some .incCount) nofun hab hb
  last := h.last
  count := fun u pcu hu => h.count_update (some .incCount) hpc (fun _ => rfl) (by rintro _ ⟨⟩; rfl) hu
  pcOk := by
    intro u pcu hu
    rcases of_update_some hu with ⟨rfl, rfl⟩ | ⟨hut, hu'⟩
    · trivial
    · -- on its way to the queue the thread is no pending owner either
      refine (h.pcOk u pcu hu').of_pender _ (fun hno => hno.update rfl fun pc'' e => ?_) fun hf =>
        hf.update hpc rfl le_rfl (by simp [Pc.queueing])
      obtain rfl : Pc.incCount = pc'' := Option.some.inj e
      rfl

/-- The pending owner takes the lock. -/
theorem Inv.takePending (h : Inv v r) (hpc : v.pc t = some .clearPendingSetLocked) :
    Inv ⟨{ v.word with locked := 1, pending := 0 }, Function.update v.pc t none,
        Function.update v.held t true, v.nodes⟩
      ⟨some t, none, r.queue⟩ where
  word := by
    rw [h.word]
    rfl
  owner := by
    intro u
    have howner_u := h.owner u
    have hno : r.owner = none := h.pcOk t _ hpc
    grind [Pc.acquired]
  pender := by
    intro u
    have hpender_u := h.pender u
    have hpender_t := h.pender t
    grind [Pc.pending]
  queue := fun u => (h.queue u).trans (exists_pc_update none Pc.queued hpc rfl u)
  nodup := h.nodup
  linked := fun _ _ hab hb => h.linked_update hpc nofun hab hb
  unlinked := fun _ _ _ hab hb => h.unlinked_update none nofun hab hb
  last := h.last
  count := fun u pcu hu => h.count_update none hpc (fun _ => rfl) nofun hu
  pcOk := by
    intro u pcu hu
    obtain ⟨hut, hu'⟩ := of_update_none hu
    have hok := h.pcOk u pcu hu'
    -- the head can claim the lock only while there is no pending owner, and `t` is one
    have hown : ¬ NoPendingOwner v := fun hno => by simpa [Pc.pendingOwner] using hno t _ hpc
    have hpu := h.pender u
    have hpt := h.pender t
    have howner : r.owner = none := h.pcOk t _ hpc
    have hou := h.owner u
    cases pcu with
    | clearPendingSetLocked => simp_all [Pc.pending]
    | claim val next => exact absurd hok.2.2.2.1 hown
    | setLocked next => exact absurd hok.2.2.2.1 hown
    | waitNext => simp_all [Pc.acquired]
    | _ => exact hok

/-! ### The queue -/

/-- `xchg_tail` appends the thread to the queue. -/
theorem Inv.enqueue (h : Inv v r) (hpc : v.pc t = some .xchgTail)
    (hpc' : (∃ prev, r.queue.getLast? = some prev ∧ pc' = .link prev) ∨
      r.queue = [] ∧ pc' = .waitHead none) :
    Inv ⟨{ v.word with tail := tailOf t }, Function.update v.pc t (some pc'), v.held, v.nodes⟩
      { r with queue := r.queue ++ [t] } := by
  obtain ⟨hlocked, hnext⟩ : (v.nodes t).locked = 0 ∧ (v.nodes t).next = none := h.pcOk t _ hpc
  have hcls : pc'.acquired = false ∧ pc'.pending = false ∧ pc'.queued = true ∧
      pc'.pendingOwner = false ∧ pc'.queueing = false := by
    rcases hpc' with ⟨prev, -, rfl⟩ | ⟨-, rfl⟩ <;> exact ⟨rfl, rfl, rfl, rfl, rfl⟩
  -- the thread is not in the queue yet
  have htq : t ∉ r.queue := by
    intro ht
    obtain ⟨pc, hp, hq⟩ := (h.queue t).mp ht
    obtain rfl : Pc.xchgTail = pc := by simpa [hpc] using hp
    simp [Pc.queued] at hq
  constructor
  case word =>
    rw [h.word]
    simp [Roles.word, queueTail]
  case owner =>
    intro u
    exact (h.owner u).trans
      (or_congr_right (exists_pc_update (some pc') Pc.acquired hpc hcls.1 u))
  case pender =>
    intro u
    exact (h.pender u).trans (exists_pc_update (some pc') Pc.pending hpc hcls.2.1 u)
  case queue =>
    intro u
    have hqueue_u := h.queue u
    grind
  case nodup =>
    simpa using List.Nodup.concat htq h.nodup
  case linked =>
    intro a b hab hb
    have hlinked := h.linked a b
    have hmem := fun hab : Adj r.queue a b => hab.mem_right
    rcases adj_concat.mp hab with hab | ⟨ha, rfl⟩ <;> grind
  case unlinked =>
    intro a b p hab hb
    have hunlinked := h.unlinked a b p
    have hlast := h.last a
    have hmem := fun hab : Adj r.queue a b => hab.mem_right
    rcases adj_concat.mp hab with hab | ⟨ha, rfl⟩ <;> grind
  case last =>
    intro z hz
    obtain rfl : t = z := by simpa using hz
    exact hnext
  case count =>
    intro u pcu hu
    refine h.count_update (some pc') hpc (fun _ => rfl) ?_ hu
    rintro _ ⟨⟩
    rcases hpc' with ⟨prev, -, rfl⟩ | ⟨-, rfl⟩ <;> rfl
  case pcOk =>
    intro u pcu hu
    rcases of_update_some hu with ⟨rfl, rfl⟩ | ⟨hut, hu'⟩
    · -- behind the old last thread, or alone and at the head
      rcases hpc' with ⟨prev, hprev, rfl⟩ | ⟨hq, rfl⟩
      · exact ⟨adj_concat.mpr (Or.inr ⟨hprev, rfl⟩), hlocked⟩
      · exact ⟨by simp [hq], Or.inl rfl⟩
    · -- the head stays the head, and whoever was in the queue is followed now
      have hok := h.pcOk u pcu hu'
      have hhead : ∀ x, r.queue.head? = some x → (r.queue ++ [t]).head? = some x := by
        intro x hx
        rw [List.head?_append, hx]
        rfl
      have hfol : u ∈ r.queue → Followed ⟨{ v.word with tail := tailOf t },
          Function.update v.pc t (some pc'), v.held, v.nodes⟩ { r with queue := r.queue ++ [t] } := by
        intro hm
        have hpos := List.length_pos_of_mem hm
        exact Or.inl (by simp; omega)
      have hno : NoPendingOwner v → NoPendingOwner ⟨{ v.word with tail := tailOf t },
          Function.update v.pc t (some pc'), v.held, v.nodes⟩ :=
        fun hno => hno.update rfl (by simpa using hcls.2.2.2.1)
      cases pcu with
      | link prev => exact ⟨adj_concat.mpr (Or.inl hok.1), hok.2⟩
      | waitNode =>
          have hm : u ∈ r.queue := (h.queue u).mpr ⟨_, hu', rfl⟩
          refine hok.trans ⟨hhead u, fun hh => ?_⟩
          cases hq : r.queue <;> simp_all
      | readNext => exact hhead u hok
      | waitHead next => exact ⟨hhead u hok.1, hok.2⟩
      | claim val next =>
          obtain ⟨hh, hn, ho, hp, hval⟩ := hok
          exact ⟨hhead u hh, hn, ho, hno hp, hval⟩
      | setLocked next =>
          obtain ⟨hh, hn, ho, hp, -⟩ := hok
          exact ⟨hhead u hh, hn, ho, hno hp, hfol (List.mem_of_mem_head? hh)⟩
      | waitNext => exact ⟨hhead u hok.1, hfol (List.mem_of_mem_head? hok.1)⟩
      | handOver next => exact ⟨hhead u hok.1, hok.2⟩
      | _ => exact hok

/-- The store `prev->next = node`. -/
theorem Inv.link (h : Inv v r) {prev : Tid} (hpc : v.pc t = some (.link prev)) :
    Inv ⟨v.word, Function.update v.pc t (some .waitNode), v.held,
        Function.update v.nodes prev { v.nodes prev with next := some t }⟩ r := by
  obtain ⟨hadj, hlocked⟩ : Adj r.queue prev t ∧ (v.nodes t).locked = 0 := h.pcOk t _ hpc
  -- `t` has not stored its address yet, and nobody else does
  have hnext : (v.nodes prev).next = none := h.unlinked prev t prev hadj hpc
  have hne : prev ≠ t := hadj.ne h.nodup
  constructor
  case word =>
    exact h.word
  case owner =>
    intro u
    exact (h.owner u).trans
      (or_congr_right (exists_pc_update (some .waitNode) Pc.acquired hpc rfl u))
  case pender =>
    intro u
    exact (h.pender u).trans (exists_pc_update (some .waitNode) Pc.pending hpc rfl u)
  case queue =>
    intro u
    exact (h.queue u).trans (exists_pc_update (some .waitNode) Pc.queued hpc rfl u)
  case nodup =>
    exact h.nodup
  case linked =>
    intro a b hab hb
    have hlinked := h.linked a b hab
    have hleft := fun e : b = t => (e ▸ hab).left_unique h.nodup hadj
    have hright := fun e : a = prev => (e ▸ hab).right_unique h.nodup hadj
    grind
  case unlinked =>
    intro a b p hab hb
    have hunlinked := h.unlinked a b p hab
    have hright := fun e : a = prev => (e ▸ hab).right_unique h.nodup hadj
    grind
  case last =>
    intro z hz
    have hlast := h.last z hz
    have hz' : z ≠ prev := fun e => hadj.getLast?_ne h.nodup (e ▸ hz)
    grind
  case count =>
    intro u pcu hu
    have hcount : ({ v.nodes prev with next := some t } : McsSpinlock).count
        = (v.nodes prev).count := rfl
    exact h.count_update (some .waitNode) hpc (count_update_node hcount) (by rintro _ ⟨⟩; rfl) hu
  case pcOk =>
    intro u pcu hu
    rcases of_update_some hu with ⟨rfl, rfl⟩ | ⟨hut, hu'⟩
    · have hhead := hadj.head?_ne h.nodup
      simp [PcOk, hne.symm, hlocked, hhead]
    · have hok := h.pcOk u pcu hu'
      have hf : Followed v r → Followed ⟨v.word, Function.update v.pc t (some .waitNode), v.held,
          Function.update v.nodes prev { v.nodes prev with next := some t }⟩ r :=
        fun hf => hf.update hpc rfl le_rfl (by simp [Pc.queueing])
      have hno : NoPendingOwner v → NoPendingOwner ⟨v.word, Function.update v.pc t (some .waitNode),
          v.held, Function.update v.nodes prev { v.nodes prev with next := some t }⟩ :=
        fun hno => hno.update rfl (by simp [Pc.pendingOwner])
      by_cases hup : u = prev
      · -- the predecessor is queued, and whatever it has read of `next` is still `NULL`
        subst hup
        obtain ⟨pc, hp, hq⟩ := (h.queue u).mp hadj.mem_left
        obtain rfl : pcu = pc := by simpa [hu'] using hp
        cases pcu with
        | waitHead next => exact ⟨hok.1, Or.inl (by simpa [hnext] using hok.2)⟩
        | claim val next =>
            obtain ⟨hh, hn, ho, hp, hval⟩ := hok
            exact ⟨hh, Or.inl (by simpa [hnext] using hn), ho, hno hp, hval⟩
        | setLocked next =>
            obtain ⟨hh, hn, ho, hp, hfol⟩ := hok
            exact ⟨hh, Or.inl (by simpa [hnext] using hn), ho, hno hp, hf hfol⟩
        | waitNext => exact ⟨hok.1, hf hok.2⟩
        | handOver next => simp [PcOk, hnext] at hok
        | _ => simp_all [PcOk, Pc.queued]
      · exact hok.mono (by simp [hup]) hf hno

/-- The head clears the tail and takes the lock in one step. -/
theorem Inv.claim (h : Inv v r) {val : BitVec 32} {next : Option Tid}
    (hpc : v.pc t = some (.claim val next)) (hw : v.word.val = val) :
    Inv ⟨⟨1, 0, 0⟩, Function.update v.pc t (some .release), v.held, v.nodes⟩
      ⟨some t, none, []⟩ := by
  obtain ⟨hhead, -, howner, -, rfl⟩ := h.pcOk t _ hpc
  -- the word is the one that the head has read, so nobody is pending or behind it
  rw [encodeTail_eq, Qspinlock.val_inj, h.word] at hw
  obtain ⟨-, hpend, htail⟩ : flag r.owner.isSome = 0 ∧ flag r.pender.isSome = 0 ∧
      queueTail r.queue = tailOf t := by simpa [Roles.word] using hw
  have hpender : r.pender = none := flag_isSome_eq_zero.mp hpend
  have hq : r.queue = [t] := eq_singleton_of_queueTail h.nodup hhead htail
  refine ⟨rfl, ?_, ?_, ?_, by simp, by simp, by simp, by simp, ?_, ?_⟩
  · intro u
    have howner_u := h.owner u
    grind [Pc.acquired]
  · intro u
    show (none : Option Tid) = some u ↔ _
    rw [← hpender]
    exact (h.pender u).trans (exists_pc_update (some .release) Pc.pending hpc rfl u)
  · intro u
    have hqueue_u := h.queue u
    grind [Pc.queued]
  · intro u pcu hu
    exact h.count_update (some .release) hpc (fun _ => rfl) (by rintro _ ⟨⟩; rfl) hu
  · intro u pcu hu
    rcases of_update_some hu with ⟨rfl, rfl⟩ | ⟨hut, hu'⟩
    · trivial
    · have hok := h.pcOk u pcu hu'
      have hpender_u := h.pender u
      have hqueue_u := h.queue u
      cases pcu <;> simp_all [PcOk, Pc.pending, Pc.queued]

/-- The head takes the lock and leaves the tail to the others. -/
theorem Inv.setLocked (h : Inv v r) {next : Option Tid} (hpc : v.pc t = some (.setLocked next)) :
    Inv ⟨{ v.word with locked := 1 }, Function.update v.pc t (some (afterSetLocked next)), v.held,
        v.nodes⟩
      { r with owner := some t } := by
  obtain ⟨hhead, hnext, howner, hno, hfol⟩ := h.pcOk t _ hpc
  -- whether a successor is known or not, the head has the lock now and stays queued
  have hcls : (afterSetLocked next).acquired = true ∧ (afterSetLocked next).pending = false ∧
      (afterSetLocked next).queued = true := by
    cases next <;> exact ⟨rfl, rfl, rfl⟩
  constructor
  case word =>
    rw [h.word]
    rfl
  case owner =>
    intro u
    have howner_u := h.owner u
    grind [Pc.acquired]
  case pender =>
    intro u
    exact (h.pender u).trans
      (exists_pc_update (some (afterSetLocked next)) Pc.pending hpc hcls.2.1 u)
  case queue =>
    intro u
    exact (h.queue u).trans
      (exists_pc_update (some (afterSetLocked next)) Pc.queued hpc hcls.2.2 u)
  case nodup =>
    exact h.nodup
  case linked =>
    exact fun a b hab hb => h.linked_update hpc (by rintro _ ⟨⟩) hab hb
  case unlinked =>
    refine fun a b p hab hb => h.unlinked_update (some (afterSetLocked next)) ?_ hab hb
    cases next <;> rintro _ ⟨⟩
  case last =>
    exact h.last
  case count =>
    intro u pcu hu
    refine h.count_update (some (afterSetLocked next)) hpc (fun _ => rfl) ?_ hu
    rintro _ ⟨⟩
    cases next <;> rfl
  case pcOk =>
    intro u pcu hu
    rcases of_update_some hu with ⟨rfl, rfl⟩ | ⟨hut, hu'⟩
    · cases next with
      | none => exact ⟨hhead, hfol.update hpc rfl le_rfl (by simp [Pc.queueing])⟩
      | some n => exact ⟨hhead, (hnext.resolve_left (by simp)).symm⟩
    · -- only a pending owner would rely on the lock being free
      have hok := h.pcOk u pcu hu'
      have hpo := hno u pcu hu'
      cases pcu <;> simp_all [PcOk, Pc.pendingOwner]

/-- The thread that the head hands over to is next in the queue. -/
theorem Inv.queue_of_handOver (h : Inv v r) {n : Tid} (hpc : v.pc t = some (.handOver n)) :
    ∃ rest, r.queue = t :: n :: rest := by
  obtain ⟨hhead, hnext⟩ : r.queue.head? = some t ∧ (v.nodes t).next = some n := h.pcOk t _ hpc
  cases hq : r.queue with
  | nil => simp [hq] at hhead
  | cons x xs =>
      obtain rfl : x = t := by simpa [hq] using hhead
      cases xs with
      -- the last of the queue has no successor to hand over to
      | nil => simpa [hnext] using h.last x (by simp [hq])
      | cons y ys =>
          have hadj : Adj r.queue x y := by simp [hq, adj_cons]
          by_cases hy : ∃ p, v.pc y = some (.link p)
          · obtain ⟨p, hp⟩ := hy
            simpa [hnext] using h.unlinked x y p hadj hp
          · have hxy := h.linked x y hadj (not_exists.mp hy)
            obtain rfl : n = y := by simpa [hnext] using hxy
            exact ⟨ys, rfl⟩

/-- The store `next->locked = 1`, after which the thread is out of the
queue. -/
theorem Inv.handOver (h : Inv v r) {n : Tid} (hpc : v.pc t = some (.handOver n)) :
    Inv ⟨v.word, Function.update v.pc t (some .release), v.held,
        Function.update v.nodes n { v.nodes n with locked := 1 }⟩
      { r with queue := r.queue.tail } := by
  obtain ⟨hhead, hnext⟩ : r.queue.head? = some t ∧ (v.nodes t).next = some n := h.pcOk t _ hpc
  obtain ⟨rest, hq⟩ := h.queue_of_handOver hpc
  -- a successor that `next` names has linked itself
  have hnl : ∀ p, v.pc n ≠ some (.link p) := by
    intro p hp
    simpa [hnext] using h.unlinked t n p (by simp [hq, adj_cons]) hp
  have hnd := h.nodup
  rw [hq] at hnd
  have htn : t ∉ n :: rest := (List.nodup_cons.mp hnd).1
  -- without `t` the links among the others are the same
  have hadj : ∀ a b, Adj (n :: rest) a b → Adj r.queue a b := fun a b hab =>
    Adj.of_tail (by simpa [hq] using hab)
  simp only [hq, List.tail_cons]
  constructor
  case word =>
    -- the tail stays, since `n` or somebody behind it is the last
    rw [h.word]
    simp [Roles.word, hq, queueTail_cons_cons]
  case owner =>
    intro u
    exact (h.owner u).trans
      (or_congr_right (exists_pc_update (some .release) Pc.acquired hpc rfl u))
  case pender =>
    intro u
    exact (h.pender u).trans (exists_pc_update (some .release) Pc.pending hpc rfl u)
  case queue =>
    intro u
    have hqueue_u := h.queue u
    grind [Pc.queued]
  case nodup =>
    exact (List.nodup_cons.mp hnd).2
  case linked =>
    intro a b hab hb
    have hlinked := h.linked a b (hadj a b hab)
    have hmem := hab.mem_right
    grind
  case unlinked =>
    intro a b p hab hb
    have hunlinked := h.unlinked a b p (hadj a b hab)
    grind
  case last =>
    intro z hz
    have hlast := h.last z (by simpa [hq] using hz)
    grind
  case count =>
    intro u pcu hu
    have hcount : ({ v.nodes n with locked := 1 } : McsSpinlock).count = (v.nodes n).count := rfl
    exact h.count_update (some .release) hpc (count_update_node hcount) (by rintro _ ⟨⟩; rfl) hu
  case pcOk =>
    intro u pcu hu
    rcases of_update_some hu with ⟨rfl, rfl⟩ | ⟨hut, hu'⟩
    · trivial
    · have hok := h.pcOk u pcu hu'
      have hheadu : r.queue.head? ≠ some u := by simpa [hq] using Ne.symm hut
      have hnu : u ≠ n → n ≠ u := Ne.symm
      by_cases hun : u = n
      · -- the successor is queued and linked, so it waits on its node
        subst hun
        obtain ⟨pc, hp, hqd⟩ := (h.queue u).mp (by simp [hq])
        obtain rfl : pcu = pc := by simpa [hu'] using hp
        cases pcu <;> simp_all [PcOk, Pc.queued]
      · cases pcu <;> simp_all [PcOk, adj_cons]

/-! ### Return, unlock and call -/

/-- `--qnodes[this_thread_index].mcs.count`, and the call returns. -/
theorem Inv.release (h : Inv v r) (hpc : v.pc t = some .release) :
    Inv ⟨v.word, Function.update v.pc t none, Function.update v.held t true,
        Function.update v.nodes t { v.nodes t with count := (v.nodes t).count - 1 }⟩ r := by
  -- the thread has left the queue, so its node is nobody's predecessor
  have htq : t ∉ r.queue := by
    intro ht
    obtain ⟨pc, hp, hq⟩ := (h.queue t).mp ht
    obtain rfl : Pc.release = pc := by simpa [hpc] using hp
    simp [Pc.queued] at hq
  constructor
  case word =>
    exact h.word
  case owner =>
    intro u
    have howner_u := h.owner u
    have howner_t := h.owner t
    grind [Pc.acquired]
  case pender =>
    intro u
    exact (h.pender u).trans (exists_pc_update none Pc.pending hpc rfl u)
  case queue =>
    intro u
    exact (h.queue u).trans (exists_pc_update none Pc.queued hpc rfl u)
  case nodup =>
    exact h.nodup
  case linked =>
    intro a b hab hb
    have hat : a ≠ t := fun e => htq (e ▸ hab.mem_left)
    show (Function.update v.nodes t _ a).next = some b
    rw [Function.update_of_ne hat]
    exact h.linked_update hpc (by rintro _ ⟨⟩) hab hb
  case unlinked =>
    intro a b p hab hb
    have hat : a ≠ t := fun e => htq (e ▸ hab.mem_left)
    show (Function.update v.nodes t _ a).next = none
    rw [Function.update_of_ne hat]
    exact h.unlinked_update none (by rintro _ ⟨⟩) hab hb
  case last =>
    intro z hz
    have hzt : z ≠ t := fun e => htq (e ▸ List.mem_of_getLast? hz)
    show (Function.update v.nodes t _ z).next = none
    rw [Function.update_of_ne hzt]
    exact h.last z hz
  case count =>
    intro u pcu hu
    obtain ⟨hut, hu'⟩ := of_update_none hu
    show (Function.update v.nodes t _ u).count = _
    rw [Function.update_of_ne hut]
    exact h.count u pcu hu'
  case pcOk =>
    intro u pcu hu
    obtain ⟨hut, hu'⟩ := of_update_none hu
    exact (h.pcOk u pcu hu').mono (by simp [hut])
      (fun hf => hf.update hpc rfl le_rfl (by simp [Pc.queueing]))
      (fun hno => hno.update rfl (by simp))

/-- The store of `queued_spin_unlock`. -/
theorem Inv.unlock (h : Inv v r) (hheld : v.held t = true) (hpc : v.pc t = none) :
    Inv ⟨{ v.word with locked := 0 }, v.pc, Function.update v.held t false, v.nodes⟩
      { r with owner := none } := by
  have howner : r.owner = some t := (h.owner t).mpr (Or.inl hheld)
  refine ⟨?_, ?_, h.pender, h.queue, h.nodup, h.linked, h.unlinked, h.last, h.count, ?_⟩
  · rw [h.word]
    rfl
  · intro u
    have howner_u := h.owner u
    grind
  · intro u pcu hu
    have hok := h.pcOk u pcu hu
    cases pcu with
    | clearPendingSetLocked => rfl
    | claim val next => exact ⟨hok.1, hok.2.1, rfl, hok.2.2.2⟩
    | setLocked next => exact ⟨hok.1, hok.2.1, rfl, hok.2.2.2⟩
    | _ => exact hok

/-- The call of `queued_spin_lock`. -/
theorem Inv.call (h : Inv v r) (hpc : v.pc t = none) (hcount : (v.nodes t).count = 0) :
    Inv { v with pc := Function.update v.pc t (some .cmpxchg) } r := by
  constructor
  case word =>
    exact h.word
  case owner =>
    intro u
    exact (h.owner u).trans
      (or_congr_right (exists_pc_update (some .cmpxchg) Pc.acquired hpc rfl u))
  case pender =>
    intro u
    exact (h.pender u).trans (exists_pc_update (some .cmpxchg) Pc.pending hpc rfl u)
  case queue =>
    intro u
    exact (h.queue u).trans (exists_pc_update (some .cmpxchg) Pc.queued hpc rfl u)
  case nodup =>
    exact h.nodup
  case linked =>
    exact fun a b hab hb => h.linked_update hpc nofun hab hb
  case unlinked =>
    exact fun a b p hab hb => h.unlinked_update (some .cmpxchg) nofun hab hb
  case last =>
    exact h.last
  case count =>
    intro u pcu hu
    rcases of_update_some hu with ⟨rfl, rfl⟩ | ⟨-, hu'⟩
    -- the count of the caller's nodes is 0, as between two calls
    · exact hcount
    · exact h.count u pcu hu'
  case pcOk =>
    intro u pcu hu
    rcases of_update_some hu with ⟨rfl, rfl⟩ | ⟨hut, hu'⟩
    · trivial
    · exact (h.pcOk u pcu hu').mono rfl
        (fun hf => hf.update hpc rfl le_rfl (by simp))
        (fun hno => hno.update rfl (by simp [Pc.pendingOwner]))

/-! ### The other locks -/

/-- Stores to the nodes of threads that are not on this lock do not matter
to it. -/
theorem Inv.frame (h : Inv v r) {n : Tid → McsSpinlock}
    (hn : ∀ u pc, v.pc u = some pc → n u = v.nodes u) : Inv { v with nodes := n } r := by
  -- who is queued on the lock is in a call of it
  have hq : ∀ u ∈ r.queue, n u = v.nodes u := fun u hu => by
    obtain ⟨pc, hp, -⟩ := (h.queue u).mp hu
    exact hn u pc hp
  refine ⟨h.word, h.owner, h.pender, h.queue, h.nodup, ?_, ?_, ?_, ?_, ?_⟩
  · intro a b hab hb
    show (n a).next = some b
    rw [hq a hab.mem_left]
    exact h.linked a b hab hb
  · intro a b p hab hb
    show (n a).next = none
    rw [hq a hab.mem_left]
    exact h.unlinked a b p hab hb
  · intro z hz
    show (n z).next = none
    rw [hq z (List.mem_of_getLast? hz)]
    exact h.last z hz
  · intro u pcu hu
    show (n u).count = _
    rw [hn u pcu hu]
    exact h.count u pcu hu
  · intro u pcu hu
    exact (h.pcOk u pcu hu).mono (hn u pcu hu) id id

end MyTests.QueuedSpin
