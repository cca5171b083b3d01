/-
MyTests/QueuedSpin/Invariant.lean

The inductive invariant of the queued spinlock, for one lock.

`View` is what one lock sees of the system: its word, the program point of
every thread that is inside `queued_spin_lock` on it, who holds it, and the
nodes.  `Roles` is the abstract value behind the word: the owner, the thread
whose pending bit is set, and the queue in the order of the tail swaps.  The
word is a function of the roles (`Inv.word`), and each role is tied to the
program points (`Inv.owner`, `Inv.pender`, `Inv.queue`), so uniqueness of the
owner is a fact about `Option` and needs no argument.

`PcOk` says, for each program point, what the thread may rely on there.
-/
import MyTests.QueuedSpin.Lock
import MyTests.Lib.Adjacent

namespace MyTests.QueuedSpin

open Lib

/-! ### Classes of program points -/

namespace Pc

/-- The lock is acquired; the call has not returned. -/
def acquired : Pc → Bool
  | waitNext | handOver _ | release => true
  | _ => false

/-- The pending bit is set by this thread. -/
def pending : Pc → Bool
  | clearPending | waitUnlocked | clearPendingSetLocked => true
  | _ => false

/-- The pending bit is set by this thread and gives it the next turn. -/
def pendingOwner : Pc → Bool
  | waitUnlocked | clearPendingSetLocked => true
  | _ => false

/-- On the way to `xchg_tail`. -/
def queueing : Pc → Bool
  | clearPending | incCount | initLocked | initNext | trylockRead | trylockCmpxchg | xchgTail => true
  | _ => false

/-- Between `xchg_tail` and the hand-over or the clearing of the tail. -/
def queued : Pc → Bool
  | link _ | waitNode | readNext | waitHead _ | claim _ _ | setLocked _ | waitNext | handOver _ => true
  | _ => false

/-- Between `node->count++` and `--node->count`. -/
def counted : Pc → Bool
  | initLocked | initNext | trylockRead | trylockCmpxchg | xchgTail | release => true
  | pc => pc.queued

/-! A thread that has set pending is in no other class. -/

theorem acquired_of_pending {pc : Pc} (h : pc.pending = true) : pc.acquired = false := by
  cases pc <;> simp_all [pending, acquired]

theorem queued_of_pending {pc : Pc} (h : pc.pending = true) : pc.queued = false := by
  cases pc <;> simp_all [pending, queued]

theorem counted_of_pending {pc : Pc} (h : pc.pending = true) : pc.counted = false := by
  cases pc <;> simp_all [pending, counted, queued]

end Pc

/-! ### Views and roles -/

/-- What one lock sees. -/
structure View where
  word : Qspinlock
  pc : Tid → Option Pc
  held : Tid → Bool
  nodes : Tid → McsSpinlock

/-- The program point of a thread that is inside `queued_spin_lock(l)`. -/
def Thread.pcOn {L : Type} [DecidableEq L] (l : L) : Thread L → Option Pc
  | .locking l' pc => if l' = l then some pc else none
  | _ => none

def State.view {L : Type} [DecidableEq L] (s : State L) (l : L) : View where
  word := s.lock l
  pc := fun t => (s.thread t).pcOn l
  held := fun t => s.held t l
  nodes := s.qnodes

/-- The step of thread `t` at `pc` on the lock of this view. -/
def View.step (v : View) (t : Tid) (pc : Pc) : View :=
  let r := QueuedSpin.lockStep t v.word v.nodes pc
  { word := r.word
    pc := Function.update v.pc t r.next
    held :=
      match r.next with
        | some _ => v.held
        | none => Function.update v.held t true
    nodes := r.nodes }

/-- The abstract value of a lock. -/
structure Roles where
  owner : Option Tid
  pender : Option Tid
  queue : List Tid

/-- The byte of a flag. -/
def flag (b : Bool) : BitVec 8 := if b then 1 else 0

/-- The tail half-word of a queue. -/
def queueTail (q : List Tid) : BitVec 16 :=
  match q.getLast? with
  | none => 0
  | some t => tailOf t

/-- The lock word of an abstract value. -/
def Roles.word (r : Roles) : Qspinlock :=
  ⟨flag r.owner.isSome, flag r.pender.isSome, queueTail r.queue⟩

/-- Somebody is queued behind the head, or on the way there. -/
def Followed (v : View) (r : Roles) : Prop :=
  2 ≤ r.queue.length ∨ ∃ u pc, v.pc u = some pc ∧ pc.queueing = true

/-- Nobody is waiting with the pending bit for its turn. -/
def NoPendingOwner (v : View) : Prop := ∀ u pc, v.pc u = some pc → pc.pendingOwner = false

/-- What thread `t` may rely on at program point `pc`. -/
def PcOk (v : View) (r : Roles) (t : Tid) : Pc → Prop
  | .clearPendingSetLocked => r.owner = none
  | .initNext => (v.nodes t).locked = 0
  | .trylockRead | .trylockCmpxchg | .xchgTail => (v.nodes t).locked = 0 ∧ (v.nodes t).next = none
  | .link prev => Adj r.queue prev t ∧ (v.nodes t).locked = 0
  | .waitNode => (v.nodes t).locked ≠ 0 ↔ r.queue.head? = some t
  | .readNext => r.queue.head? = some t
  | .waitHead next => r.queue.head? = some t ∧ (next = none ∨ next = (v.nodes t).next)
  | .claim val next =>
      r.queue.head? = some t ∧ (next = none ∨ next = (v.nodes t).next) ∧
        r.owner = none ∧ NoPendingOwner v ∧ val = encodeTail t
  | .setLocked next =>
      r.queue.head? = some t ∧ (next = none ∨ next = (v.nodes t).next) ∧
        r.owner = none ∧ NoPendingOwner v ∧ Followed v r
  | .waitNext => r.queue.head? = some t ∧ Followed v r
  | .handOver next => r.queue.head? = some t ∧ (v.nodes t).next = some next
  | .aborted | .assertFailed => False
  | _ => True

/-- **The invariant of one lock.** -/
structure Inv (v : View) (r : Roles) : Prop where
  word : v.word = r.word
  owner : ∀ t, r.owner = some t ↔
    v.held t = true ∨ ∃ pc, v.pc t = some pc ∧ pc.acquired = true
  pender : ∀ t, r.pender = some t ↔ ∃ pc, v.pc t = some pc ∧ pc.pending = true
  queue : ∀ t, t ∈ r.queue ↔ ∃ pc, v.pc t = some pc ∧ pc.queued = true
  nodup : r.queue.Nodup
  linked : ∀ a b, Adj r.queue a b → (∀ p, v.pc b ≠ some (.link p)) → (v.nodes a).next = some b
  unlinked : ∀ a b p, Adj r.queue a b → v.pc b = some (.link p) → (v.nodes a).next = none
  last : ∀ z, r.queue.getLast? = some z → (v.nodes z).next = none
  count : ∀ t pc, v.pc t = some pc → (v.nodes t).count = if pc.counted then 1 else 0
  pcOk : ∀ t pc, v.pc t = some pc → PcOk v r t pc

variable {v : View} {r : Roles} {t : Tid} {pc pc' : Pc}

/-! ### Reading the roles off the word -/

theorem flag_isSome_eq_zero {o : Option Tid} : flag o.isSome = 0 ↔ o = none := by
  cases o <;> simp [flag]

theorem flag_or_one (b : Bool) : flag b ||| 1 = 1 := by
  cases b <;> rfl

theorem queueTail_eq_zero {q : List Tid} : queueTail q = 0 ↔ q = [] := by
  unfold queueTail
  split
  · simp_all
  · rename_i u hu
    simp only [tailOf_ne_zero, false_iff]
    rintro rfl
    simp at hu

theorem queueTail_eq_tailOf {q : List Tid} : queueTail q = tailOf t ↔ q.getLast? = some t := by
  unfold queueTail
  split
  · rename_i hq
    simp only [hq, reduceCtorEq, iff_false]
    exact (tailOf_ne_zero t).symm
  · rename_i u hu
    simp [hu]

/-- A queue whose head is also its tail has one member. -/
theorem eq_singleton_of_queueTail {q : List Tid} (hq : q.Nodup) (hhead : q.head? = some t)
    (htail : queueTail q = tailOf t) : q = [t] := by
  have hlast := queueTail_eq_tailOf.mp htail
  cases q with
  | nil => simp at hhead
  | cons x xs =>
      obtain rfl : x = t := by simpa using hhead
      cases xs with
      | nil => rfl
      | cons y ys =>
          rw [List.getLast?_cons_cons] at hlast
          exact absurd (List.mem_of_getLast? hlast) (List.nodup_cons.mp hq).1

theorem two_le_of_queueTail {q : List Tid} (hhead : q.head? = some t)
    (htail : queueTail q ≠ tailOf t) : 2 ≤ q.length := by
  rcases q with _ | ⟨x, _ | ⟨y, ys⟩⟩
  · simp at hhead
  · obtain rfl : x = t := by simpa using hhead
    exact absurd rfl htail
  · simp

theorem queueTail_cons_cons {a b : Tid} {q : List Tid} :
    queueTail (a :: b :: q) = queueTail (b :: q) := by
  simp only [queueTail, List.getLast?_cons_cons]

theorem Roles.word_eq_zero : r.word = ⟨0, 0, 0⟩ ↔ r = ⟨none, none, []⟩ := by
  obtain ⟨o, p, q⟩ := r
  simp only [Roles.word, Qspinlock.mk.injEq, flag_isSome_eq_zero, queueTail_eq_zero,
    Roles.mk.injEq]

/-! ### Steps that keep the roles -/

theorem of_update_none {f : Tid → Option Pc} {u : Tid} {x : Pc}
    (hu : Function.update f t none u = some x) : u ≠ t ∧ f u = some x := by
  by_cases hut : u = t
  · subst hut
    simp at hu
  · exact ⟨hut, by simpa [hut] using hu⟩

theorem of_update_some {f : Tid → Option Pc} {u : Tid} {x y : Pc}
    (hu : Function.update f t (some y) u = some x) : (u = t ∧ x = y) ∨ (u ≠ t ∧ f u = some x) := by
  by_cases hut : u = t
  · subst hut
    exact Or.inl ⟨rfl, by simpa [eq_comm] using hu⟩
  · exact Or.inr ⟨hut, by simpa [hut] using hu⟩

/-- A thread that moves within a class of program points, or outside it, does not
change who is in the class. -/
theorem exists_pc_update {pcs : Tid → Option Pc} {o : Option Pc} (o' : Option Pc)
    (cls : Pc → Bool) (hpc : pcs t = o) (hcls : o'.any cls = o.any cls) (u : Tid) :
    (∃ pc, pcs u = some pc ∧ cls pc = true) ↔
      ∃ pc, Function.update pcs t o' u = some pc ∧ cls pc = true := by
  by_cases hut : u = t
  · subst hut
    rw [Function.update_self, hpc, ← Option.any_eq_true, ← Option.any_eq_true, hcls]
  · rw [Function.update_of_ne hut]

/-- The links of the queue, when the thread that moves has none to make. -/
theorem Inv.linked_update (h : Inv v r) {o o' : Option Pc} (hpc : v.pc t = o)
    (hl : ∀ p, o ≠ some (.link p)) {a b : Tid} (hab : Adj r.queue a b)
    (hb : ∀ p, Function.update v.pc t o' b ≠ some (.link p)) : (v.nodes a).next = some b := by
  refine h.linked a b hab fun p hp => ?_
  by_cases hbt : b = t
  · subst hbt
    exact hl p (hpc.symm.trans hp)
  · refine hb p ?_
    rwa [Function.update_of_ne hbt]

theorem Inv.unlinked_update (h : Inv v r) (o' : Option Pc) (hl' : ∀ p, o' ≠ some (.link p))
    {a b p : Tid} (hab : Adj r.queue a b) (hb : Function.update v.pc t o' b = some (.link p)) :
    (v.nodes a).next = none := by
  by_cases hbt : b = t
  · subst hbt
    rw [Function.update_self] at hb
    exact absurd hb (hl' p)
  · rw [Function.update_of_ne hbt] at hb
    exact h.unlinked a b p hab hb

/-- A store to a node that keeps its counter. -/
theorem count_update_node {nodes : Tid → McsSpinlock} {a : Tid} {m : McsSpinlock}
    (hm : m.count = (nodes a).count) (u : Tid) :
    (Function.update nodes a m u).count = (nodes u).count := by
  by_cases hua : u = a
  · subst hua
    rw [Function.update_self, hm]
  · rw [Function.update_of_ne hua]

/-- The node counters, when the thread neither takes nor frees its node. -/
theorem Inv.count_update (h : Inv v r) (o' : Option Pc) (hpc : v.pc t = some pc)
    {n : Tid → McsSpinlock} (hn : ∀ u, (n u).count = (v.nodes u).count)
    (hc : ∀ pc', o' = some pc' → pc'.counted = pc.counted) {u : Tid} {pcu : Pc}
    (hu : Function.update v.pc t o' u = some pcu) : (n u).count = if pcu.counted then 1 else 0 := by
  rw [hn]
  by_cases hut : u = t
  · subst hut
    rw [Function.update_self] at hu
    rw [hc pcu hu]
    exact h.count u pc hpc
  · rw [Function.update_of_ne hut] at hu
    exact h.count u pcu hu

/-- What a thread relies on survives the step of another thread that keeps the
roles and this thread's node. -/
theorem PcOk.mono {v' : View} {u : Tid} {pcu : Pc} (h : PcOk v r u pcu)
    (hn : v'.nodes u = v.nodes u) (hf : Followed v r → Followed v' r)
    (hp : NoPendingOwner v → NoPendingOwner v') : PcOk v' r u pcu := by
  cases pcu with
  | claim val next =>
      obtain ⟨hh, hnext, ho, hno, hval⟩ := h
      exact ⟨hh, by rwa [hn], ho, hp hno, hval⟩
  | setLocked next =>
      obtain ⟨hh, hnext, ho, hno, hfol⟩ := h
      exact ⟨hh, by rwa [hn], ho, hp hno, hf hfol⟩
  | waitNext => exact ⟨h.1, hf h.2⟩
  | _ => first | exact h | simpa only [PcOk, hn] using h

/-- A thread on the way to `xchg_tail` that stays on the way keeps the head
followed. -/
theorem Followed.update {v' : View} {r' : Roles} {o o' : Option Pc} (h : Followed v r)
    (hpc : v.pc t = o) (hv' : v'.pc = Function.update v.pc t o')
    (hr' : r.queue.length ≤ r'.queue.length)
    (hc : o.any Pc.queueing = true → o'.any Pc.queueing = true) : Followed v' r' := by
  rcases h with hlen | ⟨u, pcu, hu, huq⟩
  · exact Or.inl (hlen.trans hr')
  · by_cases hut : u = t
    · subst hut
      obtain ⟨pc', rfl, hq⟩ := (Option.any_eq_true _ _).mp (hc (by simp [← hpc, hu, huq]))
      exact Or.inr ⟨u, pc', by simp [hv'], hq⟩
    · exact Or.inr ⟨u, pcu, by simpa [hv', hut] using hu, huq⟩

theorem NoPendingOwner.update {v' : View} {o : Option Pc} (h : NoPendingOwner v)
    (hv' : v'.pc = Function.update v.pc t o)
    (ho : ∀ pc', o = some pc' → pc'.pendingOwner = false) : NoPendingOwner v' := by
  intro u pcu hu
  rw [hv'] at hu
  by_cases hut : u = t
  · subst hut
    exact ho pcu (by simpa using hu)
  · exact h u pcu (by simpa [hut] using hu)

/-- A thread moves to a program point of the same class, and changes its own
node only while that node is not in the queue. -/
theorem Inv.quiet (h : Inv v r) (hpc : v.pc t = some pc)
    (ha : pc'.acquired = pc.acquired) (hp : pc'.pending = pc.pending)
    (hq : pc'.queued = pc.queued) (ho : pc'.pendingOwner = true → pc.pendingOwner = true)
    (hc : pc.queueing = true → pc'.queueing = true)
    (hl : ∀ p, pc ≠ .link p) (hl' : ∀ p, pc' ≠ .link p)
    {n : McsSpinlock} (hn : pc.queued = true → n = v.nodes t)
    (hcount : n.count = if pc'.counted then 1 else 0)
    (hok : PcOk { v with pc := Function.update v.pc t (some pc')
                         nodes := Function.update v.nodes t n } r t pc') :
    Inv { v with pc := Function.update v.pc t (some pc')
                 nodes := Function.update v.nodes t n } r := by
  have hlink : ∀ p, (some pc : Option Pc) ≠ some (.link p) := fun p e => hl p (Option.some.inj e)
  have hlink' : ∀ p, (some pc' : Option Pc) ≠ some (.link p) := fun p e => hl' p (Option.some.inj e)
  -- a thread in the queue keeps its node
  have hnode : ∀ a ∈ r.queue, Function.update v.nodes t n a = v.nodes a := by
    intro a ha
    by_cases hat : a = t
    · subst hat
      obtain ⟨pca, hpca, hqueued⟩ := (h.queue a).mp ha
      obtain rfl := Option.some.inj (hpc.symm.trans hpca)
      rw [Function.update_self, hn hqueued]
    · rw [Function.update_of_ne hat]
  exact {
    word := h.word
    owner := fun u =>
      (h.owner u).trans (or_congr_right (exists_pc_update (some pc') Pc.acquired hpc ha u))
    pender := fun u => (h.pender u).trans (exists_pc_update (some pc') Pc.pending hpc hp u)
    queue := fun u => (h.queue u).trans (exists_pc_update (some pc') Pc.queued hpc hq u)
    nodup := h.nodup
    linked := fun a b hab hb => by
      show (Function.update v.nodes t n a).next = some b
      rw [hnode a hab.mem_left]
      exact h.linked_update hpc hlink hab hb
    unlinked := fun a b p hab hb => by
      show (Function.update v.nodes t n a).next = none
      rw [hnode a hab.mem_left]
      exact h.unlinked_update (some pc') hlink' hab hb
    last := fun z hz => by
      show (Function.update v.nodes t n z).next = none
      rw [hnode z (List.mem_of_getLast? hz)]
      exact h.last z hz
    count := fun u pcu hu => by
      show (Function.update v.nodes t n u).count = _
      rcases of_update_some hu with ⟨rfl, rfl⟩ | ⟨hut, hu'⟩
      · rw [Function.update_self]
        exact hcount
      · rw [Function.update_of_ne hut]
        exact h.count u pcu hu'
    pcOk := fun u pcu hu => by
      rcases of_update_some hu with ⟨rfl, rfl⟩ | ⟨hut, hu'⟩
      · exact hok
      · refine (h.pcOk u pcu hu').mono (by simp [hut]) ?_ ?_
        · exact fun hf => hf.update hpc rfl le_rfl (by simpa using hc)
        · intro hno
          refine hno.update rfl fun pc'' e => ?_
          obtain rfl : pc' = pc'' := Option.some.inj e
          have hold := hno t pc hpc
          cases hpo : pc'.pendingOwner
          · rfl
          · rw [ho hpo] at hold
            cases hold }

end MyTests.QueuedSpin
