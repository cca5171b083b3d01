/-
MyTests/QueuedSpin/McsLock.lean

`mcs_spin_lock` and `mcs_spin_unlock` of `include/mcs_spinlock.h`, for one lock
and any number of threads.

Each thread has one node, which it hands in at every call; so a node is used
again as soon as `mcs_spin_unlock` has returned.  A step is one access to the
lock or to a node; accesses are sequentially consistent.

The abstract lock is `Lib.FifoLock`.  A caller joins its line in the `xchg` of
`mcs_spin_lock`, and leaves in the access of `mcs_spin_unlock` that gives the
lock up.  `Inv` ties the line to the nodes: `next` points to the thread behind,
except that the thread may be about to write it, and `locked` is set for the
first in the line when nobody has the lock.
-/
import MyTests.Lib.FifoLock
import MyTests.Lib.Adjacent

namespace MyTests.QueuedSpin.Mcs

open Lib FifoLock

/-- `struct mcs_spinlock`; a node is named by its thread. -/
structure Node (T : Type) where
  locked : ℕ
  next : Option T
deriving DecidableEq

/-- The next access of a thread. -/
inductive Pc (T : Type) where
  | idle
  /-- `node->locked = 0` -/
  | initLocked
  /-- `node->next = NULL` -/
  | initNext
  /-- `prev = xchg(lock, node)` -/
  | xchg
  /-- `WRITE_ONCE(prev->next, node)` -/
  | link (prev : T)
  /-- a read of `arch_mcs_spin_lock_contended(&node->locked)` -/
  | wait
  /-- `mcs_spin_lock` has returned; the next step calls `mcs_spin_unlock` -/
  | critical
  /-- `next = READ_ONCE(node->next)` -/
  | readNext
  /-- `cmpxchg_release(lock, node, NULL)` -/
  | cmpxchg
  /-- a read of `while (!(next = READ_ONCE(node->next)))` -/
  | waitNext
  /-- `arch_mcs_spin_unlock_contended(&next->locked)` -/
  | pass (next : T)
deriving DecidableEq

structure State (T : Type) where
  lock : Option T
  node : T → Node T
  pc : T → Pc T

variable {T : Type} [DecidableEq T]

def State.goto (s : State T) (t : T) (pc : Pc T) : State T :=
  { s with pc := Function.update s.pc t pc }

def State.write (s : State T) (t : T) (n : Node T) : State T :=
  { s with node := Function.update s.node t n }

/-- The next access of `t`, and what follows it up to the next one. -/
def access (t : T) (s : State T) : List (Event T) × State T :=
  match s.pc t with
  | .idle => ([], s)
  | .initLocked => ([], (s.write t { s.node t with locked := 0 }).goto t .initNext)
  | .initNext => ([], (s.write t { s.node t with next := none }).goto t .xchg)
  | .xchg =>
      match s.lock with
      | none => ([.join t, .acquire t], { s with lock := some t }.goto t .critical)
      | some prev => ([.join t], { s with lock := some t }.goto t (.link prev))
  | .link prev => ([], (s.write prev { s.node prev with next := some t }).goto t .wait)
  | .wait => if (s.node t).locked = 0 then ([], s) else ([.acquire t], s.goto t .critical)
  | .critical => ([], s.goto t .readNext)
  | .readNext =>
      match (s.node t).next with
      | none => ([], s.goto t .cmpxchg)
      | some next => ([], s.goto t (.pass next))
  | .cmpxchg =>
      if s.lock = some t then ([.release t], { s with lock := none }.goto t .idle)
      else ([], s.goto t .waitNext)
  | .waitNext =>
      match (s.node t).next with
      | none => ([], s)
      | some next => ([], s.goto t (.pass next))
  | .pass next => ([.release t], (s.write next { s.node next with locked := 1 }).goto t .idle)

inductive Action (T : Type) where
  /-- a thread that is in neither function calls `mcs_spin_lock` -/
  | call (t : T)
  | go (t : T)
deriving DecidableEq

def act : Action T → State T → Option (List (Event T) × State T)
  | .call t, s => if s.pc t = .idle then some ([], s.goto t .initLocked) else none
  | .go t, s => if s.pc t = .idle then none else some (access t s)

def Step (s : State T) (es : List (Event T)) (s' : State T) : Prop := StepOf act s es s'

/-- The nodes hold anything at the start. -/
def init (node : T → Node T) : State T := ⟨none, node, fun _ => .idle⟩

/-! ### The invariant -/

/-- In the line. -/
def Pc.queued : Pc T → Bool
  | idle | initLocked | initNext | xchg => false
  | _ => true

/-- With the lock. -/
def Pc.holding : Pc T → Bool
  | critical | readNext | cmpxchg | waitNext | pass _ => true
  | _ => false

structure Inv (s : State T) (a : FifoLock.State T) : Prop where
  nodup : a.queue.Nodup
  mem : ∀ t, t ∈ a.queue ↔ (s.pc t).queued
  lock : s.lock = a.queue.getLast?
  holder : ∀ t, (s.pc t).holding ↔ a.holder = some t
  /-- the lock is passed to the first in the line, who is past its `link` -/
  locked : ∀ t ∈ a.waiting,
    (s.node t).locked ≠ 0 ↔ a.holder = none ∧ a.waiting.head? = some t
  free : ∀ t, a.holder = none → a.waiting.head? = some t → s.pc t = .wait
  fresh : ∀ t, s.pc t = .initNext ∨ s.pc t = .xchg → (s.node t).locked = 0
  freshNext : ∀ t, s.pc t = .xchg → (s.node t).next = none
  link : ∀ t p, s.pc t = .link p → Adj a.queue p t
  unlinked : ∀ t u, Adj a.queue t u → s.pc u = .link t → (s.node t).next = none
  linked : ∀ t u, Adj a.queue t u → s.pc u ≠ .link t → (s.node t).next = some u
  last : ∀ t, a.queue.getLast? = some t → (s.node t).next = none
  waitNext : ∀ t, s.pc t = .waitNext → a.queue.getLast? ≠ some t
  pass : ∀ t n, s.pc t = .pass n → (s.node t).next = some n

variable {s s' : State T} {a a' : FifoLock.State T} {t u n : T} {pc : Pc T}

omit [DecidableEq T] in
theorem inv_init (node : T → Node T) : Inv (init node) FifoLock.init := by
  refine ⟨List.nodup_nil, ?_, rfl, ?_, ?_, ?_, ?_, ?_, ?_, ?_, ?_, ?_, ?_, ?_⟩ <;>
    simp [init, FifoLock.init, FifoLock.State.queue, Pc.queued, Pc.holding]

/-! ### Frames -/

@[simp] theorem goto_pc_self (s : State T) (t : T) (pc : Pc T) : (s.goto t pc).pc t = pc := by
  apply Function.update_self

@[simp] theorem goto_pc_of_ne (s : State T) (pc : Pc T) (h : u ≠ t) :
    (s.goto t pc).pc u = s.pc u := by
  apply Function.update_of_ne h

@[simp] theorem goto_node (s : State T) (t : T) (pc : Pc T) : (s.goto t pc).node = s.node := rfl

@[simp] theorem goto_lock (s : State T) (t : T) (pc : Pc T) : (s.goto t pc).lock = s.lock := rfl

@[simp] theorem write_node_self (s : State T) (t : T) (n : Node T) : (s.write t n).node t = n := by
  apply Function.update_self

@[simp] theorem write_node_of_ne (s : State T) (n : Node T) (h : u ≠ t) :
    (s.write t n).node u = s.node u := by
  apply Function.update_of_ne h

@[simp] theorem write_pc (s : State T) (t : T) (n : Node T) : (s.write t n).pc = s.pc := rfl

@[simp] theorem write_lock (s : State T) (t : T) (n : Node T) : (s.write t n).lock = s.lock := rfl

theorem write_same (s : State T) (t : T) : s.write t (s.node t) = s := by
  unfold State.write
  rw [Function.update_eq_self]

omit [DecidableEq T] in
theorem Pc.not_holding (h : pc.queued = false) : pc.holding = false := by
  cases pc <;> first | rfl | exact absurd h.symm Bool.false_ne_true

omit [DecidableEq T] in
theorem Pc.queued_of_holding (h : pc.holding = true) : pc.queued = true := by
  cases pc <;> first | rfl | exact absurd h Bool.false_ne_true

omit [DecidableEq T] in
theorem mem_queue_of_waiting (h : t ∈ a.waiting) : t ∈ a.queue :=
  List.mem_append_right _ h

theorem of_goto {pc' : Pc T} (hu : (s.goto t pc).pc u = pc') (hne : pc' ≠ pc) : s.pc u = pc' := by
  by_cases hut : u = t
  · rw [hut, goto_pc_self] at hu
    exact absurd hu.symm hne
  · rwa [goto_pc_of_ne _ _ hut] at hu

/-- A thread outside the line changes its own node. -/
theorem Inv.outside (h : Inv s a) (hpc : (s.pc t).queued = false) (hpc' : pc.queued = false)
    {node : Node T} (hfresh : pc = .initNext ∨ pc = .xchg → node.locked = 0)
    (hnext : pc = .xchg → node.next = none) : Inv ((s.write t node).goto t pc) a := by
  have hout : ∀ u ∈ a.queue, u ≠ t := by
    rintro u hu rfl
    rw [h.mem, hpc] at hu
    exact absurd hu Bool.false_ne_true
  have hnode : ∀ u ∈ a.queue, ((s.write t node).goto t pc).node u = s.node u := fun u hu =>
    write_node_of_ne s node (hout u hu)
  have hsame : ∀ u ∈ a.queue, ((s.write t node).goto t pc).pc u = s.pc u := fun u hu =>
    goto_pc_of_ne _ pc (hout u hu)
  -- what is in the line after the step is another thread's, which has not moved
  have hother : ∀ u pc', ((s.write t node).goto t pc).pc u = pc' → pc'.queued = true →
      s.pc u = pc' := by
    intro u pc' hu hq
    by_cases hut : u = t
    · rw [hut, goto_pc_self] at hu
      rw [← hu, hpc'] at hq
      exact absurd hq Bool.false_ne_true
    · rwa [goto_pc_of_ne _ _ hut] at hu
  refine
    { nodup := h.nodup
      mem := fun u => ?_
      lock := h.lock
      holder := fun u => ?_
      locked := fun u hu => ?_
      free := fun u hn hu => ?_
      fresh := fun u hu => ?_
      freshNext := fun u hu => ?_
      link := fun u p hu => h.link u p (hother u _ hu rfl)
      unlinked := fun u v hadj hv => ?_
      linked := fun u v hadj hv => ?_
      last := fun u hu => ?_
      waitNext := fun u hu => h.waitNext u (hother u _ hu rfl)
      pass := fun u n hu => ?_ }
  · by_cases hut : u = t
    · rw [hut, goto_pc_self, hpc', ← hpc]
      exact h.mem t
    · rw [goto_pc_of_ne _ _ hut]
      exact h.mem u
  · by_cases hut : u = t
    · have hnone := h.holder t
      rw [Pc.not_holding hpc] at hnone
      rwa [hut, goto_pc_self, Pc.not_holding hpc']
    · rw [goto_pc_of_ne _ _ hut]
      exact h.holder u
  · rw [hnode u (mem_queue_of_waiting hu)]
    exact h.locked u hu
  · rw [hsame u (mem_queue_of_waiting (List.mem_of_mem_head? hu))]
    exact h.free u hn hu
  · by_cases hut : u = t
    · rw [hut, goto_pc_self] at hu
      rw [hut]
      exact (congrArg Node.locked (write_node_self s t node)).trans (hfresh hu)
    · rw [goto_pc_of_ne _ _ hut] at hu
      exact (congrArg Node.locked (write_node_of_ne s node hut)).trans (h.fresh u hu)
  · by_cases hut : u = t
    · rw [hut, goto_pc_self] at hu
      rw [hut]
      exact (congrArg Node.next (write_node_self s t node)).trans (hnext hu)
    · rw [goto_pc_of_ne _ _ hut] at hu
      exact (congrArg Node.next (write_node_of_ne s node hut)).trans (h.freshNext u hu)
  -- a link is between two threads of the line, and neither is `t`
  · rw [hnode u hadj.mem_left]
    exact h.unlinked u v hadj (hother v _ hv rfl)
  · rw [hnode u hadj.mem_left]
    rw [hsame v hadj.mem_right] at hv
    exact h.linked u v hadj hv
  · rw [hnode u (List.mem_of_getLast? hu)]
    exact h.last u hu
  · have hold := hother u _ hu rfl
    rw [hnode u ((h.mem u).mpr (by rw [hold]; rfl))]
    exact h.pass u n hold

/-- The thread that has the lock goes on. -/
theorem Inv.keep (h : Inv s a) (hpc : (s.pc t).holding = true) (hpc' : pc.holding = true)
    (hwait : pc = .waitNext → a.queue.getLast? ≠ some t)
    (hpass : ∀ n, pc = .pass n → (s.node t).next = some n) : Inv (s.goto t pc) a := by
  -- a thread that does not have the lock is not `t`, and has not moved
  have hother : ∀ u pc', (s.goto t pc).pc u = pc' → pc'.holding = false → s.pc u = pc' := by
    intro u pc' hu hq
    by_cases hut : u = t
    · rw [hut, goto_pc_self] at hu
      rw [← hu, hpc'] at hq
      exact absurd hq.symm Bool.false_ne_true
    · rwa [goto_pc_of_ne _ _ hut] at hu
  have hhas : a.holder = some t := (h.holder t).mp hpc
  refine
    { nodup := h.nodup
      mem := fun u => ?_
      lock := h.lock
      holder := fun u => ?_
      locked := h.locked
      free := fun u hn => ?_
      fresh := fun u hu => ?_
      freshNext := fun u hu => h.freshNext u (hother u _ hu rfl)
      link := fun u p hu => h.link u p (hother u _ hu rfl)
      unlinked := fun u v hadj hv => h.unlinked u v hadj (hother v _ hv rfl)
      linked := fun u v hadj hv => h.linked u v hadj fun hlink => hv ?_
      last := h.last
      waitNext := fun u hu => ?_
      pass := fun u n hu => ?_ }
  · by_cases hut : u = t
    · rw [hut, goto_pc_self, Pc.queued_of_holding hpc', h.mem, Pc.queued_of_holding hpc]
    · rw [goto_pc_of_ne _ _ hut]
      exact h.mem u
  · by_cases hut : u = t
    · rw [hut, goto_pc_self, hpc']
      exact iff_of_true rfl hhas
    · rw [goto_pc_of_ne _ _ hut]
      exact h.holder u
  · rw [hhas] at hn
    exact absurd hn (Option.some_ne_none t)
  · rcases hu with hu | hu
    · exact h.fresh u (.inl (hother u _ hu rfl))
    · exact h.fresh u (.inr (hother u _ hu rfl))
  · have hvt : v ≠ t := by
      rintro rfl
      rw [hlink] at hpc
      exact absurd hpc Bool.false_ne_true
    rwa [goto_pc_of_ne _ _ hvt]
  · by_cases hut : u = t
    · rw [hut, goto_pc_self] at hu
      rw [hut]
      exact hwait hu
    · rw [goto_pc_of_ne _ _ hut] at hu
      exact h.waitNext u hu
  · by_cases hut : u = t
    · rw [hut, goto_pc_self] at hu
      rw [hut]
      exact hpass n hu
    · rw [goto_pc_of_ne _ _ hut] at hu
      exact h.pass u n hu

/-! ### The steps that change the line -/

/-- `xchg` -/
theorem Inv.join (h : Inv s a) (hpc : s.pc t = .xchg) {prev : T} (hlock : s.lock = some prev) :
    Inv ({ s with lock := some t }.goto t (.link prev)) ⟨a.holder, a.waiting ++ [t]⟩ := by
  have hqueue : FifoLock.State.queue ⟨a.holder, a.waiting ++ [t]⟩ = a.queue ++ [t] :=
    (List.append_assoc _ _ _).symm
  have hout : t ∉ a.queue := by
    rw [h.mem, hpc]
    exact Bool.false_ne_true
  have hmem : ∀ u ∈ a.queue, u ≠ t := fun u hu hut => hout (hut ▸ hu)
  have hprev : a.queue.getLast? = some prev := h.lock.symm.trans hlock
  -- somebody is in front, so the first in the line is not `t`
  have hfirst : ∀ u, a.holder = none → ((a.waiting ++ [t]).head? = some u
      ↔ a.waiting.head? = some u) := by
    intro u hn
    cases hw : a.waiting with
    | nil =>
        have hempty : a.queue = [] := by
          unfold FifoLock.State.queue
          rw [hn, hw]
          rfl
        rw [hempty] at hprev
        exact absurd hprev.symm (Option.some_ne_none prev)
    | cons x xs => exact Iff.rfl
  refine
    { nodup := ?_
      mem := fun u => ?_
      lock := ?_
      holder := fun u => ?_
      locked := fun u hu => ?_
      free := fun u hn hu => ?_
      fresh := fun u hu => ?_
      freshNext := fun u hu => h.freshNext u (of_goto hu (by simp))
      link := fun u p hu => ?_
      unlinked := fun x v hadj hv => ?_
      linked := fun x v hadj hv => ?_
      last := fun u hu => ?_
      waitNext := fun u hu => ?_
      pass := fun u n hu => h.pass u n (of_goto hu (by simp)) }
  · rw [hqueue]
    refine List.nodup_append.mpr ⟨h.nodup, List.nodup_singleton t, ?_⟩
    rintro x hx y hy rfl
    exact hmem x hx (List.mem_singleton.mp hy)
  · rw [hqueue, List.mem_append, List.mem_singleton]
    by_cases hut : u = t
    · rw [hut, goto_pc_self]
      exact iff_of_true (.inr rfl) rfl
    · rw [goto_pc_of_ne _ _ hut, ← h.mem u]
      exact or_iff_left hut
  · rw [hqueue, List.getLast?_concat]
    rfl
  · by_cases hut : u = t
    · have hnone := h.holder t
      rw [hpc] at hnone
      rwa [hut, goto_pc_self]
    · rw [goto_pc_of_ne _ _ hut]
      exact h.holder u
  · rw [and_congr_right fun hn => hfirst u hn]
    rcases List.mem_append.mp hu with hu | hu
    · exact h.locked u hu
    · obtain rfl := List.mem_singleton.mp hu
      refine iff_of_false (fun hl => hl (h.fresh u (.inr hpc))) fun hhead => ?_
      exact hout (mem_queue_of_waiting (List.mem_of_mem_head? hhead.2))
  · have hu' := (hfirst u hn).mp hu
    rw [goto_pc_of_ne _ _ (hmem u (mem_queue_of_waiting (List.mem_of_mem_head? hu')))]
    exact h.free u hn hu'
  · rcases hu with hu | hu
    · exact h.fresh u (.inl (of_goto hu (by simp)))
    · exact h.fresh u (.inr (of_goto hu (by simp)))
  · rw [hqueue, adj_concat]
    by_cases hut : u = t
    · rw [hut, goto_pc_self] at hu
      obtain rfl := Pc.link.inj hu
      exact .inr ⟨hprev, hut⟩
    · rw [goto_pc_of_ne _ _ hut] at hu
      exact .inl (h.link u p hu)
  · rw [hqueue, adj_concat] at hadj
    rcases hadj with hadj | ⟨hx, rfl⟩
    · rw [goto_pc_of_ne _ _ (hmem v hadj.mem_right)] at hv
      exact h.unlinked x v hadj hv
    · exact h.last x hx
  · rw [hqueue, adj_concat] at hadj
    rcases hadj with hadj | ⟨hx, rfl⟩
    · rw [goto_pc_of_ne _ _ (hmem v hadj.mem_right)] at hv
      exact h.linked x v hadj hv
    · obtain rfl := Option.some.inj (hprev.symm.trans hx)
      exact absurd (goto_pc_self _ _ _) hv
  · rw [hqueue, List.getLast?_concat] at hu
    obtain rfl := Option.some.inj hu
    exact h.freshNext t hpc
  · rw [hqueue, List.getLast?_concat]
    rintro hut
    obtain rfl := Option.some.inj hut
    rw [goto_pc_self] at hu
    exact absurd hu (by simp)

/-- `xchg` of a lock that is free -/
theorem Inv.take (h : Inv s a) (hpc : s.pc t = .xchg) (hlock : s.lock = none) :
    a = FifoLock.init ∧ Inv ({ s with lock := some t }.goto t .critical) ⟨some t, []⟩ := by
  have hempty : a.queue = [] := List.getLast?_eq_none_iff.mp (h.lock.symm.trans hlock)
  obtain ⟨hholder, hwaiting⟩ := List.append_eq_nil_iff.mp hempty
  have hnone : a.holder = none := Option.toList_eq_nil_iff.mp hholder
  have hqueue : FifoLock.State.queue ⟨some t, []⟩ = [t] := rfl
  -- the line was empty, so whoever is not `t` is outside of it
  have hidle : ∀ u pc', ({ s with lock := some t }.goto t .critical).pc u = pc' →
      pc' ≠ .critical → pc'.queued = false ∧ s.pc u = pc' := by
    intro u pc' hu hne
    by_cases hut : u = t
    · rw [hut, goto_pc_self] at hu
      exact absurd hu.symm hne
    · rw [goto_pc_of_ne _ _ hut] at hu
      refine ⟨?_, hu⟩
      have hq := h.mem u
      rw [hempty, hu] at hq
      exact Bool.eq_false_iff.mpr fun hq' => List.not_mem_nil (hq.mpr hq')
  refine
    ⟨?_,
    { nodup := List.nodup_singleton t
      mem := fun u => ?_
      lock := rfl
      holder := fun u => ?_
      locked := fun u hu => absurd hu List.not_mem_nil
      free := fun u hn => absurd hn (Option.some_ne_none t)
      fresh := fun u hu => ?_
      freshNext := fun u hu => h.freshNext u (hidle u _ hu (by simp)).2
      link := fun u p hu => absurd (hidle u _ hu (by simp)).1 (by simp [Pc.queued])
      unlinked := fun x v hadj => absurd hadj not_adj_singleton
      linked := fun x v hadj => absurd hadj not_adj_singleton
      last := fun u hu => ?_
      waitNext := fun u hu => absurd (hidle u _ hu (by simp)).1 (by simp [Pc.queued])
      pass := fun u n hu => absurd (hidle u _ hu (by simp)).1 (by simp [Pc.queued]) }⟩
  · cases a with
    | mk holder waiting =>
        obtain rfl : holder = none := hnone
        obtain rfl : waiting = [] := hwaiting
        rfl
  · rw [hqueue, List.mem_singleton]
    by_cases hut : u = t
    · rw [hut, goto_pc_self]
      exact iff_of_true rfl rfl
    · refine iff_of_false hut fun hq => ?_
      by_cases hc : ({ s with lock := some t }.goto t .critical).pc u = .critical
      · rw [goto_pc_of_ne _ _ hut] at hc
        have hmem := (h.mem u).mpr (by rw [hc]; rfl)
        rw [hempty] at hmem
        exact List.not_mem_nil hmem
      · rw [(hidle u _ rfl hc).1] at hq
        exact Bool.false_ne_true hq
  · by_cases hut : u = t
    · rw [hut, goto_pc_self]
      exact iff_of_true rfl rfl
    · rw [goto_pc_of_ne _ _ hut]
      refine (h.holder u).trans (iff_of_false ?_ ?_)
      · rw [hnone]
        exact (Option.some_ne_none u).symm
      · exact fun he => hut (Option.some.inj he).symm
  · rcases hu with hu | hu
    · exact h.fresh u (.inl (hidle u _ hu (by simp)).2)
    · exact h.fresh u (.inr (hidle u _ hu (by simp)).2)
  · obtain rfl : t = u := Option.some.inj hu
    exact h.freshNext t hpc

/-- `WRITE_ONCE(prev->next, node)` -/
theorem Inv.linkPrev (h : Inv s a) (hpc : s.pc t = .link u) :
    Inv ((s.write u { s.node u with next := some t }).goto t .wait) a := by
  have hadj : Adj a.queue u t := h.link t u hpc
  have hnone : (s.node u).next = none := h.unlinked u t hadj hpc
  -- the store changes the link of `u` alone, and nobody's `locked`
  have hlocked : ∀ x, (((s.write u { s.node u with next := some t }).goto t .wait).node x).locked
      = (s.node x).locked := by
    intro x
    by_cases hx : x = u
    · rw [hx, goto_node, write_node_self]
    · rw [goto_node, write_node_of_ne _ _ hx]
  have hnext : ∀ x, x ≠ u →
      ((s.write u { s.node u with next := some t }).goto t .wait).node x = s.node x := fun x hx =>
    write_node_of_ne s _ hx
  refine
    { nodup := h.nodup
      mem := fun x => ?_
      lock := h.lock
      holder := fun x => ?_
      locked := fun x hx => by rw [hlocked]; exact h.locked x hx
      free := fun x hn hx => ?_
      fresh := fun x hx => ?_
      freshNext := fun x hx => ?_
      link := fun x p hx => h.link x p (of_goto hx (by simp))
      unlinked := fun x v hxv hv => ?_
      linked := fun x v hxv hv => ?_
      last := fun x hx => ?_
      waitNext := fun x hx => h.waitNext x (of_goto hx (by simp))
      pass := fun x n hx => ?_ }
  · by_cases hxt : x = t
    · rw [hxt, goto_pc_self, h.mem, hpc]
      exact iff_of_true rfl rfl
    · rw [goto_pc_of_ne _ _ hxt]
      exact h.mem x
  · by_cases hxt : x = t
    · have hiff := h.holder t
      rw [hpc] at hiff
      rwa [hxt, goto_pc_self]
    · rw [goto_pc_of_ne _ _ hxt]
      exact h.holder x
  · by_cases hxt : x = t
    · rw [hxt, goto_pc_self]
    · rw [goto_pc_of_ne _ _ hxt]
      exact h.free x hn hx
  · rw [hlocked]
    rcases hx with hx | hx
    · exact h.fresh x (.inl (of_goto hx (by simp)))
    · exact h.fresh x (.inr (of_goto hx (by simp)))
  · have hxchg : s.pc x = .xchg := of_goto hx (by simp)
    have hxu : x ≠ u := by
      rintro rfl
      have hmem := (h.mem x).mp hadj.mem_left
      rw [hxchg] at hmem
      exact Bool.false_ne_true hmem
    rw [hnext x hxu]
    exact h.freshNext x hxchg
  · have hlink := of_goto hv (by simp)
    have hxu : x ≠ u := by
      rintro rfl
      obtain rfl := hxv.right_unique h.nodup hadj
      rw [goto_pc_self] at hv
      exact absurd hv (by simp)
    rw [hnext x hxu]
    exact h.unlinked x v hxv hlink
  -- `t` is the one successor of `u`, and no longer on its way to link itself
  · by_cases hvt : v = t
    · subst hvt
      obtain rfl := hxv.left_unique h.nodup hadj
      rw [goto_node, write_node_self]
    · have hxu : x ≠ u := by
        rintro rfl
        exact hvt (hxv.right_unique h.nodup hadj)
      rw [goto_pc_of_ne _ _ hvt] at hv
      rw [hnext x hxu]
      exact h.linked x v hxv hv
  -- the last of the line has no link, and `u` has a successor
  · have hxu : x ≠ u := fun hxu => hadj.getLast?_ne h.nodup (hxu ▸ hx)
    rw [hnext x hxu]
    exact h.last x hx
  -- who passes the lock on has read its link, so it is not `u`, whose link was empty
  · have hpass := h.pass x n (of_goto hx (by simp))
    have hxu : x ≠ u := by
      rintro rfl
      rw [hnone] at hpass
      exact absurd hpass.symm (Option.some_ne_none n)
    rw [hnext x hxu]
    exact hpass

/-- The wait for `locked` ends. -/
theorem Inv.acquire (h : Inv s a) (hpc : s.pc t = .wait) (hl : (s.node t).locked ≠ 0) :
    ∃ q, a = ⟨none, t :: q⟩ ∧ Inv (s.goto t .critical) ⟨some t, q⟩ := by
  have hmem : t ∈ a.queue := (h.mem t).mpr (by rw [hpc]; rfl)
  -- the holder is not at the wait
  have hnot : a.holder ≠ some t := by
    intro hh
    have hhold := (h.holder t).mpr hh
    rw [hpc] at hhold
    exact Bool.false_ne_true hhold
  have hwait : t ∈ a.waiting := by
    rcases List.mem_append.mp hmem with hh | hw
    · exact absurd (Option.mem_toList.mp hh) hnot
    · exact hw
  -- `locked` is set for the first of the line alone, and when nobody has the lock
  obtain ⟨hnone, hhead⟩ := (h.locked t hwait).mp hl
  cases a with
  | mk holder waiting =>
      obtain rfl : holder = none := hnone
      obtain ⟨q, rfl⟩ := List.head?_eq_some_iff.mp hhead
      have hnodup : t ∉ q := (List.nodup_cons.mp h.nodup).1
      refine ⟨q, rfl,
        { nodup := h.nodup
          mem := fun u => ?_
          lock := h.lock
          holder := fun u => ?_
          locked := fun u hu => ?_
          free := fun u hn => absurd hn (Option.some_ne_none t)
          fresh := fun u hu => ?_
          freshNext := fun u hu => h.freshNext u (of_goto hu (by simp))
          link := fun u p hu => h.link u p (of_goto hu (by simp))
          unlinked := fun x v hadj hv => h.unlinked x v hadj (of_goto hv (by simp))
          linked := fun x v hadj hv => h.linked x v hadj fun hlink => hv ?_
          last := h.last
          waitNext := fun u hu => h.waitNext u (of_goto hu (by simp))
          pass := fun u n hu => h.pass u n (of_goto hu (by simp)) }⟩
      · by_cases hut : u = t
        · rw [hut, goto_pc_self]
          exact iff_of_true hmem rfl
        · rw [goto_pc_of_ne _ _ hut]
          exact h.mem u
      · by_cases hut : u = t
        · rw [hut, goto_pc_self]
          exact iff_of_true rfl rfl
        · rw [goto_pc_of_ne _ _ hut]
          refine (h.holder u).trans (iff_of_false (Option.some_ne_none u).symm ?_)
          exact fun he => hut (Option.some.inj he).symm
      · have hiff := h.locked u (List.mem_cons_of_mem t hu)
        refine hiff.trans (iff_of_false ?_ fun hsome => Option.some_ne_none t hsome.1)
        rintro ⟨-, he⟩
        exact hnodup ((Option.some.inj he : t = u) ▸ hu)
      · rcases hu with hu | hu
        · exact h.fresh u (.inl (of_goto hu (by simp)))
        · exact h.fresh u (.inr (of_goto hu (by simp)))
      · have hvt : v ≠ t := by
          rintro rfl
          rw [hpc] at hlink
          exact absurd hlink (by simp)
        rwa [goto_pc_of_ne _ _ hvt]

omit [DecidableEq T] in
/-- The line in front of the thread that has the lock. -/
theorem Inv.holding (h : Inv s a) (hpc : (s.pc t).holding = true) :
    ∃ q, a = ⟨some t, q⟩ ∧ t ∉ q := by
  have hhas : a.holder = some t := (h.holder t).mp hpc
  cases a with
  | mk holder waiting =>
      obtain rfl : holder = some t := hhas
      exact ⟨waiting, rfl, (List.nodup_cons.mp h.nodup).1⟩

/-- `cmpxchg_release(lock, node, NULL)` -/
theorem Inv.leave (h : Inv s a) (hpc : s.pc t = .cmpxchg) (hlock : s.lock = some t) :
    a = ⟨some t, []⟩ ∧ Inv ({ s with lock := none }.goto t .idle) FifoLock.init := by
  obtain ⟨q, rfl, hnodup⟩ := h.holding (t := t) (by rw [hpc]; rfl)
  -- the lock word still names `t`, so nobody has joined behind it
  have hq : q = [] := by
    have hlast : (t :: q).getLast? = some t := h.lock.symm.trans hlock
    cases q with
    | nil => rfl
    | cons x xs =>
        rw [List.getLast?_cons_cons] at hlast
        exact absurd (List.mem_of_getLast? hlast) hnodup
  subst hq
  have hout : ∀ u, (({ s with lock := none }.goto t .idle).pc u).queued = false := by
    intro u
    by_cases hut : u = t
    · rw [hut, goto_pc_self]
      rfl
    · rw [goto_pc_of_ne _ _ hut]
      refine Bool.eq_false_iff.mpr fun hq => hut ?_
      exact List.mem_singleton.mp ((h.mem u).mpr hq)
  -- nobody is left in the line
  have hnever : ∀ u pc', ({ s with lock := none }.goto t .idle).pc u = pc' → pc'.queued = true →
      False := by
    intro u pc' hu hq
    rw [← hu, hout u] at hq
    exact Bool.false_ne_true hq
  refine ⟨rfl,
    { nodup := List.nodup_nil
      mem := fun u => ?_
      lock := rfl
      holder := fun u => ?_
      locked := fun u hu => absurd hu List.not_mem_nil
      free := fun u _ hu => absurd hu.symm (Option.some_ne_none u)
      fresh := fun u hu => ?_
      freshNext := fun u hu => h.freshNext u (of_goto hu (by simp))
      link := fun u p hu => (hnever u _ hu rfl).elim
      unlinked := fun x v hadj => absurd hadj adj_nil
      linked := fun x v hadj => absurd hadj adj_nil
      last := fun u hu => absurd hu.symm (Option.some_ne_none u)
      waitNext := fun u hu => (hnever u _ hu rfl).elim
      pass := fun u n hu => (hnever u _ hu rfl).elim }⟩
  · rw [hout u]
    exact iff_of_false List.not_mem_nil Bool.false_ne_true
  · rw [Pc.not_holding (hout u)]
    exact iff_of_false Bool.false_ne_true (Option.some_ne_none u).symm
  · rcases hu with hu | hu
    · exact h.fresh u (.inl (of_goto hu (by simp)))
    · exact h.fresh u (.inr (of_goto hu (by simp)))

omit [DecidableEq T] in
/-- The one that is passed the lock stands behind the holder, and waits. -/
theorem Inv.heir (h : Inv s a) (hpc : (s.pc t).holding = true) (hnext : (s.node t).next = some n) :
    ∃ q, a = ⟨some t, n :: q⟩ ∧ s.pc n = .wait := by
  obtain ⟨q, rfl, hnodup⟩ := h.holding hpc
  cases q with
  | nil =>
      rw [h.last t rfl] at hnext
      exact absurd hnext.symm (Option.some_ne_none n)
  | cons m q =>
      have hadj : Adj (t :: m :: q) t m := adj_cons.mpr (.inl ⟨rfl, rfl⟩)
      have hlink : s.pc m ≠ .link t := by
        intro hlink
        rw [h.unlinked t m hadj hlink] at hnext
        exact absurd hnext.symm (Option.some_ne_none n)
      obtain rfl : m = n := Option.some.inj ((h.linked t m hadj hlink).symm.trans hnext)
      refine ⟨q, rfl, ?_⟩
      have hq : (s.pc m).queued = true := (h.mem m).mp hadj.mem_right
      have hh : (s.pc m).holding ≠ true := fun hh =>
        hadj.ne h.nodup (Option.some.inj ((h.holder m).mp hh))
      cases hm : s.pc m with
      | wait => rfl
      | link p =>
          obtain rfl := (h.link m p hm).left_unique h.nodup hadj
          exact absurd hm hlink
      | _ =>
          rw [hm] at hq hh
          first
            | exact absurd hq Bool.false_ne_true
            | exact absurd rfl hh

/-- The lock is passed on. -/
theorem Inv.passOn (h : Inv s a) (hpc : s.pc t = .pass n) :
    ∃ q, a = ⟨some t, n :: q⟩
      ∧ Inv ((s.write n { s.node n with locked := 1 }).goto t .idle) ⟨none, n :: q⟩ := by
  have hhold : (s.pc t).holding = true := by rw [hpc]; rfl
  obtain ⟨q, rfl, hwait⟩ := h.heir hhold (h.pass t n hpc)
  have hnodup := List.nodup_cons.mp h.nodup
  -- `t` leaves the line, so it is nobody who stays there
  have hin : ∀ u ∈ n :: q, u ≠ t := fun u hu hut => hnodup.1 (hut ▸ hu)
  have hnext : ∀ u, (((s.write n { s.node n with locked := 1 }).goto t .idle).node u).next
      = (s.node u).next := by
    intro u
    by_cases hun : u = n
    · rw [hun, goto_node, write_node_self]
    · rw [goto_node, write_node_of_ne _ _ hun]
  refine ⟨q, rfl,
    { nodup := hnodup.2
      mem := fun u => ?_
      lock := h.lock
      holder := fun u => ?_
      locked := fun u hu => ?_
      free := fun u _ hu => ?_
      fresh := fun u hu => ?_
      freshNext := fun u hu => by rw [hnext]; exact h.freshNext u (of_goto hu (by simp))
      link := fun u p hu => ?_
      unlinked := fun x v hadj hv => ?_
      linked := fun x v hadj hv => ?_
      last := fun u hu => by rw [hnext]; exact h.last u hu
      waitNext := fun u hu => h.waitNext u (of_goto hu (by simp))
      pass := fun u m hu => by rw [hnext]; exact h.pass u m (of_goto hu (by simp)) }⟩
  · by_cases hut : u = t
    · rw [hut, goto_pc_self]
      exact iff_of_false hnodup.1 Bool.false_ne_true
    · rw [goto_pc_of_ne _ _ hut]
      refine Iff.trans ?_ (h.mem u)
      exact ⟨List.mem_cons_of_mem t, fun hu => (List.mem_cons.mp hu).resolve_left hut⟩
  · by_cases hut : u = t
    · rw [hut, goto_pc_self]
      exact iff_of_false Bool.false_ne_true (Option.some_ne_none t).symm
    · rw [goto_pc_of_ne _ _ hut]
      refine (h.holder u).trans (iff_of_false ?_ (Option.some_ne_none u).symm)
      exact fun he => hut (Option.some.inj he).symm
  · by_cases hun : u = n
    · rw [hun, goto_node, write_node_self]
      exact iff_of_true Nat.one_ne_zero ⟨rfl, rfl⟩
    · rw [goto_node, write_node_of_ne _ _ hun]
      refine (h.locked u hu).trans (iff_of_false (fun hs => Option.some_ne_none t hs.1) ?_)
      exact fun he => hun (Option.some.inj he.2).symm
  · obtain rfl : n = u := Option.some.inj hu
    rw [goto_pc_of_ne _ _ (hin n List.mem_cons_self)]
    exact hwait
  -- a fresh node is not the one of `n`, which waits
  · have hfresh : s.pc u = .initNext ∨ s.pc u = .xchg := by
      rcases hu with hu | hu
      · exact .inl (of_goto hu (by simp))
      · exact .inr (of_goto hu (by simp))
    have hun : u ≠ n := by
      rintro rfl
      rw [hwait] at hfresh
      rcases hfresh with hf | hf
      · exact absurd hf (by simp)
      · exact absurd hf (by simp)
    rw [goto_node, write_node_of_ne _ _ hun]
    exact h.fresh u hfresh
  · have hlink : s.pc u = .link p := of_goto hu (by simp)
    -- `n` has linked itself, so whoever has still to do so stands further back
    rcases adj_cons.mp (h.link u p hlink) with ⟨-, hhead⟩ | hadj
    · obtain rfl : n = u := Option.some.inj hhead
      rw [hwait] at hlink
      exact absurd hlink (by simp)
    · exact hadj
  · rw [hnext]
    exact h.unlinked x v (adj_cons.mpr (.inr hadj)) (of_goto hv (by simp))
  · rw [hnext]
    rw [goto_pc_of_ne _ _ (hin v hadj.mem_right)] at hv
    exact h.linked x v (adj_cons.mpr (.inr hadj)) hv

/-! ### Refinement -/

theorem Inv.goto_outside (h : Inv s a) (hpc : (s.pc t).queued = false) (hpc' : pc.queued = false)
    (hfresh : pc ≠ .initNext ∧ pc ≠ .xchg) : Inv (s.goto t pc) a := by
  have hout : Inv ((s.write t (s.node t)).goto t pc) a :=
    h.outside hpc hpc' (fun hf => (hf.elim hfresh.1 hfresh.2).elim) fun hf => (hfresh.2 hf).elim
  rwa [write_same] at hout

/-- **One access**, which the abstract lock follows. -/
theorem Inv.refines (h : Inv s a) (t : T) :
    ∃ a', Run FifoLock.Step a (access t s).1 a' ∧ Inv (access t s).2 a' := by
  have hstay : ∀ s', Inv s' a → ∃ a', Run FifoLock.Step a [] a' ∧ Inv s' a' := fun s' hs' =>
    ⟨a, .refl, hs'⟩
  unfold access
  split
  · exact hstay _ h
  · rename_i hpc
    exact hstay _ (h.outside (by rw [hpc]; rfl) rfl (fun _ => rfl) (by simp))
  · rename_i hpc
    refine hstay _ (h.outside (by rw [hpc]; rfl) rfl (fun _ => ?_) fun _ => rfl)
    exact h.fresh t (.inl hpc)
  · rename_i hpc
    have hout : t ∉ a.queue := by
      rw [h.mem, hpc]
      exact Bool.false_ne_true
    split
    · rename_i hlock
      -- the lock is free: the thread joins and gets it in one access
      obtain ⟨rfl, hnew⟩ := h.take hpc hlock
      exact ⟨_, (Run.single (Step.join t hout)).tail Step.acquire, hnew⟩
    -- the lock is taken: the thread joins, and gets it later
    · rename_i prev hlock
      exact ⟨_, Run.single (.join t hout), h.join hpc hlock⟩
  · rename_i prev hpc
    exact hstay _ (h.linkPrev hpc)
  · rename_i hpc
    split
    · exact hstay _ h
    · rename_i hl
      obtain ⟨q, rfl, hnew⟩ := h.acquire hpc hl
      exact ⟨_, Run.single .acquire, hnew⟩
  · rename_i hpc
    exact hstay _ (h.keep (by rw [hpc]; rfl) rfl (by simp) (by simp))
  · rename_i hpc
    split
    · exact hstay _ (h.keep (by rw [hpc]; rfl) rfl (by simp) (by simp))
    · rename_i next hnext
      refine hstay _ (h.keep (by rw [hpc]; rfl) rfl (by simp) fun n hn => ?_)
      rw [hnext, Pc.pass.inj hn]
  · rename_i hpc
    split
    · rename_i hlock
      obtain ⟨rfl, hnew⟩ := h.leave hpc hlock
      exact ⟨_, Run.single .release, hnew⟩
    · rename_i hlock
      refine hstay _ (h.keep (by rw [hpc]; rfl) rfl (fun _ hlast => ?_) (by simp))
      exact hlock (h.lock.trans hlast)
  · rename_i hpc
    split
    · exact hstay _ h
    · rename_i next hnext
      refine hstay _ (h.keep (by rw [hpc]; rfl) rfl (by simp) fun n hn => ?_)
      rw [hnext, Pc.pass.inj hn]
  · rename_i next hpc
    obtain ⟨q, rfl, hnew⟩ := h.passOn hpc
    exact ⟨_, Run.single .release, hnew⟩

theorem simulation : Simulation (Step (T := T)) FifoLock.Step Inv := by
  rintro s e s' a ⟨act, hact⟩ h
  cases act with
  | call t =>
      dsimp only [Mcs.act] at hact
      split at hact
      · rename_i hpc
        obtain ⟨rfl, rfl⟩ := Prod.mk.inj (Option.some.inj hact)
        exact ⟨a, .refl, h.goto_outside (by rw [hpc]; rfl) rfl (by simp)⟩
      · exact absurd hact (by simp)
  | go t =>
      dsimp only [Mcs.act] at hact
      split at hact
      · exact absurd hact (by simp)
      · obtain ⟨rfl, rfl⟩ := Prod.mk.inj (Option.some.inj hact)
        exact h.refines t

omit [DecidableEq T] in
/-- The nodes that a thread writes besides its own. -/
theorem Inv.accesses (h : Inv s a) :
    (∀ t p, s.pc t = .link p → p ∈ a.queue) ∧ ∀ t n, s.pc t = .pass n → n ∈ a.queue := by
  refine ⟨fun t p hpc => (h.link t p hpc).mem_left, fun t n hpc => ?_⟩
  obtain ⟨q, rfl, -⟩ := h.heir (t := t) (by rw [hpc]; rfl) (h.pass t n hpc)
  exact List.mem_cons_of_mem t List.mem_cons_self

/-- **The MCS lock is a first-come, first-served lock.**  For any number of threads, whatever the
nodes hold at the start and whatever the order of the accesses: the events are those of a run of
the abstract lock, whose line is made of the threads between their `xchg` and the access that
gives the lock up; at most one thread has the lock; the callers get it in the order of their
`xchg`, each after the one before has given it up; and a thread whose node another one is about to
write is in the line, so a node is free for another use when `mcs_spin_unlock` returns. -/
theorem mcs_fifo {node : T → Node T} {es : List (Event T)} (h : Run Step (init node) es s) :
    (∃ a, Run FifoLock.Step FifoLock.init es a ∧ ∀ t, t ∈ a.queue ↔ (s.pc t).queued)
      ∧ (∀ t u, (s.pc t).holding → (s.pc u).holding → t = u)
      ∧ es.filterMap Event.acquires <+: es.filterMap Event.joins
      ∧ es.filterMap Event.releases <+: es.filterMap Event.acquires
      ∧ (es.filterMap Event.acquires).length ≤ (es.filterMap Event.releases).length + 1
      ∧ (∀ t p, s.pc t = .link p → (s.pc p).queued)
      ∧ ∀ t n, s.pc t = .pass n → (s.pc n).queued := by
  obtain ⟨a, hrun, hinv⟩ := simulation.run h (inv_init node)
  obtain ⟨hjoin, hacq⟩ := served hrun
  refine ⟨⟨a, hrun, hinv.mem⟩, fun t u ht hu => ?_, ⟨_, hjoin.symm⟩, ⟨_, hacq.symm⟩, ?_,
    fun t p hp => ?_, fun t n hn => ?_⟩
  · exact Option.some.inj (((hinv.holder t).mp ht).symm.trans ((hinv.holder u).mp hu))
  · rw [hacq, List.length_append]
    refine Nat.add_le_add_left ?_ _
    cases a.holder with
    | none => exact Nat.zero_le 1
    | some t => exact le_rfl
  · exact (hinv.mem p).mp (hinv.accesses.1 t p hp)
  · exact (hinv.mem n).mp (hinv.accesses.2 t n hn)

/-- Two threads, one of which comes while the other has the lock. -/
theorem mcs_fifo_contended : ∃ es : List (Event Bool),
    es.filterMap Event.acquires <+: es.filterMap Event.joins
      ∧ es.filterMap Event.releases = [true, false] := by
  obtain ⟨es, s, hrun, hgood⟩ := exists_run_of_schedule (stepOf_of_act act)
    (s := init fun _ : Bool => ⟨1, some true⟩)
    [.call true, .go true, .go true, .go true, .call false, .go false, .go false, .go false,
      .go true, .go true, .go true, .go true, .go false, .go true, .go true, .call true, .go true,
      .go false, .go false, .go false, .go false]
    (fun es _ => decide (es.filterMap Event.releases = [true, false])) (by decide +kernel)
  exact ⟨es, (mcs_fifo hrun).2.2.1, of_decide_eq_true hgood⟩

end MyTests.QueuedSpin.Mcs
