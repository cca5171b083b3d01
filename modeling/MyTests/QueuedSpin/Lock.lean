/-
MyTests/QueuedSpin/Lock.lean

The queued spinlock of `qspinlock.c` and `qspinlock.h` as a transition
system.

Every atomic access of the source (a whole-word, half-word or byte atomic on
the lock word, a `READ_ONCE` or `WRITE_ONCE`, a plain access to the thread's
own node) is one step of one thread; what the source computes between two such
accesses happens in the step of the first.  A program point `Pc` names the
access that the thread performs next and carries the local variables that are
still needed.  `lockStep` is the body of `queued_spin_lock` together with
`queued_spin_lock_slowpath`: it sees only `*lock` and the array `qnodes`, as
the C functions do.

`State` puts any number of locks beside one `qnodes` array and one thread for
each index below `MAX_USER_THREADS`.  Fewer threads are the runs in which the
others never call.  A thread outside both functions may call
`queued_spin_lock` on any lock, so it may hold several, and
`queued_spin_unlock` on a lock that it holds.  The fields `held` and `calls`
record which calls have returned; no step reads `calls`.
-/
import MyTests.QueuedSpin.Word
import MyTests.Lib.Transition

namespace MyTests.QueuedSpin

/-! ### Nodes and program points -/

/-- `struct mcs_spinlock`.  A pointer to the node of `qnodes[i]` is `some i`,
`NULL` is `none`. -/
structure McsSpinlock where
  next : Option Tid
  locked : ℤ
  count : ℤ
deriving DecidableEq, Repr

/-- `_Q_PENDING_LOOPS`. -/
def qPendingLoops : ℕ := 1

/-- The access that a thread inside `queued_spin_lock` performs next. -/
inductive Pc
  /-- `atomic_try_cmpxchg_acquire` of the fast path -/
  | cmpxchg
  /-- a read of `atomic_cond_read_relaxed` with `cnt` spins left -/
  | condRead (cnt : ℕ)
  /-- `queued_fetch_set_pending_acquire` -/
  | fetchSetPending
  /-- `clear_pending` of the undo -/
  | clearPending
  /-- `atomic_cond_read_acquire(!(VAL & _Q_LOCKED_MASK))` -/
  | waitUnlocked
  /-- `clear_pending_set_locked` -/
  | clearPendingSetLocked
  /-- `node->count++` -/
  | incCount
  /-- `node->locked = 0` -/
  | initLocked
  /-- `node->next = NULL` -/
  | initNext
  /-- `atomic_read` of `queued_spin_trylock` -/
  | trylockRead
  /-- `atomic_try_cmpxchg_acquire` of `queued_spin_trylock` -/
  | trylockCmpxchg
  /-- `xchg_tail` -/
  | xchgTail
  /-- `WRITE_ONCE(prev->next, node)` -/
  | link (prev : Tid)
  /-- `arch_mcs_spin_lock_contended(&node->locked)` -/
  | waitNode
  /-- `next = READ_ONCE(node->next)` -/
  | readNext
  /-- `atomic_cond_read_acquire(!(VAL & _Q_LOCKED_PENDING_MASK))` -/
  | waitHead (next : Option Tid)
  /-- the tail-clearing `atomic_try_cmpxchg_relaxed` -/
  | claim (val : BitVec 32) (next : Option Tid)
  /-- `set_locked` -/
  | setLocked (next : Option Tid)
  /-- `smp_cond_load_relaxed(&node->next, (VAL))` -/
  | waitNext
  /-- `arch_mcs_spin_unlock_contended(&next->locked)` -/
  | handOver (next : Tid)
  /-- `--qnodes[this_thread_index].mcs.count` -/
  | release
  /-- after `abort()` -/
  | aborted
  /-- after the failed assertion of `decode_tail` -/
  | assertFailed
deriving Repr

/-- What a step marks in the history of the lock: the call commits to its
place in the order, or acquires the lock. -/
inductive Mark
  | commit
  | acquire
deriving DecidableEq, Repr

/-- The outcome of one step inside `queued_spin_lock`: the lock word, the
nodes, the next program point (`none` once the function has returned) and the
marks. -/
structure LockStep where
  word : Qspinlock
  nodes : Tid → McsSpinlock
  next : Option Pc
  marks : List Mark

/-! ### Local computations between two accesses -/

/-- `if (val & ~_Q_LOCKED_MASK) goto queue;`, else try to set pending. -/
def checkContention (val : BitVec 32) : Pc :=
  if val &&& ~~~qLockedMask ≠ 0 then .incCount else .fetchSetPending

/-- The entry of `queued_spin_lock_slowpath` with the value that the failed
fast path saw. -/
def slowpathEntry (val : BitVec 32) : Pc :=
  if val = qPendingVal then .condRead qPendingLoops else checkContention val

/-- After `xchg_tail` returned `old`. -/
def afterXchgTail (old : BitVec 32) : Pc :=
  if old &&& qTailMask ≠ 0 then
    match decodeTail old with
    | some prev => .link prev
    | none => .assertFailed
  else .waitHead none

/-- After the head of the queue read `val` with owner and pending gone. -/
def afterWaitHead (t : Tid) (val : BitVec 32) (next : Option Tid) : Pc :=
  if val &&& qTailMask = encodeTail t then .claim val next else .setLocked next

/-- `if (!next) next = smp_cond_load_relaxed(...)`, else straight to the
hand-over. -/
def afterSetLocked : Option Tid → Pc
  | none => .waitNext
  | some n => .handOver n

/-! ### One step of queued_spin_lock -/

/-- One step of thread `t` at program point `pc` of `queued_spin_lock(lock)`,
with `*lock = w`. -/
def lockStep (t : Tid) (w : Qspinlock) (nodes : Tid → McsSpinlock) : Pc → LockStep
  | .cmpxchg =>
      if w.val = 0 then ⟨.ofVal qLockedVal, nodes, none, [.commit, .acquire]⟩
      else ⟨w, nodes, slowpathEntry w.val, []⟩
  | .condRead cnt =>
      if w.val ≠ qPendingVal ∨ cnt = 0 then ⟨w, nodes, checkContention w.val, []⟩
      else ⟨w, nodes, some (.condRead (cnt - 1)), []⟩
  | .fetchSetPending =>
      let w' := Qspinlock.ofVal (w.val ||| qPendingVal)
      if w.val &&& ~~~qLockedMask ≠ 0 then
        -- undo pending only if this thread set it
        if w.val &&& qPendingMask = 0 then ⟨w', nodes, some .clearPending, []⟩
        else ⟨w', nodes, some .incCount, []⟩
      else if w.val &&& qLockedMask ≠ 0 then ⟨w', nodes, some .waitUnlocked, [.commit]⟩
      else ⟨w', nodes, some .clearPendingSetLocked, [.commit]⟩
  | .clearPending => ⟨{ w with pending := 0 }, nodes, some .incCount, []⟩
  | .waitUnlocked =>
      if w.val &&& qLockedMask = 0 then ⟨w, nodes, some .clearPendingSetLocked, []⟩
      else ⟨w, nodes, some .waitUnlocked, []⟩
  | .clearPendingSetLocked =>
      -- the half-word store of `_Q_LOCKED_VAL` to `locked_pending`
      ⟨{ w with locked := 1, pending := 0 }, nodes, none, [.acquire]⟩
  | .incCount =>
      let idx := (nodes t).count
      ⟨w, Function.update nodes t { nodes t with count := idx + 1 },
        some (if idx ≥ 1 then .aborted else .initLocked), []⟩
  | .initLocked =>
      ⟨w, Function.update nodes t { nodes t with locked := 0 }, some .initNext, []⟩
  | .initNext =>
      ⟨w, Function.update nodes t { nodes t with next := none }, some .trylockRead, []⟩
  | .trylockRead =>
      ⟨w, nodes, some (if w.val ≠ 0 then .xchgTail else .trylockCmpxchg), []⟩
  | .trylockCmpxchg =>
      if w.val = 0 then ⟨.ofVal qLockedVal, nodes, some .release, [.commit, .acquire]⟩
      else ⟨w, nodes, some .xchgTail, []⟩
  | .xchgTail =>
      ⟨{ w with tail := tailHalf (encodeTail t) }, nodes,
        some (afterXchgTail (tailWord w.tail)), [.commit]⟩
  | .link prev =>
      ⟨w, Function.update nodes prev { nodes prev with next := some t }, some .waitNode, []⟩
  | .waitNode =>
      ⟨w, nodes, some (if (nodes t).locked ≠ 0 then .readNext else .waitNode), []⟩
  | .readNext => ⟨w, nodes, some (.waitHead (nodes t).next), []⟩
  | .waitHead next =>
      if w.val &&& qLockedPendingMask = 0 then ⟨w, nodes, some (afterWaitHead t w.val next), []⟩
      else ⟨w, nodes, some (.waitHead next), []⟩
  | .claim val next =>
      if w.val = val then ⟨.ofVal qLockedVal, nodes, some .release, [.acquire]⟩
      else ⟨w, nodes, some (.setLocked next), []⟩
  | .setLocked next =>
      ⟨{ w with locked := 1 }, nodes, some (afterSetLocked next), [.acquire]⟩
  | .waitNext => ⟨w, nodes, some (afterSetLocked (nodes t).next), []⟩
  | .handOver next =>
      ⟨w, Function.update nodes next { nodes next with locked := 1 }, some .release, []⟩
  | .release =>
      ⟨w, Function.update nodes t { nodes t with count := (nodes t).count - 1 }, none, []⟩
  | .aborted => ⟨w, nodes, some .aborted, []⟩
  | .assertFailed => ⟨w, nodes, some .assertFailed, []⟩

/-! ### The system -/

variable {L : Type} [DecidableEq L]

/-- Where a thread is: outside both functions, inside `queued_spin_lock(lock)`,
or inside `queued_spin_unlock(lock)` before its store. -/
inductive Thread (L : Type)
  | idle
  | locking (lock : L) (pc : Pc)
  | unlocking (lock : L)

/-- A call of `queued_spin_lock`: the `seq`-th call of thread `tid`. -/
structure Call where
  tid : Tid
  seq : ℕ
deriving DecidableEq, Repr

/-- An event of the history: call `call` commits to or acquires `lock`. -/
structure Event (L : Type) where
  lock : L
  call : Call
  mark : Mark
deriving DecidableEq

structure State (L : Type) where
  lock : L → Qspinlock
  qnodes : Tid → McsSpinlock
  thread : Tid → Thread L
  /-- `queued_spin_lock` has returned and the store of `queued_spin_unlock` is still to come -/
  held : Tid → L → Bool
  calls : Tid → ℕ

/-- The start: every lock word 0, `qnodes` zeroed, nobody calling. -/
def State.init (L : Type) : State L where
  lock := fun _ => ⟨0, 0, 0⟩
  qnodes := fun _ => ⟨none, 0, 0⟩
  thread := fun _ => .idle
  held := fun _ _ => false
  calls := fun _ => 0

/-- The step of thread `t` at `pc` inside `queued_spin_lock(l)`. -/
def State.lockStep (s : State L) (t : Tid) (l : L) (pc : Pc) : State L :=
  let r := QueuedSpin.lockStep t (s.lock l) s.qnodes pc
  { s with
    lock := Function.update s.lock l r.word
    qnodes := r.nodes
    thread := Function.update s.thread t
      (match r.next with
        | some pc' => .locking l pc'
        | none => .idle)
    held :=
      match r.next with
        | some _ => s.held
        | none => Function.update s.held t (Function.update (s.held t) l true) }

/-- The events of that step. -/
def State.lockEvents (s : State L) (t : Tid) (l : L) (pc : Pc) : List (Event L) :=
  (QueuedSpin.lockStep t (s.lock l) s.qnodes pc).marks.map fun m => ⟨l, ⟨t, s.calls t⟩, m⟩

/-- Thread `t` calls `queued_spin_lock(l)`. -/
def State.callLock (s : State L) (t : Tid) (l : L) : State L :=
  { s with
    thread := Function.update s.thread t (.locking l .cmpxchg)
    calls := Function.update s.calls t (s.calls t + 1) }

/-- Thread `t` calls `queued_spin_unlock(l)`. -/
def State.callUnlock (s : State L) (t : Tid) (l : L) : State L :=
  { s with thread := Function.update s.thread t (.unlocking l) }

/-- The store of `queued_spin_unlock(l)`, after which the call returns. -/
def State.unlockStore (s : State L) (t : Tid) (l : L) : State L :=
  { s with
    lock := Function.update s.lock l { s.lock l with locked := 0 }
    thread := Function.update s.thread t .idle
    held := Function.update s.held t (Function.update (s.held t) l false) }

/-- One step of one thread. -/
inductive Step : State L → List (Event L) → State L → Prop
  | call {s : State L} (t : Tid) (l : L) :
      s.thread t = .idle → Step s [] (s.callLock t l)
  | lock {s : State L} (t : Tid) (l : L) (pc : Pc) :
      s.thread t = .locking l pc → Step s (s.lockEvents t l pc) (s.lockStep t l pc)
  | unlock {s : State L} (t : Tid) (l : L) :
      s.thread t = .idle → s.held t l = true → Step s [] (s.callUnlock t l)
  | store {s : State L} (t : Tid) (l : L) :
      s.thread t = .unlocking l → Step s [] (s.unlockStore t l)

/-- The states that some interleaving reaches. -/
def Reachable (s : State L) : Prop := Lib.Reachable Step (State.init L) s

end MyTests.QueuedSpin
