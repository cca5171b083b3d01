/-
MyTests/MemoryOrder/Harness.lean

The harness of `src/order.c`, which looks for reordered memory accesses: one
producer (`main`) and `n` consumers, four semaphores, and the variables `input`
and `input_changed`, whose first bytes are all that is used.

The memory is sequentially consistent: a step of a thread is one semaphore call,
one load or one store, and barriers do nothing.  A step emits an event, and the
trace of a run falls into rounds of the main loop.  The statistics that `main`
prints are left out.
-/
import MyTests.Lib.Segments
import MyTests.Lib.Transition

namespace MyTests.MemoryOrder

open Lib

/-! ### Program points -/

inductive ConsumerPc where
  | unborn
  /-- `sem_wait(&sem_prepare)` -/
  | waitPrepare
  /-- `*input = 0x55` -/
  | resetInput
  /-- `*input_changed = 0` -/
  | resetChanged
  /-- `sem_post(&sem_prepare_done)` -/
  | postPrepareDone
  /-- `sem_wait(&sem_consume)` -/
  | waitConsume
  /-- `usleep(10)` -/
  | sleep
  /-- `while (*input_changed == 0)` -/
  | spin
  /-- `if (*input == 0x55)` -/
  | check
  /-- `printf("caught!!!\n")` and `++caught` -/
  | report
  /-- `sem_post(&sem_consume_done)` -/
  | postConsumeDone
deriving DecidableEq

/-- The loops of `main` carry their index. -/
inductive MainPc where
  /-- `pthread_create` -/
  | create (i : ℕ)
  /-- `sem_post(&sem_prepare)` -/
  | postPrepare (i : ℕ)
  /-- `sem_wait(&sem_prepare_done)` -/
  | waitPrepareDone (i : ℕ)
  /-- `sem_post(&sem_consume)` -/
  | postConsume (i : ℕ)
  /-- `*input = 0xAA` -/
  | storeInput
  /-- `*input_changed = 1` -/
  | storeChanged
  /-- `sem_wait(&sem_consume_done)` -/
  | waitConsumeDone (i : ℕ)
  /-- `++cnt` -/
  | count
deriving DecidableEq

/-! ### States and events -/

structure State (n : ℕ) where
  main : MainPc
  pc : Fin n → ConsumerPc
  semPrepare : ℕ
  semPrepareDone : ℕ
  semConsume : ℕ
  semConsumeDone : ℕ
  input : BitVec 8
  inputChanged : BitVec 8
  caught : BitVec 32
  cnt : BitVec 32

inductive Event (n : ℕ) where
  | takePrepare (c : Fin n)
  | resetInput (c : Fin n)
  | resetChanged (c : Fin n)
  | postPrepareDone (c : Fin n)
  | takeConsume (c : Fin n)
  /-- the consumer leaves its loop, with this value in `input` -/
  | leaveWait (c : Fin n) (input : BitVec 8)
  | check (c : Fin n)
  | caught (c : Fin n)
  | postConsumeDone (c : Fin n)
  | postPrepare
  | takePrepareDone
  | postConsume
  | storeInput
  | storeChanged
  | takeConsumeDone
  | roundEnd
deriving DecidableEq

variable {n : ℕ}

/-- The static variables are zero, and the semaphores are initialised to 0. -/
def State.init (n : ℕ) : State n := ⟨.create 0, fun _ => .unborn, 0, 0, 0, 0, 0, 0, 0, 0⟩

/-- The consumer `c` goes on at `pc`. -/
def State.goto (s : State n) (c : Fin n) (pc : ConsumerPc) : State n :=
  { s with pc := Function.update s.pc c pc }

/-! ### The threads -/

/-- `consumer`: the next step of `c`, unless it is blocked. -/
def consumerStep (c : Fin n) (s : State n) : Option (List (Event n) × State n) :=
  match s.pc c with
  | .unborn => none
  | .waitPrepare =>
      if s.semPrepare = 0 then none
      else some ([.takePrepare c], { s.goto c .resetInput with semPrepare := s.semPrepare - 1 })
  | .resetInput => some ([.resetInput c], { s.goto c .resetChanged with input := 0x55 })
  | .resetChanged => some ([.resetChanged c], { s.goto c .postPrepareDone with inputChanged := 0 })
  | .postPrepareDone =>
      some ([.postPrepareDone c],
        { s.goto c .waitConsume with semPrepareDone := s.semPrepareDone + 1 })
  | .waitConsume =>
      if s.semConsume = 0 then none
      else some ([.takeConsume c], { s.goto c .sleep with semConsume := s.semConsume - 1 })
  | .sleep => some ([], s.goto c .spin)
  | .spin =>
      if s.inputChanged = 0 then some ([], s)
      else some ([.leaveWait c s.input], s.goto c .check)
  | .check =>
      if s.input = 0x55 then some ([.check c], s.goto c .report)
      else some ([.check c], s.goto c .postConsumeDone)
  | .report => some ([.caught c], { s.goto c .postConsumeDone with caught := s.caught + 1 })
  | .postConsumeDone =>
      some ([.postConsumeDone c],
        { s.goto c .waitPrepare with semConsumeDone := s.semConsumeDone + 1 })

/-- `main`: the next step, unless it is blocked. -/
def mainStep (s : State n) : Option (List (Event n) × State n) :=
  match s.main with
  | .create i =>
      if h : i < n then some ([], { s.goto ⟨i, h⟩ .waitPrepare with main := .create (i + 1) })
      else some ([], { s with main := .postPrepare 0 })
  | .postPrepare i =>
      if i < n then
        some ([.postPrepare],
          { s with semPrepare := s.semPrepare + 1, main := .postPrepare (i + 1) })
      else some ([], { s with main := .waitPrepareDone 0 })
  | .waitPrepareDone i =>
      if i < n then
        if s.semPrepareDone = 0 then none
        else some ([.takePrepareDone],
          { s with semPrepareDone := s.semPrepareDone - 1, main := .waitPrepareDone (i + 1) })
      else some ([], { s with main := .postConsume 0 })
  | .postConsume i =>
      if i < n then
        some ([.postConsume],
          { s with semConsume := s.semConsume + 1, main := .postConsume (i + 1) })
      else some ([], { s with main := .storeInput })
  | .storeInput => some ([.storeInput], { s with input := 0xAA, main := .storeChanged })
  | .storeChanged =>
      some ([.storeChanged], { s with inputChanged := 1, main := .waitConsumeDone 0 })
  | .waitConsumeDone i =>
      if i < n then
        if s.semConsumeDone = 0 then none
        else some ([.takeConsumeDone],
          { s with semConsumeDone := s.semConsumeDone - 1, main := .waitConsumeDone (i + 1) })
      else some ([], { s with main := .count })
  | .count => some ([.roundEnd], { s with cnt := s.cnt + 1, main := .postPrepare 0 })

/-- One step of one thread. -/
inductive Step : State n → List (Event n) → State n → Prop
  | main {s es t} : mainStep s = some (es, t) → Step s es t
  | consumer {s es t} (c : Fin n) : consumerStep c s = some (es, t) → Step s es t

end MyTests.MemoryOrder
