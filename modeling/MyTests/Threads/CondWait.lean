/-
MyTests/Threads/CondWait.lean

`src/mt-cond.c`: one thread counts to 3, the other waits until it has.

The waiting thread tests `cnt` under the mutex, and `pthread_cond_wait` gives
the mutex up and blocks in one step.  The counting thread signals after it has
given the mutex up, so a signal may find nobody blocked, and is lost then.  No
signal is lost that matters: as long as the waiting thread is blocked, it has
seen a count that is still too low, or the signal for the new one is still to
come (`Inv.blocked`).

`pthread_cond_wait` may also return without a signal.  `spurious` is the number
of times that it will; at the start it is any number.
-/
import MyTests.Lib.Transition

namespace MyTests.Threads.CondWait

open Lib

/-! ### The two threads -/

/-- The 3 of `while (cnt < 3)`. -/
def waitFor : ℕ := 3

/-- The 3 of `for (int i = 0; i < 3; ++i)`. -/
def adds : ℕ := 3

/-- `thread_wait3` -/
inductive WaiterPc
  /-- `pthread_mutex_lock(&mtx)` -/
  | lock
  /-- `while (cnt < 3)` -/
  | test
  /-- `pthread_cond_wait(&cond, &mtx)` is called -/
  | wait
  | blocked
  /-- still in `pthread_cond_wait`, which takes the mutex again -/
  | woken
  /-- `printf("wait: %d\n", n++)` -/
  | print
  /-- `pthread_mutex_unlock(&mtx)` -/
  | unlock
  | returned
deriving DecidableEq

/-- `thread_add`, in round `i` -/
inductive AdderPc
  /-- `pthread_mutex_lock(&mtx)` -/
  | lock (i : ℕ)
  /-- `++cnt` -/
  | add (i : ℕ)
  /-- `pthread_mutex_unlock(&mtx)` -/
  | unlock (i : ℕ)
  /-- `pthread_cond_signal(&cond)` -/
  | signal (i : ℕ)
  | returned
deriving DecidableEq

inductive Thread
  | waiter
  | adder
deriving DecidableEq

structure State where
  cnt : ℕ
  mtx : Option Thread
  waiter : WaiterPc
  n : ℕ
  adder : AdderPc
  spurious : ℕ

/-- The head of the `for` loop. -/
def round (i : ℕ) : AdderPc := if i < adds then .lock i else .returned

/-- The next step of `thread_wait3`, with what it prints. -/
def waiterStep (s : State) : Option (List ℕ × State) :=
  match s.waiter with
  | .lock =>
      if s.mtx = none then some ([], { s with mtx := some .waiter, waiter := .test }) else none
  | .test => some ([], { s with waiter := if s.cnt < waitFor then .wait else .unlock })
  | .wait => some ([], { s with mtx := none, waiter := .blocked })
  | .blocked =>
      match s.spurious with
      | 0 => none
      | k + 1 => some ([], { s with spurious := k, waiter := .woken })
  | .woken =>
      if s.mtx = none then some ([], { s with mtx := some .waiter, waiter := .print }) else none
  | .print => some ([s.n], { s with n := s.n + 1, waiter := .test })
  | .unlock => some ([], { s with mtx := none, waiter := .returned })
  | .returned => none

/-- The next step of `thread_add`. -/
def adderStep (s : State) : Option (List ℕ × State) :=
  match s.adder with
  | .lock i =>
      if s.mtx = none then some ([], { s with mtx := some .adder, adder := .add i }) else none
  | .add i => some ([], { s with cnt := s.cnt + 1, adder := .unlock i })
  | .unlock i => some ([], { s with mtx := none, adder := .signal i })
  | .signal i => some ([], { s with
      waiter := if s.waiter = .blocked then .woken else s.waiter
      adder := round (i + 1) })
  | .returned => none

def act : Thread → State → Option (List ℕ × State)
  | .waiter => waiterStep
  | .adder => adderStep

def Step (s : State) (es : List ℕ) (s' : State) : Prop := StepOf act s es s'

/-- Both threads are created. -/
def init (spurious : ℕ) : State := ⟨0, none, .lock, 1, round 0, spurious⟩

/-! ### The invariant -/

/-- With the mutex. -/
def WaiterPc.inside : WaiterPc → Bool
  | test | wait | print | unlock => true
  | _ => false

/-- With the mutex. -/
def AdderPc.inside : AdderPc → Bool
  | add _ | unlock _ => true
  | _ => false

/-- The rounds whose `++cnt` is done. -/
def AdderPc.added : AdderPc → ℕ
  | lock i => i
  | add i => i
  | unlock i => i + 1
  | signal i => i + 1
  | returned => adds

/-- The rounds whose signal has been sent. -/
def AdderPc.signalled : AdderPc → ℕ
  | lock i => i
  | add i => i
  | unlock i => i
  | signal i => i
  | returned => adds

/-- The rounds are those of the loop. -/
def AdderPc.Within : AdderPc → Prop
  | lock i | add i | unlock i | signal i => i < adds
  | returned => True

/-- The count has changed, and its signal is still to come. -/
def AdderPc.owes : AdderPc → Bool
  | unlock _ | signal _ => true
  | _ => false

/-- Woken, and nothing printed for it yet. -/
def WaiterPc.due : WaiterPc → ℕ
  | woken | print => 1
  | _ => 0

structure Inv (spurious : ℕ) (s : State) : Prop where
  waiter : s.mtx = some .waiter ↔ s.waiter.inside = true
  adder : s.mtx = some .adder ↔ s.adder.inside = true
  cnt : s.cnt = s.adder.added
  within : s.adder.Within
  wait : s.waiter = .wait → s.cnt < waitFor
  blocked : s.waiter = .blocked → s.cnt < waitFor ∨ s.adder.owes = true
  left : s.waiter = .unlock ∨ s.waiter = .returned → waitFor ≤ s.cnt
  n : s.n + s.waiter.due + s.spurious ≤ 1 + s.adder.signalled + spurious

variable {s s' : State} {es : List ℕ} {j : ℕ}

theorem inv_init (j : ℕ) : Inv j (init j) where
  waiter := by simp [init, WaiterPc.inside]
  adder := by simp [init, round, adds, AdderPc.inside]
  cnt := rfl
  within := Nat.succ_pos 2
  wait h := by cases h
  blocked h := by cases h
  left h := by rcases h with h | h <;> cases h
  n := le_rfl

theorem Inv.waiter_outside (h : Inv j s) (hmtx : s.mtx ≠ some .waiter) :
    s.waiter.inside = false :=
  Bool.eq_false_iff.mpr fun hin => hmtx (h.waiter.mpr hin)

theorem Inv.adder_outside (h : Inv j s) (hmtx : s.mtx ≠ some .adder) : s.adder.inside = false :=
  Bool.eq_false_iff.mpr fun hin => hmtx (h.adder.mpr hin)

/-- The waiting thread takes the mutex. -/
theorem Inv.enter (h : Inv j s) (hmtx : s.mtx = none) {w : WaiterPc} (hw : w.inside = true)
    (hwait : w ≠ .wait) (hunlock : w ≠ .unlock) (hdue : w.due = s.waiter.due) :
    Inv j { s with mtx := some .waiter, waiter := w } := by
  have hout : s.adder.inside = false := h.adder_outside (by simp [hmtx])
  refine { h with waiter := ?_, adder := ?_, wait := ?_, blocked := ?_, left := ?_, n := ?_ }
  · simp [hw]
  · simp [hout]
  · exact fun hw' => absurd hw' hwait
  · rintro rfl
    cases hw
  · rintro (rfl | rfl)
    · exact absurd rfl hunlock
    · cases hw
  · show s.n + w.due + s.spurious ≤ _
    rw [hdue]
    exact h.n

/-- The waiting thread gives the mutex up. -/
theorem Inv.leave (h : Inv j s) (hin : s.waiter.inside = true) {w : WaiterPc}
    (hw : w.inside = false) (hblocked : w = .blocked → s.cnt < waitFor)
    (hreturned : w = .returned → waitFor ≤ s.cnt) (hdue : w.due = s.waiter.due) :
    Inv j { s with mtx := none, waiter := w } := by
  have hout : s.adder.inside = false := h.adder_outside (by simp [h.waiter.mpr hin])
  refine { h with waiter := ?_, adder := ?_, wait := ?_, blocked := ?_, left := ?_, n := ?_ }
  · simp [hw]
  · simp [hout]
  · rintro rfl
    cases hw
  · exact fun hw' => .inl (hblocked hw')
  · rintro (rfl | hw')
    · cases hw
    · exact hreturned hw'
  · show s.n + w.due + s.spurious ≤ _
    rw [hdue]
    exact h.n

/-- The waiting thread goes on, inside or outside. -/
theorem Inv.stay (h : Inv j s) {w : WaiterPc} {n k : ℕ} (hin : w.inside = s.waiter.inside)
    (hwait : w = .wait → s.cnt < waitFor) (hblocked : w ≠ .blocked)
    (hleft : w = .unlock → waitFor ≤ s.cnt) (hreturned : w ≠ .returned)
    (hn : n + w.due + k ≤ s.n + s.waiter.due + s.spurious) :
    Inv j { s with waiter := w, n := n, spurious := k } := by
  refine { h with waiter := ?_, wait := hwait, blocked := ?_, left := ?_, n := hn.trans h.n }
  · show s.mtx = some .waiter ↔ w.inside = true
    rw [hin]
    exact h.waiter
  · exact fun hw => absurd hw hblocked
  · rintro (hw | hw)
    · exact hleft hw
    · exact absurd hw hreturned

/-- A step of `thread_wait3`. -/
theorem Inv.step_waiter (h : Inv j s) (hs : waiterStep s = some (es, s')) : Inv j s' := by
  cases hpc : s.waiter with
  | lock | woken =>
      simp only [waiterStep, hpc] at hs
      split at hs
      · rename_i hmtx
        obtain ⟨-, rfl⟩ := Prod.mk.inj (Option.some.inj hs)
        exact h.enter hmtx rfl (by simp) (by simp) (by rw [hpc]; rfl)
      · cases hs
  | test =>
      simp only [waiterStep, hpc] at hs
      obtain ⟨-, rfl⟩ := Prod.mk.inj (Option.some.inj hs)
      -- what the test has found stays true, since the thread has the mutex
      by_cases hcnt : s.cnt < waitFor
      · rw [if_pos hcnt]
        exact h.stay (by rw [hpc]; rfl) (fun _ => hcnt) (by simp) (by simp) (by simp)
          (by rw [hpc]; exact le_rfl)
      · rw [if_neg hcnt]
        exact h.stay (by rw [hpc]; rfl) (by simp) (by simp) (fun _ => not_lt.mp hcnt) (by simp)
          (by rw [hpc]; exact le_rfl)
  | wait =>
      simp only [waiterStep, hpc] at hs
      obtain ⟨-, rfl⟩ := Prod.mk.inj (Option.some.inj hs)
      exact h.leave (by rw [hpc]; rfl) rfl (fun _ => h.wait hpc) (by simp) (by rw [hpc]; rfl)
  | blocked =>
      simp only [waiterStep, hpc] at hs
      split at hs
      -- a wake-up needs a signal, or is one of the `j` spurious ones
      · cases hs
      · rename_i k hk
        obtain ⟨-, rfl⟩ := Prod.mk.inj (Option.some.inj hs)
        refine h.stay (by rw [hpc]; rfl) (by simp) (by simp) (by simp) (by simp) ?_
        rw [hpc, hk]
        exact (Nat.add_right_comm s.n 1 k).le
  | print =>
      simp only [waiterStep, hpc] at hs
      obtain ⟨-, rfl⟩ := Prod.mk.inj (Option.some.inj hs)
      exact h.stay (by rw [hpc]; rfl) (by simp) (by simp) (by simp) (by simp)
        (by rw [hpc]; exact le_rfl)
  | unlock =>
      simp only [waiterStep, hpc] at hs
      obtain ⟨-, rfl⟩ := Prod.mk.inj (Option.some.inj hs)
      exact h.leave (by rw [hpc]; rfl) rfl (by simp) (fun _ => h.left (.inl hpc))
        (by rw [hpc]; rfl)
  | returned =>
      simp only [waiterStep, hpc] at hs
      cases hs

/-! The counts of a program point. -/

theorem AdderPc.added_le {a : AdderPc} (h : a.Within) : a.added ≤ adds := by
  cases a with
  | lock i => exact le_of_lt h
  | add i => exact le_of_lt h
  | unlock i => exact h
  | signal i => exact h
  | returned => exact le_rfl

theorem AdderPc.signalled_le {a : AdderPc} (h : a.Within) : a.signalled ≤ adds := by
  cases a with
  | returned => exact le_rfl
  | _ => exact le_of_lt h

theorem added_round {i : ℕ} (hi : i ≤ adds) : (round i).added = i := by
  unfold round
  split
  · rfl
  · exact le_antisymm (not_lt.mp ‹_›) hi

theorem signalled_round {i : ℕ} (hi : i ≤ adds) : (round i).signalled = i := by
  unfold round
  split
  · rfl
  · exact le_antisymm (not_lt.mp ‹_›) hi

theorem inside_round (i : ℕ) : (round i).inside = false := by
  unfold round
  split <;> rfl

theorem within_round (i : ℕ) : (round i).Within := by
  unfold round
  split
  · assumption
  · trivial

/-- A step of `thread_add`. -/
theorem Inv.step_adder (h : Inv j s) (hs : adderStep s = some (es, s')) : Inv j s' := by
  have hwithin := h.within
  have hcnt := h.cnt
  have hn := h.n
  cases hpc : s.adder with
  | lock i =>
      simp only [adderStep, hpc] at hs
      split at hs
      · rename_i hmtx
        obtain ⟨-, rfl⟩ := Prod.mk.inj (Option.some.inj hs)
        have hout : s.waiter.inside = false := h.waiter_outside (by simp [hmtx])
        rw [hpc] at hwithin hcnt hn
        refine { h with
          waiter := ?_, adder := ?_, cnt := hcnt, within := hwithin, blocked := ?_, n := hn }
        · simp [hout]
        · simp [AdderPc.inside]
        · intro hw
          -- that a signal is owed was not so before the round
          rcases h.blocked hw with hlow | howes
          · exact .inl hlow
          · rw [hpc] at howes
            cases howes
      · cases hs
  | add i =>
      simp only [adderStep, hpc] at hs
      obtain ⟨-, rfl⟩ := Prod.mk.inj (Option.some.inj hs)
      have hmtx : s.mtx = some .adder := h.adder.mpr (by rw [hpc]; rfl)
      rw [hpc] at hwithin hcnt hn
      refine { h with
        adder := ?_, cnt := congrArg (· + 1) hcnt, within := hwithin, wait := ?_
        blocked := ?_, left := ?_, n := hn }
      · simp [hmtx, AdderPc.inside]
      · -- the waiting thread is not inside
        intro hw
        have hin := h.waiter.mpr (by rw [hw]; rfl)
        rw [hmtx] at hin
        cases hin
      -- the signal of this round is still to come
      · exact fun _ => .inr rfl
      · exact fun hw => (h.left hw).trans (Nat.le_succ _)
  | unlock i =>
      simp only [adderStep, hpc] at hs
      obtain ⟨-, rfl⟩ := Prod.mk.inj (Option.some.inj hs)
      have hmtx : s.mtx = some .adder := h.adder.mpr (by rw [hpc]; rfl)
      have hout : s.waiter.inside = false := h.waiter_outside (by simp [hmtx])
      rw [hpc] at hwithin hcnt hn
      refine { h with
        waiter := ?_, adder := ?_, cnt := hcnt, within := hwithin, blocked := ?_, n := hn }
      · simp [hout]
      · simp [AdderPc.inside]
      · exact fun _ => .inr rfl
  | signal i =>
      simp only [adderStep, hpc] at hs
      obtain ⟨-, rfl⟩ := Prod.mk.inj (Option.some.inj hs)
      -- the mutex has been given back before the signal
      have hadder : s.mtx ≠ some .adder := fun hmtx => by
        simpa [hpc, AdderPc.inside] using h.adder.mp hmtx
      rw [hpc] at hwithin hcnt hn
      have hround := added_round (Nat.succ_le_of_lt hwithin)
      have hsent := signalled_round (Nat.succ_le_of_lt hwithin)
      by_cases hblocked : s.waiter = .blocked
      · rw [if_pos hblocked]
        refine ⟨?_, ?_, hcnt.trans hround.symm, within_round _, by simp, by simp, by simp, ?_⟩
        · rw [h.waiter, hblocked]
          rfl
        · simp [inside_round, hadder]
        · rw [hblocked] at hn
          -- the waiter returns once more, and one more signal has been sent
          show s.n + 1 + s.spurious ≤ 1 + (round (i + 1)).signalled + j
          rw [hsent]
          have hi : s.n + 0 + s.spurious ≤ 1 + i + j := hn
          omega
      · rw [if_neg hblocked]
        refine { h with
          adder := ?_, cnt := hcnt.trans hround.symm, within := within_round _
          blocked := fun hw => absurd hw hblocked, n := ?_ }
        · simp [inside_round, hadder]
        -- a signal for nobody is lost
        · show s.n + s.waiter.due + s.spurious ≤ 1 + (round (i + 1)).signalled + j
          rw [hsent]
          have hi : s.n + s.waiter.due + s.spurious ≤ 1 + i + j := hn
          omega
  | returned =>
      simp only [adderStep, hpc] at hs
      cases hs

theorem Inv.step (h : Inv j s) (hs : Step s es s') : Inv j s' := by
  obtain ⟨t, ht⟩ := hs
  cases t with
  | waiter => exact h.step_waiter ht
  | adder => exact h.step_adder ht

/-! ### Nobody waits for ever -/

/-- The steps of `thread_wait3` up to its next wake-up or its end. -/
def WaiterPc.left : WaiterPc → ℕ
  | woken => 4
  | lock | print => 3
  | test => 2
  | wait | unlock => 1
  | blocked | returned => 0

/-- The steps of `thread_add` up to its end. -/
def AdderPc.left : AdderPc → ℕ
  | lock i => 4 * (adds - (i + 1)) + 4
  | add i => 4 * (adds - (i + 1)) + 3
  | unlock i => 4 * (adds - (i + 1)) + 2
  | signal i => 4 * (adds - (i + 1)) + 1
  | returned => 0

/-- A signal, and a wake-up without one, counts for more than what the waiting thread does
when it is woken. -/
def State.rank (s : State) : ℕ := 5 * s.adder.left + 5 * s.spurious + s.waiter.left

theorem left_round (i : ℕ) : (round (i + 1)).left = 4 * (adds - (i + 1)) := by
  unfold round
  split
  · show 4 * (adds - (i + 1 + 1)) + 4 = _
    omega
  · show 0 = _
    omega

/-- What a step does to the rank, and what it prints. -/
structure Effect (s : State) (es : List ℕ) (s' : State) : Prop where
  rank : s'.rank < s.rank
  printed : es = List.range' s.n es.length
  n : s'.n = s.n + es.length

/-- A step that prints nothing. -/
theorem Effect.silent (hrank : s'.rank < s.rank) (hn : s'.n = s.n) : Effect s [] s' :=
  ⟨hrank, rfl, hn⟩

/-- The waiting thread comes nearer to its next wake-up. -/
theorem rank_waiter {w : WaiterPc} (hw : w.left < s.waiter.left) (c n : ℕ) (m : Option Thread) :
    State.rank ⟨c, m, w, n, s.adder, s.spurious⟩ < s.rank :=
  Nat.add_lt_add_left hw _

theorem waiterStep_effect (hs : waiterStep s = some (es, s')) : Effect s es s' := by
  cases hpc : s.waiter with
  | lock | woken =>
      simp only [waiterStep, hpc] at hs
      split at hs
      · obtain ⟨rfl, rfl⟩ := Prod.mk.inj (Option.some.inj hs)
        exact .silent (rank_waiter (by rw [hpc]; decide) _ _ _) rfl
      · cases hs
  | test =>
      simp only [waiterStep, hpc] at hs
      obtain ⟨rfl, rfl⟩ := Prod.mk.inj (Option.some.inj hs)
      refine .silent (rank_waiter ?_ _ _ _) rfl
      rw [hpc]
      split <;> exact Nat.lt_succ_self 1
  | wait =>
      simp only [waiterStep, hpc] at hs
      obtain ⟨rfl, rfl⟩ := Prod.mk.inj (Option.some.inj hs)
      exact .silent (rank_waiter (by rw [hpc]; exact Nat.one_pos) _ _ _) rfl
  | blocked =>
      simp only [waiterStep, hpc] at hs
      split at hs
      · cases hs
      · rename_i k hk
        obtain ⟨rfl, rfl⟩ := Prod.mk.inj (Option.some.inj hs)
        refine .silent ?_ rfl
        -- a spurious wake-up is worth more than the round that it starts
        show 5 * s.adder.left + 5 * k + 4 < 5 * s.adder.left + 5 * s.spurious + s.waiter.left
        rw [hk]
        omega
  | print =>
      simp only [waiterStep, hpc] at hs
      obtain ⟨rfl, rfl⟩ := Prod.mk.inj (Option.some.inj hs)
      exact ⟨rank_waiter (by rw [hpc]; exact Nat.lt_succ_self 2) _ _ _, rfl, rfl⟩
  | unlock =>
      simp only [waiterStep, hpc] at hs
      obtain ⟨rfl, rfl⟩ := Prod.mk.inj (Option.some.inj hs)
      exact .silent (rank_waiter (by rw [hpc]; exact Nat.one_pos) _ _ _) rfl
  | returned =>
      simp only [waiterStep, hpc] at hs
      cases hs

theorem rank_adder {a : AdderPc} (ha : a.left < s.adder.left) (c n : ℕ) (m : Option Thread) :
    State.rank ⟨c, m, s.waiter, n, a, s.spurious⟩ < s.rank := by
  show 5 * a.left + 5 * s.spurious + s.waiter.left < s.rank
  unfold State.rank
  omega

theorem adderStep_effect (hs : adderStep s = some (es, s')) : Effect s es s' := by
  cases hpc : s.adder with
  | lock i =>
      simp only [adderStep, hpc] at hs
      split at hs
      · obtain ⟨rfl, rfl⟩ := Prod.mk.inj (Option.some.inj hs)
        exact .silent (rank_adder (by rw [hpc]; exact Nat.lt_succ_self _) _ _ _) rfl
      · cases hs
  | add i | unlock i =>
      simp only [adderStep, hpc] at hs
      obtain ⟨rfl, rfl⟩ := Prod.mk.inj (Option.some.inj hs)
      exact .silent (rank_adder (by rw [hpc]; exact Nat.lt_succ_self _) _ _ _) rfl
  | signal i =>
      simp only [adderStep, hpc] at hs
      obtain ⟨rfl, rfl⟩ := Prod.mk.inj (Option.some.inj hs)
      refine .silent ?_ rfl
      unfold State.rank
      dsimp only
      rw [left_round, hpc]
      show _ < 5 * (4 * (adds - (i + 1)) + 1) + 5 * s.spurious + s.waiter.left
      split
      -- a signal that is heard pays for the round of the waiter that it starts
      · show 5 * (4 * (adds - (i + 1))) + 5 * s.spurious + 4 < _
        omega
      · omega
  | returned =>
      simp only [adderStep, hpc] at hs
      cases hs

theorem Step.effect (hs : Step s es s') : Effect s es s' := by
  obtain ⟨t, ht⟩ := hs
  cases t with
  | waiter => exact waiterStep_effect ht
  | adder => exact adderStep_effect ht

theorem Inv.adder_goes (h : Inv j s) (hmtx : s.mtx = some .adder) :
    (act .adder s).isSome = true := by
  have hin := h.adder.mp hmtx
  cases hpc : s.adder with
  | add i => simp [act, adderStep, hpc]
  | unlock i => simp [act, adderStep, hpc]
  | _ =>
      rw [hpc] at hin
      cases hin

/-- The thread that wants the mutex gets it, or the other one goes on inside. -/
theorem Inv.exists_step_of_free (h : Inv j s) (hout : s.waiter.inside = false)
    (hfree : s.mtx = none → (act .waiter s).isSome = true) : ∃ es s', Step s es s' := by
  cases hmtx : s.mtx with
  | none => exact exists_stepOf .waiter (hfree hmtx)
  | some t =>
      cases t with
      | waiter =>
          rw [h.waiter.mp hmtx] at hout
          cases hout
      | adder => exact exists_stepOf .adder (h.adder_goes hmtx)

/-- Somebody goes on until the waiting thread has returned. -/
theorem Inv.exists_step (h : Inv j s) (hpc : s.waiter ≠ .returned) : ∃ es s', Step s es s' := by
  cases hw : s.waiter with
  | lock | woken =>
      refine h.exists_step_of_free (by rw [hw]; rfl) fun hmtx => ?_
      simp [act, waiterStep, hw, hmtx]
  | test | wait | print | unlock => exact exists_stepOf .waiter (by simp [act, waiterStep, hw])
  | returned => exact absurd hw hpc
  | blocked =>
      apply exists_stepOf .adder
      cases ha : s.adder with
      | lock i =>
          have hmtx : s.mtx = none := by
            cases hmtx : s.mtx with
            | none => rfl
            | some t =>
                cases t with
                | waiter => simpa [hw, WaiterPc.inside] using h.waiter.mp hmtx
                | adder => simpa [ha, AdderPc.inside] using h.adder.mp hmtx
          simp [act, adderStep, ha, hmtx]
      | add i => simp [act, adderStep, ha]
      | unlock i => simp [act, adderStep, ha]
      | signal i => simp [act, adderStep, ha]
      | returned =>
          -- the last signal was not lost
          exfalso
          have hcnt := h.cnt
          rw [ha] at hcnt
          rcases h.blocked hw with hlow | howes
          · rw [hcnt] at hlow
            exact Nat.lt_irrefl _ hlow
          · rw [ha] at howes
            cases howes

/-- What has been printed, and that it goes with the count. -/
theorem printed_of_run (hrun : Run Step (init j) es s) :
    Inv j s ∧ es = List.range' 1 es.length ∧ s.n = 1 + es.length := by
  refine Run.invariant (I := fun es s => Inv j s ∧ es = List.range' 1 es.length
    ∧ s.n = 1 + es.length) ⟨inv_init j, rfl, rfl⟩ ?_ hrun
  rintro es s₁ e s₂ ⟨hinv, hes, hn⟩ hs
  obtain ⟨-, hprinted, hn'⟩ := hs.effect
  refine ⟨hinv.step hs, ?_, ?_⟩
  · calc es ++ e = List.range' 1 es.length ++ List.range' (1 + es.length) e.length := by
          rw [← hes, ← hn, ← hprinted]
      _ = List.range' 1 (es ++ e).length := by
          rw [List.length_append, List.range'_append_1]
  · rw [hn', hn, List.length_append, Nat.add_assoc]

/-- **`mt-cond` ends.**  Whatever the order of the steps, and however often `pthread_cond_wait`
returns without a signal, the waiting thread comes to return.  It does so with a count of 3, and
has printed 1, 2, .. by then, once for each time it was woken: no more than three times, and
once more for every return without a signal. -/
theorem mt_cond (j : ℕ) :
    Inevitably Step (fun s => s.waiter = .returned) (init j)
      ∧ ∀ es s, Run Step (init j) es s →
        es = List.range' 1 es.length ∧ es.length ≤ adds + j
          ∧ (s.waiter = .returned → s.cnt = waitFor) := by
  constructor
  · refine Inevitably.of_rank (I := fun k s => Inv j s ∧ s.rank = k) ?_ ?_ ⟨inv_init j, rfl⟩
    · exact fun k s hs hpc => hs.1.exists_step hpc
    · rintro k s e t ⟨hinv, rfl⟩ - hs
      exact ⟨t.rank, hs.effect.rank, hinv.step hs, rfl⟩
  · intro es s hrun
    obtain ⟨hinv, hes, hn⟩ := printed_of_run hrun
    refine ⟨hes, ?_, fun hpc => ?_⟩
    · have hsent := AdderPc.signalled_le hinv.within
      have hwoken := hinv.n
      omega
    · apply le_antisymm _ (hinv.left (.inr hpc))
      rw [hinv.cnt]
      exact AdderPc.added_le hinv.within

/-- With one return without a signal. -/
theorem mt_cond_once : ∃ es s, Run Step (init 1) es s ∧ s.waiter = .returned
    ∧ es.length ≤ 4 ∧ s.cnt = 3 := by
  obtain ⟨hends, hsafe⟩ := mt_cond 1
  obtain ⟨es, s, hrun, hpc⟩ := hends.exists_run
  obtain ⟨-, hlen, hcnt⟩ := hsafe es s hrun
  exact ⟨es, s, hrun, hpc, hlen, hcnt hpc⟩

end MyTests.Threads.CondWait
