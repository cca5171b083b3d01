/-
MyTests/Threads/PrintInTurn.lean

`src/mt-print.c`: print 010203040506 by 3 threads.

The three mutexes pass the turn around.  A thread takes its own mutex, prints,
and unlocks that of the thread whose turn is next, which it has not locked
itself: a mutex is taken here for a lock that anybody may unlock.  Between two
steps all mutexes are locked but for the one of the thread whose turn it is, or
it is inside and all are locked.  So a state is given by the round and by how
far the round has come (`stateAt`), one thread can go on and the others cannot
(`act_runner`, `act_of_ne`), and there is only one run.
-/
import MyTests.Lib.Transition

namespace MyTests.Threads.PrintInTurn

open Lib

/-! ### The threads -/

instance neZero_threads : NeZero 3 := ⟨by decide⟩

/-- What differs between the three threads. -/
structure Worker where
  /-- the loop variable in the first round -/
  first : ℕ
  /-- the loop goes on up to here -/
  last : ℕ
  stride : ℕ
  text : ℕ → ℕ
  /-- the mutex that is unlocked -/
  wakes : ℕ → Fin 3

def thread0 : Worker := ⟨0, 5, 1, fun _ => 0, fun i => Fin.ofNat 3 ((i &&& 1) + 1)⟩

def thread1 : Worker := ⟨1, 5, 2, fun i => i, fun _ => 0⟩

def thread2 : Worker := ⟨2, 6, 2, fun i => i, fun _ => 0⟩

/-- The thread that locks `mtx[t]`. -/
def worker : Fin 3 → Worker := ![thread0, thread1, thread2]

inductive Pc
  /-- `pthread_mutex_lock(&mtx[t])` -/
  | lock (i : ℕ)
  /-- `fprintf(stderr, ..)` -/
  | print (i : ℕ)
  /-- `pthread_mutex_unlock` -/
  | unlock (i : ℕ)
  | returned
deriving DecidableEq

structure State where
  locked : Fin 3 → Bool
  pc : Fin 3 → Pc

/-- The head of the loop. -/
def loop (t : Fin 3) (i : ℕ) : Pc := if i ≤ (worker t).last then .lock i else .returned

/-- The next step of thread `t`, with what it prints. -/
def act (t : Fin 3) (s : State) : Option (List ℕ × State) :=
  match s.pc t with
  | .lock i =>
      if s.locked t then none
      else some ([], ⟨Function.update s.locked t true, Function.update s.pc t (.print i)⟩)
  | .print i => some ([(worker t).text i], { s with pc := Function.update s.pc t (.unlock i) })
  | .unlock i => some ([], {
      locked := Function.update s.locked ((worker t).wakes i) false
      pc := Function.update s.pc t (loop t (i + (worker t).stride)) })
  | .returned => none

def Step (s : State) (es : List ℕ) (s' : State) : Prop := StepOf act s es s'

/-- `main` has locked `mtx[1]` and `mtx[2]`. -/
def init : State := ⟨![false, true, true], fun t => loop t (worker t).first⟩

/-! ### The run -/

/-- Where a round is: the thread that has the turn, and what it does next. -/
inductive Stage
  | lock0 | print0 | unlock0 | lock1 | print1 | unlock1
deriving DecidableEq

/-- The thread that prints after the zero of round `i`. -/
def other (i : ℕ) : Fin 3 := if i % 2 = 0 then 1 else 2

/-- Everybody at the head of the loop, in round `i`. -/
def home (i : ℕ) : Fin 3 → Pc :=
  ![loop 0 i, loop 1 (2 * ((i + 1) / 2) + 1), loop 2 (2 * (i / 2) + 2)]

/-- All mutexes are locked but that of `t`. -/
def onlyFree (t : Fin 3) : Fin 3 → Bool := Function.update (fun _ => true) t false

def stateAt (i : ℕ) : Stage → State
  | .lock0 => ⟨onlyFree 0, home i⟩
  | .print0 => ⟨fun _ => true, Function.update (home i) 0 (.print i)⟩
  | .unlock0 => ⟨fun _ => true, Function.update (home i) 0 (.unlock i)⟩
  | .lock1 => ⟨onlyFree (other i), Function.update (home i) 0 (loop 0 (i + 1))⟩
  | .print1 => ⟨fun _ => true, Function.update (Function.update (home i) 0 (loop 0 (i + 1)))
      (other i) (.print (i + 1))⟩
  | .unlock1 => ⟨fun _ => true, Function.update (Function.update (home i) 0 (loop 0 (i + 1)))
      (other i) (.unlock (i + 1))⟩

theorem init_eq : init = stateAt 0 .lock0 := by
  unfold init stateAt
  congr 1
  · funext t
    fin_cases t <;> rfl
  · funext t
    fin_cases t <;> rfl

variable {s s' : State} {es : List ℕ} {t : Fin 3} {i : ℕ} {st : Stage}

/-! ### The threads without the turn -/

/-- The thread with the turn. -/
def runner (i : ℕ) : Stage → Fin 3
  | .lock0 | .print0 | .unlock0 => 0
  | .lock1 | .print1 | .unlock1 => other i

theorem home_eq (i : ℕ) (t : Fin 3) : ∃ j, home i t = loop t j := by
  fin_cases t
  · exact ⟨_, rfl⟩
  · exact ⟨_, rfl⟩
  · exact ⟨_, rfl⟩

theorem home_update (i j : ℕ) (t : Fin 3) :
    ∃ k, Function.update (home i) 0 (loop 0 j) t = loop t k := by
  by_cases ht : t = 0
  · subst ht
    exact ⟨j, Function.update_self ..⟩
  · rw [Function.update_of_ne ht]
    exact home_eq i t

theorem update_frame {f : Fin 3 → Pc} {u : Fin 3} {pc : Pc} (ht : t ≠ u)
    (h : ∃ j, f t = loop t j) : ∃ j, Function.update f u pc t = loop t j := by
  rwa [Function.update_of_ne ht]

theorem pc_of_ne (ht : t ≠ runner i st) : ∃ j, (stateAt i st).pc t = loop t j := by
  cases st with
  | lock0 => exact home_eq i t
  | print0 =>
      show ∃ j, Function.update (home i) 0 _ t = _
      exact update_frame ht (home_eq i t)
  | unlock0 =>
      show ∃ j, Function.update (home i) 0 _ t = _
      exact update_frame ht (home_eq i t)
  | lock1 => exact home_update i (i + 1) t
  | print1 =>
      show ∃ j, Function.update (Function.update (home i) 0 _) (other i) _ t = _
      exact update_frame ht (home_update i (i + 1) t)
  | unlock1 =>
      show ∃ j, Function.update (Function.update (home i) 0 _) (other i) _ t = _
      exact update_frame ht (home_update i (i + 1) t)

theorem onlyFree_of_ne {u : Fin 3} (ht : t ≠ u) : onlyFree u t = true := by
  unfold onlyFree
  rw [Function.update_of_ne ht]

theorem locked_of_ne (ht : t ≠ runner i st) : (stateAt i st).locked t = true := by
  cases st with
  | lock0 => exact onlyFree_of_ne ht
  | lock1 => exact onlyFree_of_ne ht
  | _ => rfl

/-- A thread at the head of its loop waits while its mutex is locked. -/
theorem act_of_locked {j : ℕ} (hpc : s.pc t = loop t j) (hlocked : s.locked t = true) :
    act t s = none := by
  unfold act
  rw [hpc]
  unfold loop
  by_cases hj : j ≤ (worker t).last
  · rw [if_pos hj]
    exact if_pos hlocked
  · rw [if_neg hj]

theorem act_of_ne (ht : t ≠ runner i st) : act t (stateAt i st) = none := by
  obtain ⟨j, hpc⟩ := pc_of_ne ht
  exact act_of_locked hpc (locked_of_ne ht)

/-! ### The thread with the turn -/

theorem other_cases (i : ℕ) :
    (∃ k, i = 2 * k ∧ other i = 1) ∨ ∃ k, i = 2 * k + 1 ∧ other i = 2 := by
  rcases Nat.even_or_odd' i with ⟨k, rfl | rfl⟩
  · exact .inl ⟨k, rfl, if_pos (by omega)⟩
  · exact .inr ⟨k, rfl, if_neg (by omega)⟩

theorem other_ne_zero (i : ℕ) : other i ≠ 0 := by
  rcases other_cases i with ⟨k, -, h⟩ | ⟨k, -, h⟩ <;> rw [h] <;> decide

theorem wakes_thread0 (i : ℕ) : (worker 0).wakes i = other i := by
  show Fin.ofNat 3 ((i &&& 1) + 1) = other i
  unfold other
  rw [Nat.and_one_is_mod]
  rcases Nat.mod_two_eq_zero_or_one i with h | h <;> rw [h] <;> rfl

theorem wakes_other (i j : ℕ) : (worker (other i)).wakes j = 0 := by
  rcases other_cases i with ⟨k, -, h⟩ | ⟨k, -, h⟩ <;> rw [h] <;> rfl

theorem stride_other (i : ℕ) : (worker (other i)).stride = 2 := by
  rcases other_cases i with ⟨k, -, h⟩ | ⟨k, -, h⟩ <;> rw [h] <;> rfl

theorem text_other (i j : ℕ) : (worker (other i)).text j = j := by
  rcases other_cases i with ⟨k, -, h⟩ | ⟨k, -, h⟩ <;> rw [h] <;> rfl

theorem home_other (i : ℕ) : home i (other i) = loop (other i) (i + 1) := by
  rcases other_cases i with ⟨k, rfl, h⟩ | ⟨k, rfl, h⟩
  · rw [h]
    show loop 1 (2 * ((2 * k + 1) / 2) + 1) = _
    congr 1
    omega
  · rw [h]
    show loop 2 (2 * ((2 * k + 1) / 2) + 2) = _
    congr 1
    omega

theorem loop_other (hi : i ≤ 5) : loop (other i) (i + 1) = .lock (i + 1) := by
  rcases other_cases i with ⟨k, rfl, h⟩ | ⟨k, rfl, h⟩
  · rw [h]
    exact if_pos (show 2 * k + 1 ≤ 5 by omega)
  · rw [h]
    exact if_pos (show 2 * k + 1 + 1 ≤ 6 by omega)

/-- After both threads of round `i` have come round, it is round `i + 1`. -/
theorem home_succ (i : ℕ) : Function.update (Function.update (home i) 0 (loop 0 (i + 1)))
    (other i) (loop (other i) (i + 1 + 2)) = home (i + 1) := by
  funext t
  rcases other_cases i with ⟨k, rfl, h⟩ | ⟨k, rfl, h⟩
  · rw [h]
    fin_cases t
    · rfl
    · show loop 1 (2 * k + 1 + 2) = loop 1 (2 * ((2 * k + 1 + 1) / 2) + 1)
      congr 1
      omega
    · show loop 2 (2 * (2 * k / 2) + 2) = loop 2 (2 * ((2 * k + 1) / 2) + 2)
      congr 1
      omega
  · rw [h]
    fin_cases t
    · rfl
    · show loop 1 (2 * ((2 * k + 1 + 1) / 2) + 1) = loop 1 (2 * ((2 * k + 1 + 1 + 1) / 2) + 1)
      congr 1
      omega
    · show loop 2 (2 * k + 1 + 1 + 2) = loop 2 (2 * ((2 * k + 1 + 1) / 2) + 2)
      congr 1
      omega

theorem onlyFree_self (t : Fin 3) : onlyFree t t = false := by
  unfold onlyFree
  rw [Function.update_self]

theorem lock_onlyFree (t : Fin 3) : Function.update (onlyFree t) t true = fun _ => true := by
  unfold onlyFree
  rw [Function.update_idem]
  exact Function.update_eq_self t fun _ => true

/-- Where the round has come after the next step. -/
def next (i : ℕ) : Stage → State
  | .lock0 => stateAt i .print0
  | .print0 => stateAt i .unlock0
  | .unlock0 => stateAt i .lock1
  | .lock1 => stateAt i .print1
  | .print1 => stateAt i .unlock1
  | .unlock1 => stateAt (i + 1) .lock0

/-- What the next step prints. -/
def text (i : ℕ) : Stage → List ℕ
  | .print0 => [0]
  | .print1 => [i + 1]
  | _ => []

theorem act_runner (hi : i ≤ 5) (st : Stage) :
    act (runner i st) (stateAt i st) = some (text i st, next i st) := by
  cases st with
  | lock0 =>
      have hpc : (stateAt i .lock0).pc 0 = .lock i := if_pos hi
      have hfree : (stateAt i .lock0).locked 0 = false := onlyFree_self 0
      show act 0 (stateAt i .lock0) = _
      unfold act
      rw [hpc]
      dsimp only
      rw [hfree, if_neg Bool.false_ne_true]
      show some ([], State.mk (Function.update (onlyFree 0) 0 true) _) = _
      -- the one free lock is taken, so all are locked now
      rw [lock_onlyFree]
      rfl
  | print0 =>
      have hpc : (stateAt i .print0).pc 0 = .print i := rfl
      show act 0 (stateAt i .print0) = _
      unfold act
      rw [hpc]
      show some ([0], State.mk _ (Function.update (Function.update (home i) 0 _) 0 _)) = _
      rw [Function.update_idem]
      rfl
  | unlock0 =>
      have hpc : (stateAt i .unlock0).pc 0 = .unlock i := rfl
      show act 0 (stateAt i .unlock0) = _
      unfold act
      rw [hpc]
      show some ([], State.mk (Function.update (fun _ => true) ((worker 0).wakes i) false)
        (Function.update (Function.update (home i) 0 _) 0 _)) = _
      -- unlocking lets the other thread of the round in
      rw [Function.update_idem, wakes_thread0]
      rfl
  | lock1 =>
      have hpc : (stateAt i .lock1).pc (other i) = .lock (i + 1) := by
        show Function.update (home i) 0 _ (other i) = _
        rw [Function.update_of_ne (other_ne_zero i), home_other, loop_other hi]
      have hfree : (stateAt i .lock1).locked (other i) = false := onlyFree_self (other i)
      show act (other i) (stateAt i .lock1) = _
      unfold act
      rw [hpc]
      dsimp only
      rw [hfree, if_neg Bool.false_ne_true]
      show some ([], State.mk (Function.update (onlyFree (other i)) (other i) true) _) = _
      rw [lock_onlyFree]
      rfl
  | print1 =>
      have hpc : (stateAt i .print1).pc (other i) = .print (i + 1) := Function.update_self ..
      show act (other i) (stateAt i .print1) = _
      unfold act
      rw [hpc]
      show some ([(worker (other i)).text (i + 1)], State.mk _
        (Function.update (Function.update _ (other i) _) (other i) _)) = _
      rw [Function.update_idem, text_other]
      rfl
  | unlock1 =>
      have hpc : (stateAt i .unlock1).pc (other i) = .unlock (i + 1) := Function.update_self ..
      show act (other i) (stateAt i .unlock1) = _
      unfold act
      rw [hpc]
      show some ([], State.mk (Function.update (fun _ => true) ((worker (other i)).wakes _) false)
        (Function.update (Function.update _ (other i) _) (other i) _)) = _
      -- unlocking lets thread 0 in, for the next round
      rw [Function.update_idem, wakes_other, stride_other, home_succ]
      rfl

/-- After the sixth round everybody has returned. -/
theorem pc_done (t : Fin 3) : (stateAt 6 .lock0).pc t = .returned := by
  fin_cases t <;> rfl

theorem act_done (t : Fin 3) : act t (stateAt 6 .lock0) = none := by
  unfold act
  rw [pc_done]

/-! ### What is printed -/

/-- What the first `i` rounds print. -/
def rounds (i : ℕ) : List ℕ := (List.range i).flatMap fun k => [0, k + 1]

/-- What has been printed of round `i`. -/
def Stage.printed (i : ℕ) : Stage → List ℕ
  | lock0 | print0 => []
  | unlock0 | lock1 | print1 => [0]
  | unlock1 => [0, i + 1]

/-- The steps that are left of the round, after the next one. -/
def Stage.left : Stage → ℕ
  | lock0 => 5
  | print0 => 4
  | unlock0 => 3
  | lock1 => 2
  | print1 => 1
  | unlock1 => 0

/-- The run has come to `s`, with `es` printed and `k` steps to go. -/
inductive Come (es : List ℕ) (s : State) : ℕ → Prop
  | round (i : ℕ) (st : Stage) : i ≤ 5 → s = stateAt i st → es = rounds i ++ st.printed i →
      Come es s (6 * (5 - i) + st.left + 1)
  | done : s = stateAt 6 .lock0 → es = rounds 6 → Come es s 0

theorem rounds_succ (i : ℕ) : rounds (i + 1) = rounds i ++ [0, i + 1] := by
  unfold rounds
  rw [List.range_succ, List.flatMap_append]
  rfl

/-- At the head of a round, or at the end. -/
theorem come_head (hi : i ≤ 6) : Come (rounds i) (stateAt i .lock0) (6 * (6 - i)) := by
  by_cases hlast : i ≤ 5
  · have hcome : Come (rounds i) (stateAt i .lock0) (6 * (5 - i) + 5 + 1) :=
      .round i .lock0 hlast rfl (List.append_nil _).symm
    rwa [show 6 * (6 - i) = 6 * (5 - i) + 5 + 1 by omega]
  · obtain rfl : i = 6 := by omega
    exact .done rfl rfl

/-- Within a round. -/
theorem come_within (hi : i ≤ 5) (st : Stage) {es : List ℕ} {k : ℕ}
    (hes : es = rounds i ++ st.printed i) (hk : k = 6 * (5 - i) + st.left + 1) :
    Come es (stateAt i st) k := by
  rw [hk]
  exact .round i st hi rfl hes

/-- **One step.**  It is that of the thread with the turn. -/
theorem Come.step {k : ℕ} {e : List ℕ} (h : Come es s k) (hs : Step s e s') :
    ∃ m, k = m + 1 ∧ Come (es ++ e) s' m := by
  obtain ⟨t, ht⟩ := hs
  cases h with
  | done hstate hes =>
      rw [hstate, act_done] at ht
      cases ht
  | round i st hi hstate hes =>
      rw [hstate] at ht
      -- every other thread waits for a lock that is taken
      have hrun : t = runner i st := by
        by_contra hne
        rw [act_of_ne hne] at ht
        cases ht
      rw [hrun, act_runner hi] at ht
      obtain ⟨rfl, rfl⟩ := Prod.mk.inj (Option.some.inj ht)
      refine ⟨_, rfl, ?_⟩
      rw [hes]
      cases st with
      | lock0 => exact come_within hi .print0 (List.append_nil _) rfl
      | print0 => exact come_within hi .unlock0 (by simp [Stage.printed, text]) rfl
      | unlock0 => exact come_within hi .lock1 (List.append_nil _) rfl
      | lock1 => exact come_within hi .print1 (List.append_nil _) rfl
      | print1 => exact come_within hi .unlock1 (by simp [Stage.printed, text]) rfl
      | unlock1 =>
          have hcome := come_head (Nat.succ_le_succ hi)
          rw [rounds_succ, Nat.succ_sub_succ] at hcome
          rwa [List.append_assoc, show text i .unlock1 = [] from rfl, List.append_nil]

theorem come_of_run (hrun : Run Step init es s) : ∃ k, Come es s k := by
  refine Run.invariant (I := fun es s => ∃ k, Come es s k) ?_ ?_ hrun
  · rw [init_eq]
    exact ⟨_, come_head (Nat.zero_le 6)⟩
  · rintro es s₁ e s₂ ⟨k, h⟩ hs
    obtain ⟨m, -, hm⟩ := h.step hs
    exact ⟨m, hm⟩

theorem rounds_begin {j : ℕ} (hij : i ≤ j) : rounds i <+: rounds j := by
  induction j, hij using Nat.le_induction with
  | base => exact List.prefix_rfl
  | succ j _ ih =>
      rw [rounds_succ]
      exact ih.trans (List.prefix_append _ _)

theorem Stage.printed_begins (st : Stage) (i : ℕ) : st.printed i <+: [0, i + 1] := by
  cases st with
  | unlock1 => exact List.prefix_rfl
  | lock0 => exact ⟨[0, i + 1], rfl⟩
  | print0 => exact ⟨[0, i + 1], rfl⟩
  | _ => exact ⟨[i + 1], rfl⟩

theorem Come.begins {k : ℕ} (h : Come es s k) : es <+: rounds 6 := by
  cases h with
  | done _ hes => rw [hes]
  | round i st hi _ hes =>
      rw [hes]
      apply List.IsPrefix.trans _ (rounds_begin (Nat.succ_le_succ hi))
      rw [rounds_succ]
      exact (List.prefix_append_right_inj _).mpr (st.printed_begins i)

/-- While the thread with the turn goes on, not everybody has returned. -/
theorem Come.of_returned {k : ℕ} (h : Come es s k) (hreturned : ∀ t, s.pc t = .returned) :
    es = rounds 6 := by
  cases h with
  | done _ hes => exact hes
  | round i st hi hstate _ =>
      have hrun := act_runner hi st
      have hpc := hreturned (runner i st)
      rw [hstate] at hpc
      unfold act at hrun
      rw [hpc] at hrun
      cases hrun

theorem loop_ne_unlock (t : Fin 3) (j i : ℕ) : loop t j ≠ .unlock i := by
  unfold loop
  split <;> simp

/-- A thread that unlocks is inside, and then all mutexes are locked. -/
theorem Come.locked {k : ℕ} (h : Come es s k) (hpc : s.pc t = .unlock i) (u : Fin 3) :
    s.locked u = true := by
  cases h with
  | done hstate _ =>
      rw [hstate, pc_done] at hpc
      cases hpc
  | round i' st _ hstate _ =>
      rw [hstate] at hpc ⊢
      cases st with
      | lock0 =>
          obtain ⟨j, hj⟩ := home_eq i' t
          exact absurd (hj.symm.trans hpc) (loop_ne_unlock t j i)
      | lock1 =>
          obtain ⟨j, hj⟩ := home_update i' (i' + 1) t
          exact absurd (hj.symm.trans hpc) (loop_ne_unlock t j i)
      | _ => rfl

/-- **`mt-print` prints 010203040506.**  Whatever the order of the steps, all threads come to
return.  What is printed by then is 010203040506, and at any time before a beginning of it; and
no thread unlocks a mutex that is not locked. -/
theorem mt_print : Inevitably Step (fun s => ∀ t, s.pc t = .returned) init
    ∧ ∀ es s, Run Step init es s →
      es <+: [0, 1, 0, 2, 0, 3, 0, 4, 0, 5, 0, 6]
        ∧ ((∀ t, s.pc t = .returned) → es = [0, 1, 0, 2, 0, 3, 0, 4, 0, 5, 0, 6])
        ∧ ∀ t i, s.pc t = .unlock i → s.locked ((worker t).wakes i) = true := by
  constructor
  · rw [init_eq]
    refine Inevitably.of_rank (I := fun k s => ∃ es, Come es s k) ?_ ?_
      ⟨_, come_head (Nat.zero_le 6)⟩
    -- somebody can go on: the thread with the turn
    · rintro k s ⟨es, h⟩ hgo
      cases h with
      | done hstate _ =>
          refine absurd (fun t => ?_) hgo
          rw [hstate]
          exact pc_done t
      | round i st hi hstate _ =>
          rw [hstate]
          exact ⟨_, _, runner i st, act_runner hi st⟩
    · rintro k s e s' ⟨es, h⟩ - hs
      obtain ⟨m, rfl, hm⟩ := h.step hs
      exact ⟨m, Nat.lt_succ_self m, _, hm⟩
  · intro es s hrun
    obtain ⟨k, h⟩ := come_of_run hrun
    exact ⟨h.begins, h.of_returned, fun t i hpc => h.locked hpc _⟩

/-- A run to the end. -/
theorem mt_print_ends : ∃ s, Run Step init [0, 1, 0, 2, 0, 3, 0, 4, 0, 5, 0, 6] s := by
  obtain ⟨hends, hprints⟩ := mt_print
  obtain ⟨es, s, hrun, hreturned⟩ := hends.exists_run
  have hes := (hprints es s hrun).2.1 hreturned
  rw [hes] at hrun
  exact ⟨s, hrun⟩

end MyTests.Threads.PrintInTurn
