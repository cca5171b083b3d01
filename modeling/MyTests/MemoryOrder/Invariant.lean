/-
MyTests/MemoryOrder/Invariant.lean

The invariant of the harness.  A round has two phases, each a rendezvous of
`main` with all consumers: in the first the consumers reset the variables, in
the second they test them.  Where `main` is tells the phase and how far it has
come; the semaphores and the stages of the consumers follow from that.

In the first phase no consumer is testing, in the second none is resetting.  So
the stores of `main` stand until all consumers have left the round.
-/
import MyTests.Lib.Rendezvous
import MyTests.Lib.Tally
import MyTests.MemoryOrder.Harness

namespace MyTests.MemoryOrder

open Lib

variable {n : ℕ} {s t : State n} {c d : Fin n}

/-! ### Stages -/

/-- Where a consumer is in its round. -/
inductive Stage where
  | outside
  | resetting
  | ready
  | testing
deriving DecidableEq

instance : Fintype Stage where
  elems := {.outside, .resetting, .ready, .testing}
  complete := fun k => by cases k <;> decide

def ConsumerPc.stage : ConsumerPc → Stage
  | .unborn | .waitPrepare => .outside
  | .resetInput | .resetChanged | .postPrepareDone => .resetting
  | .waitConsume => .ready
  | .sleep | .spin | .check | .report | .postConsumeDone => .testing

/-- The number of consumers in a stage. -/
def State.at (s : State n) (k : Stage) : ℕ := tally ConsumerPc.stage s.pc k

theorem State.sum_at (s : State n) :
    s.at .outside + s.at .resetting + s.at .ready + s.at .testing = n := by
  have hsum := sum_tally ConsumerPc.stage s.pc
  rw [Fintype.card_fin] at hsum
  calc s.at .outside + s.at .resetting + s.at .ready + s.at .testing
      = ∑ k, tally ConsumerPc.stage s.pc k := by
        have huniv : (Finset.univ : Finset Stage) = {.outside, .resetting, .ready, .testing} := rfl
        rw [huniv, Finset.sum_insert (by decide), Finset.sum_insert (by decide),
          Finset.sum_insert (by decide), Finset.sum_singleton]
        simp only [State.at, Nat.add_assoc]
    _ = n := hsum

/-- A consumer goes on in its stage. -/
theorem State.at_stay {q : ConsumerPc} (hq : q.stage = (s.pc c).stage) (k : Stage) :
    (s.goto c q).at k = s.at k :=
  tally_update_same hq

/-- A consumer goes on from the stage `a` to the stage `b`. -/
theorem State.at_shift {q : ConsumerPc} (a b : Stage) (ha : (s.pc c).stage = a) (hb : q.stage = b)
    (hab : a ≠ b) :
    (s.goto c q).at a + 1 = s.at a ∧ (s.goto c q).at b = s.at b + 1 ∧
      ∀ k, k ≠ a → k ≠ b → (s.goto c q).at k = s.at k := by
  refine ⟨tally_update_leave (fun h => hab (h.symm.trans hb)) ha,
    tally_update_enter hb (fun h => hab (ha.symm.trans h)), fun k hka hkb => ?_⟩
  exact tally_update_other (fun h => hka (h.symm.trans ha)) (fun h => hkb (h.symm.trans hb))

theorem State.at_pos {p : ConsumerPc} (hp : s.pc c = p) : 0 < s.at p.stage :=
  tally_pos (congrArg _ hp)

/-! ### The steps of a consumer -/

/-- What a step of `c` can be. -/
inductive ConsumerMove (c : Fin n) (s : State n) : List (Event n) → State n → Prop
  | takePrepare : s.pc c = .waitPrepare → s.semPrepare ≠ 0 → ConsumerMove c s [.takePrepare c]
      { s.goto c .resetInput with semPrepare := s.semPrepare - 1 }
  | resetInput : s.pc c = .resetInput → ConsumerMove c s [.resetInput c]
      { s.goto c .resetChanged with input := 0x55 }
  | resetChanged : s.pc c = .resetChanged → ConsumerMove c s [.resetChanged c]
      { s.goto c .postPrepareDone with inputChanged := 0 }
  | postPrepareDone : s.pc c = .postPrepareDone → ConsumerMove c s [.postPrepareDone c]
      { s.goto c .waitConsume with semPrepareDone := s.semPrepareDone + 1 }
  | takeConsume : s.pc c = .waitConsume → s.semConsume ≠ 0 → ConsumerMove c s [.takeConsume c]
      { s.goto c .sleep with semConsume := s.semConsume - 1 }
  | sleep : s.pc c = .sleep → ConsumerMove c s [] (s.goto c .spin)
  | poll : s.pc c = .spin → s.inputChanged = 0 → ConsumerMove c s [] s
  | leaveWait : s.pc c = .spin → s.inputChanged ≠ 0 →
      ConsumerMove c s [.leaveWait c s.input] (s.goto c .check)
  | alarm : s.pc c = .check → s.input = 0x55 → ConsumerMove c s [.check c] (s.goto c .report)
  | check : s.pc c = .check → s.input ≠ 0x55 →
      ConsumerMove c s [.check c] (s.goto c .postConsumeDone)
  | report : s.pc c = .report → ConsumerMove c s [.caught c]
      { s.goto c .postConsumeDone with caught := s.caught + 1 }
  | postConsumeDone : s.pc c = .postConsumeDone → ConsumerMove c s [.postConsumeDone c]
      { s.goto c .waitPrepare with semConsumeDone := s.semConsumeDone + 1 }

theorem consumerStep_move {es : List (Event n)} (h : consumerStep c s = some (es, t)) :
    ConsumerMove c s es t := by
  unfold consumerStep at h
  cases hpc : s.pc c with
  | unborn => simp [hpc] at h
  | waitPrepare =>
      simp only [hpc] at h
      split at h
      -- `sem_wait` blocks at 0
      · cases h
      · cases h
        exact .takePrepare hpc ‹_›
  | resetInput =>
      simp only [hpc, Option.some.injEq] at h
      cases h
      exact .resetInput hpc
  | resetChanged =>
      simp only [hpc, Option.some.injEq] at h
      cases h
      exact .resetChanged hpc
  | postPrepareDone =>
      simp only [hpc, Option.some.injEq] at h
      cases h
      exact .postPrepareDone hpc
  | waitConsume =>
      simp only [hpc] at h
      split at h
      · cases h
      · cases h
        exact .takeConsume hpc ‹_›
  | sleep =>
      simp only [hpc, Option.some.injEq] at h
      cases h
      exact .sleep hpc
  | spin =>
      simp only [hpc] at h
      split at h
      · cases h
        exact .poll hpc ‹_›
      · cases h
        exact .leaveWait hpc ‹_›
  | check =>
      simp only [hpc] at h
      split at h
      · cases h
        exact .alarm hpc ‹_›
      · cases h
        exact .check hpc ‹_›
  | report =>
      simp only [hpc, Option.some.injEq] at h
      cases h
      exact .report hpc
  | postConsumeDone =>
      simp only [hpc, Option.some.injEq] at h
      cases h
      exact .postConsumeDone hpc

/-! ### The steps of `main` -/

/-- What a step of `main` can be, from its program point. -/
inductive MainMove (s : State n) : MainPc → List (Event n) → State n → Prop
  | create {i} (h : i < n) : MainMove s (.create i) []
      { s.goto ⟨i, h⟩ .waitPrepare with main := .create (i + 1) }
  | created {i} : ¬ i < n → MainMove s (.create i) [] { s with main := .postPrepare 0 }
  | postPrepare {i} : i < n → MainMove s (.postPrepare i) [.postPrepare]
      { s with semPrepare := s.semPrepare + 1, main := .postPrepare (i + 1) }
  | allPrepared {i} : ¬ i < n → MainMove s (.postPrepare i) [] { s with main := .waitPrepareDone 0 }
  | takePrepareDone {i} : i < n → s.semPrepareDone ≠ 0 →
      MainMove s (.waitPrepareDone i) [.takePrepareDone]
        { s with semPrepareDone := s.semPrepareDone - 1, main := .waitPrepareDone (i + 1) }
  | prepareDone {i} : ¬ i < n →
      MainMove s (.waitPrepareDone i) [] { s with main := .postConsume 0 }
  | postConsume {i} : i < n → MainMove s (.postConsume i) [.postConsume]
      { s with semConsume := s.semConsume + 1, main := .postConsume (i + 1) }
  | allReleased {i} : ¬ i < n → MainMove s (.postConsume i) [] { s with main := .storeInput }
  | storeInput : MainMove s .storeInput [.storeInput]
      { s with input := 0xAA, main := .storeChanged }
  | storeChanged : MainMove s .storeChanged [.storeChanged]
      { s with inputChanged := 1, main := .waitConsumeDone 0 }
  | takeConsumeDone {i} : i < n → s.semConsumeDone ≠ 0 →
      MainMove s (.waitConsumeDone i) [.takeConsumeDone]
        { s with semConsumeDone := s.semConsumeDone - 1, main := .waitConsumeDone (i + 1) }
  | consumeDone {i} : ¬ i < n → MainMove s (.waitConsumeDone i) [] { s with main := .count }
  | count : MainMove s .count [.roundEnd] { s with cnt := s.cnt + 1, main := .postPrepare 0 }

theorem mainStep_move {es : List (Event n)} (h : mainStep s = some (es, t)) :
    MainMove s s.main es t := by
  unfold mainStep at h
  cases hm : s.main with
  | create i =>
      simp only [hm] at h
      -- the loop over the consumers goes on, or has ended
      split at h
      · cases h
        exact .create ‹_›
      · cases h
        exact .created ‹_›
  | postPrepare i =>
      simp only [hm] at h
      split at h
      · cases h
        exact .postPrepare ‹_›
      · cases h
        exact .allPrepared ‹_›
  | waitPrepareDone i =>
      simp only [hm] at h
      split at h
      · split at h
        · cases h
        · cases h
          exact .takePrepareDone ‹_› ‹_›
      · cases h
        exact .prepareDone ‹_›
  | postConsume i =>
      simp only [hm] at h
      split at h
      · cases h
        exact .postConsume ‹_›
      · cases h
        exact .allReleased ‹_›
  | storeInput =>
      simp only [hm, Option.some.injEq] at h
      cases h
      exact .storeInput
  | storeChanged =>
      simp only [hm, Option.some.injEq] at h
      cases h
      exact .storeChanged
  | waitConsumeDone i =>
      simp only [hm] at h
      split at h
      · split at h
        · cases h
        · cases h
          exact .takeConsumeDone ‹_› ‹_›
      · cases h
        exact .consumeDone ‹_›
  | count =>
      simp only [hm, Option.some.injEq] at h
      cases h
      exact .count

/-! ### The two phases -/

/-- The consumers reset the variables. -/
structure Gathering (s : State n) (posted collected : ℕ) : Prop where
  rendezvous : Rendezvous posted collected s.semPrepare s.semPrepareDone
    (s.at .resetting) (s.at .ready)
  testing_eq : s.at .testing = 0
  semConsume_eq : s.semConsume = 0
  semConsumeDone_eq : s.semConsumeDone = 0
  /-- nobody sets `input_changed` before all have reset it -/
  unset : ∀ c, s.pc c = .postPrepareDone ∨ s.pc c = .waitConsume → s.inputChanged = 0

/-- The consumers test the variables. -/
structure Testing (s : State n) (posted collected : ℕ) : Prop where
  rendezvous : Rendezvous posted collected s.semConsume s.semConsumeDone
    (s.at .testing) (s.at .outside)
  resetting_eq : s.at .resetting = 0
  semPrepare_eq : s.semPrepare = 0
  semPrepareDone_eq : s.semPrepareDone = 0

/-- No consumer has seen `input_changed` set. -/
structure Unset (s : State n) : Prop where
  eq_zero : ∀ _ : Fin n, s.inputChanged = 0
  waits : ∀ c, s.pc c ≠ .check ∧ s.pc c ≠ .postConsumeDone

/-- A phase excludes the stage that belongs to the other. -/
theorem stage_ne {k : Stage} (hk : s.at k = 0) {p : ConsumerPc} (hp : s.pc c = p) : p.stage ≠ k :=
  fun h => by
    have hpos := State.at_pos hp
    rw [h, hk] at hpos
    exact lt_irrefl 0 hpos

/-- Where the consumers are after a step. -/
theorem State.goto_pc {q : ConsumerPc} (d : Fin n) :
    (d = c ∧ (s.goto c q).pc d = q) ∨ (d ≠ c ∧ (s.goto c q).pc d = s.pc d) := by
  by_cases hdc : d = c
  · subst hdc
    exact Or.inl ⟨rfl, Function.update_self ..⟩
  · exact Or.inr ⟨hdc, Function.update_of_ne hdc ..⟩

theorem Gathering.consumer {posted collected : ℕ} (h : Gathering s posted collected)
    {es : List (Event n)} (hm : ConsumerMove c s es t) : Gathering t posted collected := by
  obtain ⟨hr, htesting, hsem, hsemDone, hunset⟩ := h
  cases hm with
  | takePrepare hpc hne =>
      -- a token of `sem_prepare` turns into a consumer that resets
      obtain ⟨-, henter, hother⟩ := State.at_shift (q := .resetInput) .outside .resetting
        (congrArg _ hpc) rfl nofun
      have hr' := hr.take hne
      rw [← henter, ← hother .ready nofun nofun] at hr'
      refine ⟨hr', (hother .testing nofun nofun).trans htesting, hsem, hsemDone, fun d hd => ?_⟩
      obtain ⟨rfl, hq⟩ | ⟨-, hq⟩ := State.goto_pc (s := s) (c := c) (q := .resetInput) d
      · rcases hd with hd | hd <;> cases hq.symm.trans hd
      · exact hunset d (hq ▸ hd)
  | resetInput hpc =>
      have hstay := State.at_stay (s := s) (c := c) (q := .resetChanged) (congrArg ConsumerPc.stage hpc).symm
      have hr' := hr
      rw [← hstay, ← hstay .ready] at hr'
      refine ⟨hr', (hstay .testing).trans htesting, hsem, hsemDone, fun d hd => ?_⟩
      obtain ⟨rfl, hq⟩ | ⟨-, hq⟩ := State.goto_pc (s := s) (c := c) (q := .resetChanged) d
      · rcases hd with hd | hd <;> cases hq.symm.trans hd
      · exact hunset d (hq ▸ hd)
  | resetChanged hpc =>
      have hstay := State.at_stay (s := s) (c := c) (q := .postPrepareDone) (congrArg ConsumerPc.stage hpc).symm
      have hr' := hr
      rw [← hstay, ← hstay .ready] at hr'
      exact ⟨hr', (hstay .testing).trans htesting, hsem, hsemDone, fun _ _ => rfl⟩
  | postPrepareDone hpc =>
      -- and that one into a token of `sem_prepare_done`
      obtain ⟨hleave, henter, hother⟩ := State.at_shift (q := .waitConsume) .resetting .ready
        (congrArg _ hpc) rfl nofun
      have hr' := hr.arrive hleave
      rw [← henter] at hr'
      exact ⟨hr', (hother .testing nofun nofun).trans htesting, hsem, hsemDone,
        fun _ _ => hunset c (Or.inl hpc)⟩
  -- no consumer is released yet, so none is in the test
  | takeConsume hpc hne => exact absurd hsem hne
  | sleep hpc => exact absurd rfl (stage_ne htesting hpc)
  | poll hpc => exact absurd rfl (stage_ne htesting hpc)
  | leaveWait hpc => exact absurd rfl (stage_ne htesting hpc)
  | alarm hpc => exact absurd rfl (stage_ne htesting hpc)
  | check hpc => exact absurd rfl (stage_ne htesting hpc)
  | report hpc => exact absurd rfl (stage_ne htesting hpc)
  | postConsumeDone hpc => exact absurd rfl (stage_ne htesting hpc)

theorem Testing.consumer {posted collected : ℕ} (h : Testing s posted collected)
    {es : List (Event n)} (hm : ConsumerMove c s es t) : Testing t posted collected := by
  obtain ⟨hr, hresetting, hsem, hsemDone⟩ := h
  -- the steps that stay among the testing consumers
  have hinside : ∀ q : ConsumerPc, q.stage = .testing → (s.pc c).stage = .testing →
      Rendezvous posted collected s.semConsume s.semConsumeDone
        ((s.goto c q).at .testing) ((s.goto c q).at .outside) ∧ (s.goto c q).at .resetting = 0 := by
    intro q hq hpc
    have hstay := State.at_stay (s := s) (c := c) (hq.trans hpc.symm)
    rw [hstay, hstay .outside, hstay .resetting]
    exact ⟨hr, hresetting⟩
  cases hm with
  | takePrepare hpc hne => exact absurd hsem hne
  | resetInput hpc => exact absurd rfl (stage_ne hresetting hpc)
  | resetChanged hpc => exact absurd rfl (stage_ne hresetting hpc)
  | postPrepareDone hpc => exact absurd rfl (stage_ne hresetting hpc)
  | takeConsume hpc hne =>
      obtain ⟨-, henter, hother⟩ := State.at_shift (q := .sleep) .ready .testing
        (congrArg _ hpc) rfl nofun
      have hr' := hr.take hne
      rw [← henter, ← hother .outside nofun nofun] at hr'
      exact ⟨hr', (hother .resetting nofun nofun).trans hresetting, hsem, hsemDone⟩
  | sleep hpc =>
      obtain ⟨hr', hresetting'⟩ := hinside .spin rfl (congrArg _ hpc)
      exact ⟨hr', hresetting', hsem, hsemDone⟩
  | poll => exact ⟨hr, hresetting, hsem, hsemDone⟩
  | leaveWait hpc =>
      obtain ⟨hr', hresetting'⟩ := hinside .check rfl (congrArg _ hpc)
      exact ⟨hr', hresetting', hsem, hsemDone⟩
  | alarm hpc =>
      obtain ⟨hr', hresetting'⟩ := hinside .report rfl (congrArg _ hpc)
      exact ⟨hr', hresetting', hsem, hsemDone⟩
  | check hpc =>
      obtain ⟨hr', hresetting'⟩ := hinside .postConsumeDone rfl (congrArg _ hpc)
      exact ⟨hr', hresetting', hsem, hsemDone⟩
  | report hpc =>
      obtain ⟨hr', hresetting'⟩ := hinside .postConsumeDone rfl (congrArg _ hpc)
      exact ⟨hr', hresetting', hsem, hsemDone⟩
  | postConsumeDone hpc =>
      obtain ⟨hleave, henter, hother⟩ := State.at_shift (q := .waitPrepare) .testing .outside
        (congrArg _ hpc) rfl nofun
      have hr' := hr.arrive hleave
      rw [← henter] at hr'
      exact ⟨hr', (hother .resetting nofun nofun).trans hresetting, hsem, hsemDone⟩

/-- While the consumers test, none stores to the variables. -/
theorem Testing.variables {posted collected : ℕ} (h : Testing s posted collected)
    {es : List (Event n)} (hm : ConsumerMove c s es t) :
    t.input = s.input ∧ t.inputChanged = s.inputChanged := by
  cases hm with
  | resetInput hpc => exact absurd rfl (stage_ne h.resetting_eq hpc)
  | resetChanged hpc => exact absurd rfl (stage_ne h.resetting_eq hpc)
  | _ => exact ⟨rfl, rfl⟩

/-- Before `input_changed` is set, the consumers wait for it. -/
theorem Unset.consumer {posted collected : ℕ} (h : Testing s posted collected) (hu : Unset s)
    (hreport : ∀ c, s.pc c ≠ .report) {es : List (Event n)} (hm : ConsumerMove c s es t) :
    Unset t := by
  -- whoever moves to another point before the check is still before it
  have hkeep : ∀ q : ConsumerPc, q ≠ .check ∧ q ≠ .postConsumeDone →
      ∀ d, (s.goto c q).pc d ≠ .check ∧ (s.goto c q).pc d ≠ .postConsumeDone := by
    intro q hq d
    obtain ⟨-, hd⟩ | ⟨-, hd⟩ := State.goto_pc (s := s) (c := c) (q := q) d
    · rw [hd]
      exact hq
    · rw [hd]
      exact hu.waits d
  cases hm with
  | takePrepare hpc hne => exact absurd h.semPrepare_eq hne
  | resetInput hpc => exact absurd rfl (stage_ne h.resetting_eq hpc)
  | resetChanged hpc => exact absurd rfl (stage_ne h.resetting_eq hpc)
  | postPrepareDone hpc => exact absurd rfl (stage_ne h.resetting_eq hpc)
  | takeConsume => exact ⟨hu.eq_zero, hkeep .sleep ⟨nofun, nofun⟩⟩
  | sleep => exact ⟨hu.eq_zero, hkeep .spin ⟨nofun, nofun⟩⟩
  | poll => exact hu
  | leaveWait hpc hne => exact absurd (hu.eq_zero c) hne
  | alarm hpc => exact absurd hpc (hu.waits c).1
  | check hpc => exact absurd hpc (hu.waits c).1
  | report hpc => exact absurd hpc (hreport c)
  | postConsumeDone hpc => exact absurd hpc (hu.waits c).2

/-- The consumer goes on somewhere; to the alarm only with 0x55 in `input`. -/
theorem ConsumerMove.pc_eq {es : List (Event n)} (hm : ConsumerMove c s es t) :
    ∃ q, t.pc = Function.update s.pc c q ∧ q ≠ .unborn ∧
      (q = .report → s.pc c = .check ∧ s.input = 0x55) := by
  cases hm with
  | poll hpc => exact ⟨.spin, by rw [← hpc, Function.update_eq_self], nofun, nofun⟩
  | alarm hpc heq => exact ⟨_, rfl, nofun, fun _ => ⟨hpc, heq⟩⟩
  | takePrepare => exact ⟨.resetInput, rfl, nofun, nofun⟩
  | resetInput => exact ⟨.resetChanged, rfl, nofun, nofun⟩
  | resetChanged => exact ⟨.postPrepareDone, rfl, nofun, nofun⟩
  | postPrepareDone => exact ⟨.waitConsume, rfl, nofun, nofun⟩
  | takeConsume => exact ⟨.sleep, rfl, nofun, nofun⟩
  | sleep => exact ⟨.spin, rfl, nofun, nofun⟩
  | leaveWait => exact ⟨.check, rfl, nofun, nofun⟩
  | check => exact ⟨.postConsumeDone, rfl, nofun, nofun⟩
  | report => exact ⟨.postConsumeDone, rfl, nofun, nofun⟩
  | postConsumeDone => exact ⟨.waitPrepare, rfl, nofun, nofun⟩

theorem ConsumerMove.caught_eq {es : List (Event n)} (hm : ConsumerMove c s es t)
    (hreport : s.pc c ≠ .report) : t.caught = s.caught := by
  cases hm with
  | report hpc => exact absurd hpc hreport
  | _ => rfl

/-! ### The invariant -/

/-- What holds where `main` is. -/
inductive Phase (s : State n) : Prop
  | create {i} : s.main = .create i → i ≤ n →
      (∀ c : Fin n, s.pc c = if c.val < i then .waitPrepare else .unborn) → Gathering s 0 0 → Phase s
  | postPrepare {i} : s.main = .postPrepare i → i ≤ n → Gathering s i 0 → Phase s
  | waitPrepareDone {i} : s.main = .waitPrepareDone i → i ≤ n → Gathering s n i → Phase s
  | postConsume {i} : s.main = .postConsume i → i ≤ n → Testing s i 0 → Unset s → Phase s
  | storeInput : s.main = .storeInput → Testing s n 0 → Unset s → Phase s
  | storeChanged : s.main = .storeChanged → Testing s n 0 → Unset s → s.input = 0xAA → Phase s
  | waitConsumeDone {i} : s.main = .waitConsumeDone i → i ≤ n → Testing s n i → s.input = 0xAA →
      Phase s
  | count : s.main = .count → Testing s n n → s.input = 0xAA → Phase s

structure Inv (s : State n) : Prop where
  caught_eq : s.caught = 0
  report_ne : ∀ c, s.pc c ≠ .report
  born : ∀ c, s.pc c = .unborn → ∃ i, s.main = .create i ∧ i < n
  phase : Phase s

theorem ConsumerMove.main_eq {es : List (Event n)} (hm : ConsumerMove c s es t) :
    t.main = s.main := by
  cases hm <;> rfl

/-- While `main` creates the consumers, none goes on. -/
theorem Gathering.no_move (h : Gathering s 0 0) {es : List (Event n)}
    (hm : ConsumerMove c s es t) (hpc : s.pc c = .waitPrepare ∨ s.pc c = .unborn) : False := by
  have htokens : s.semPrepare = 0 := by
    have hposted := h.rendezvous.posted_eq
    omega
  cases hm <;> simp_all

theorem Inv.consumer (h : Inv s) {es : List (Event n)} (hm : ConsumerMove c s es t) : Inv t := by
  obtain ⟨hcaught, hreport, hborn, hphase⟩ := h
  have hmain := hm.main_eq
  -- where a consumer is about to check, `input` holds 0xAA
  have hinput : s.pc c = .check → s.input ≠ 0x55 := by
    intro hpc heq
    have hset : s.input = 0xAA → False := fun hset => absurd (heq.symm.trans hset) (by decide)
    cases hphase with
    | create _ _ _ hg => exact stage_ne hg.testing_eq hpc rfl
    | postPrepare _ _ hg => exact stage_ne hg.testing_eq hpc rfl
    | waitPrepareDone _ _ hg => exact stage_ne hg.testing_eq hpc rfl
    | postConsume _ _ _ hu => exact (hu.waits c).1 hpc
    | storeInput _ _ hu => exact (hu.waits c).1 hpc
    | storeChanged _ _ _ hinput => exact hset hinput
    | waitConsumeDone _ _ _ hinput => exact hset hinput
    | count _ _ hinput => exact hset hinput
  obtain ⟨q, hq, hqborn, hqreport⟩ := hm.pc_eq
  refine ⟨(hm.caught_eq (hreport c)).trans hcaught, fun d hd => ?_, fun d hd => ?_, ?_⟩
  · rw [hq] at hd
    by_cases hdc : d = c
    · subst hdc
      rw [Function.update_self] at hd
      exact hinput (hqreport hd).1 (hqreport hd).2
    · rw [Function.update_of_ne hdc] at hd
      exact hreport d hd
  · rw [hq] at hd
    by_cases hdc : d = c
    · subst hdc
      rw [Function.update_self] at hd
      exact absurd hd hqborn
    · rw [Function.update_of_ne hdc] at hd
      obtain ⟨i, hi, hlt⟩ := hborn d hd
      exact ⟨i, hmain.trans hi, hlt⟩
  · cases hphase with
    | create hm0 hi hpcs hg =>
        refine (hg.no_move hm ?_).elim
        rw [hpcs c]
        split
        · exact Or.inl rfl
        · exact Or.inr rfl
    | postPrepare hm0 hi hg => exact .postPrepare (hmain.trans hm0) hi (hg.consumer hm)
    | waitPrepareDone hm0 hi hg => exact .waitPrepareDone (hmain.trans hm0) hi (hg.consumer hm)
    | postConsume hm0 hi ht hu =>
        exact .postConsume (hmain.trans hm0) hi (ht.consumer hm) (hu.consumer ht hreport hm)
    | storeInput hm0 ht hu =>
        exact .storeInput (hmain.trans hm0) (ht.consumer hm) (hu.consumer ht hreport hm)
    | storeChanged hm0 ht hu hinput =>
        exact .storeChanged (hmain.trans hm0) (ht.consumer hm) (hu.consumer ht hreport hm)
          ((ht.variables hm).1.trans hinput)
    | waitConsumeDone hm0 hi ht hinput =>
        exact .waitConsumeDone (hmain.trans hm0) hi (ht.consumer hm)
          ((ht.variables hm).1.trans hinput)
    | count hm0 ht hinput =>
        exact .count (hmain.trans hm0) (ht.consumer hm) ((ht.variables hm).1.trans hinput)

/-! ### From phase to phase -/

/-- Between the phases every consumer is ready. -/
theorem Gathering.all_ready (h : Gathering s n n) (c : Fin n) : s.pc c = .waitConsume := by
  have hstage : (s.pc c).stage = .ready :=
    tally_eq_card.mp (h.rendezvous.all_arrived.2.2.2.trans (Fintype.card_fin n).symm) c
  cases hc : s.pc c with
  | waitConsume => rfl
  | _ =>
      rw [hc] at hstage
      cases hstage

/-- The first rendezvous has used up its tokens, and the second begins. -/
theorem Gathering.turn (h : Gathering s n n) (ht : t = { s with main := .postConsume 0 }) :
    Testing t 0 0 ∧ Unset t := by
  subst ht
  obtain ⟨hsem, hresetting, hsemDone, harrived⟩ := h.rendezvous.all_arrived
  have hsum := s.sum_at
  have hr : Rendezvous 0 0 s.semConsume s.semConsumeDone (s.at .testing) (s.at .outside) :=
    ⟨by rw [h.semConsume_eq, h.testing_eq]; omega, by rw [h.semConsumeDone_eq]; omega⟩
  refine ⟨⟨hr, hresetting, hsem, hsemDone⟩,
    ⟨fun c => h.unset c (Or.inr (h.all_ready c)), fun c => ?_⟩⟩
  show s.pc c ≠ .check ∧ s.pc c ≠ .postConsumeDone
  rw [h.all_ready c]
  exact ⟨nofun, nofun⟩

/-- Between the rounds every consumer is outside. -/
theorem Testing.all_outside (h : Testing s n n) (c : Fin n) : (s.pc c).stage = .outside :=
  tally_eq_card.mp (h.rendezvous.all_arrived.2.2.2.trans (Fintype.card_fin n).symm) c

/-- The second rendezvous has used up its tokens, and the first begins. -/
theorem Testing.turn (h : Testing s n n) (ht : t = { s with cnt := s.cnt + 1, main := .postPrepare 0 }) :
    Gathering t 0 0 := by
  subst ht
  obtain ⟨hsem, htesting, hsemDone, harrived⟩ := h.rendezvous.all_arrived
  have hresetting := h.resetting_eq
  have hready : s.at .ready = 0 := by
    have hsum := s.sum_at
    omega
  have hr : Rendezvous 0 0 s.semPrepare s.semPrepareDone (s.at .resetting) (s.at .ready) := by
    rw [h.semPrepare_eq, h.semPrepareDone_eq, hresetting, hready]
    exact .init
  refine ⟨hr, htesting, hsem, hsemDone, fun c hc => ?_⟩
  rcases hc with hc | hc
  · exact absurd rfl (stage_ne hresetting hc)
  · exact absurd rfl (stage_ne hready hc)

/-- The creation of a consumer, which enters its loop. -/
theorem Gathering.create (h : Gathering s 0 0) {i : ℕ} (hi : i < n)
    (hpcs : ∀ c : Fin n, s.pc c = if c.val < i then .waitPrepare else .unborn)
    (ht : t = { s.goto ⟨i, hi⟩ .waitPrepare with main := .create (i + 1) }) :
    (∀ c : Fin n, t.pc c = if c.val < i + 1 then .waitPrepare else .unborn) ∧ Gathering t 0 0 := by
  subst ht
  have hpcs' : ∀ c : Fin n, Function.update s.pc ⟨i, hi⟩ .waitPrepare c
      = if c.val < i + 1 then .waitPrepare else .unborn := by
    intro c
    by_cases hc : c = ⟨i, hi⟩
    · subst hc
      rw [Function.update_self, if_pos (Nat.lt_succ_self i)]
    · have hne : c.val ≠ i := fun h => hc (Fin.ext h)
      rw [Function.update_of_ne hc, hpcs]
      split_ifs <;> first | rfl | omega
  -- an unborn consumer and one before its first wait count alike
  have hstage : ConsumerPc.waitPrepare.stage = (s.pc ⟨i, hi⟩).stage := by
    rw [hpcs, if_neg (lt_irrefl i)]
    rfl
  have hstay := State.at_stay hstage
  have hr := h.rendezvous
  rw [← hstay, ← hstay .ready] at hr
  refine ⟨hpcs', hr, (hstay .testing).trans h.testing_eq, h.semConsume_eq, h.semConsumeDone_eq,
    fun c hc => ?_⟩
  have hc' : (Function.update s.pc _ _ c = .postPrepareDone ∨
      Function.update s.pc _ _ c = .waitConsume) := hc
  rw [hpcs' c] at hc'
  split at hc' <;> simp at hc'

/-- A step of `main` that moves no consumer, after the creation. -/
theorem Inv.advance (h : Inv s) (hcreate : ∀ i, s.main ≠ .create i) (hpc : t.pc = s.pc)
    (hcaught : t.caught = s.caught) (hphase : Phase t) : Inv t where
  caught_eq := hcaught.trans h.caught_eq
  report_ne := fun c => by
    rw [hpc]
    exact h.report_ne c
  born := fun c hc => by
    rw [hpc] at hc
    obtain ⟨i, hi, -⟩ := h.born c hc
    exact absurd hi (hcreate i)
  phase := hphase

theorem Inv.main (h : Inv s) {es : List (Event n)} (hs : mainStep s = some (es, t)) : Inv t := by
  have hmove := mainStep_move hs
  cases h.phase with
  | create hm hi hpcs hg =>
      rw [hm] at hmove
      cases hmove with
      | create hlt =>
          obtain ⟨hpcs', hg'⟩ := hg.create hlt hpcs rfl
          refine ⟨h.caught_eq, fun c => ?_, fun c hc => ⟨_, rfl, ?_⟩, .create rfl hlt hpcs' hg'⟩
          · rw [hpcs' c]
            split <;> nofun
          · have hc' := (hpcs' c).symm.trans hc
            split at hc'
            · cases hc'
            · omega
      | created hge =>
          -- by now every consumer is created
          refine ⟨h.caught_eq, h.report_ne, fun c hc => ?_, .postPrepare rfl (Nat.zero_le n) { hg with }⟩
          have hpc := (hpcs c).symm.trans hc
          rw [if_pos (by omega)] at hpc
          cases hpc
  | postPrepare hm hi hg =>
      rw [hm] at hmove
      cases hmove with
      | postPrepare hlt =>
          exact h.advance (by rw [hm]; nofun) rfl rfl
            (.postPrepare rfl hlt { hg with rendezvous := hg.rendezvous.post })
      | allPrepared hge =>
          obtain rfl := Nat.le_antisymm hi (Nat.le_of_not_lt hge)
          exact h.advance (by rw [hm]; nofun) rfl rfl
            (.waitPrepareDone rfl (Nat.zero_le _) { hg with })
  | waitPrepareDone hm hi hg =>
      rw [hm] at hmove
      cases hmove with
      | takePrepareDone hlt hne =>
          exact h.advance (by rw [hm]; nofun) rfl rfl
            (.waitPrepareDone rfl hlt { hg with rendezvous := hg.rendezvous.collect hne })
      | prepareDone hge =>
          obtain rfl := Nat.le_antisymm hi (Nat.le_of_not_lt hge)
          obtain ⟨ht, hu⟩ := hg.turn rfl
          exact h.advance (by rw [hm]; nofun) rfl rfl (.postConsume rfl (Nat.zero_le _) ht hu)
  | postConsume hm hi ht hu =>
      rw [hm] at hmove
      cases hmove with
      | postConsume hlt =>
          exact h.advance (by rw [hm]; nofun) rfl rfl
            (.postConsume rfl hlt { ht with rendezvous := ht.rendezvous.post } { hu with })
      | allReleased hge =>
          obtain rfl := Nat.le_antisymm hi (Nat.le_of_not_lt hge)
          exact h.advance (by rw [hm]; nofun) rfl rfl (.storeInput rfl { ht with } { hu with })
  | storeInput hm ht hu =>
      rw [hm] at hmove
      cases hmove
      exact h.advance (by rw [hm]; nofun) rfl rfl (.storeChanged rfl { ht with } { hu with } rfl)
  | storeChanged hm ht hu hinput =>
      rw [hm] at hmove
      cases hmove
      exact h.advance (by rw [hm]; nofun) rfl rfl
        (.waitConsumeDone rfl (Nat.zero_le _) { ht with } hinput)
  | waitConsumeDone hm hi ht hinput =>
      rw [hm] at hmove
      cases hmove with
      | takeConsumeDone hlt hne =>
          exact h.advance (by rw [hm]; nofun) rfl rfl
            (.waitConsumeDone rfl hlt { ht with rendezvous := ht.rendezvous.collect hne } hinput)
      | consumeDone hge =>
          obtain rfl := Nat.le_antisymm hi (Nat.le_of_not_lt hge)
          exact h.advance (by rw [hm]; nofun) rfl rfl (.count rfl { ht with } hinput)
  | count hm ht hinput =>
      rw [hm] at hmove
      cases hmove
      exact h.advance (by rw [hm]; nofun) rfl rfl
        (.postPrepare rfl (Nat.zero_le _) (ht.turn rfl))

theorem Inv.init (n : ℕ) : Inv (State.init n) where
  caught_eq := rfl
  report_ne := fun _ => nofun
  born := fun c _ => ⟨0, rfl, Nat.zero_lt_of_lt c.isLt⟩
  phase := by
    have hat : ∀ k, k ≠ .outside → (State.init n).at k = 0 := fun k hk =>
      tally_eq_zero.mpr fun _ h => hk h.symm
    refine .create rfl (Nat.zero_le n) (fun c => rfl) ⟨⟨?_, ?_⟩, hat _ nofun, rfl, rfl, fun c hc => ?_⟩
    · rw [hat .resetting nofun, hat .ready nofun]
      rfl
    · exact hat .ready nofun
    · rcases hc with hc | hc <;> cases hc

theorem Inv.step (h : Inv s) {es : List (Event n)} (hs : Step s es t) : Inv t := by
  cases hs with
  | main hs => exact h.main hs
  | consumer c hs => exact h.consumer (consumerStep_move hs)

end MyTests.MemoryOrder
