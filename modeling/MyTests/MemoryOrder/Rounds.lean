/-
MyTests/MemoryOrder/Rounds.lean

What a round looks like in the trace.  Every consumer runs through its script
once: it takes a token, resets both variables, acknowledges, takes the other
token, leaves its loop with 0xAA in `input`, checks, and acknowledges.  All
resets of a round precede the stores of `main`, and all tokens of the second
phase are posted before the first check.

Main result: the harness raises no alarm and cannot get stuck
(`no_false_alarm`).
-/
import MyTests.MemoryOrder.Invariant

namespace MyTests.MemoryOrder

open Lib

variable {n : ℕ} {s t : State n} {c d : Fin n} {es : List (Event n)}

/-! ### The script of a consumer -/

def Event.consumer? : Event n → Option (Fin n)
  | .takePrepare c | .resetInput c | .resetChanged c | .postPrepareDone c | .takeConsume c
  | .leaveWait c _ | .check c | .caught c | .postConsumeDone c => some c
  | .postPrepare | .takePrepareDone | .postConsume | .storeInput | .storeChanged
  | .takeConsumeDone | .roundEnd => none

def Event.isRoundEnd (e : Event n) : Bool := e = .roundEnd

/-- What `c` does in a round. -/
def script (c : Fin n) : List (Event n) :=
  [.takePrepare c, .resetInput c, .resetChanged c, .postPrepareDone c, .takeConsume c,
    .leaveWait c 0xAA, .check c, .postConsumeDone c]

/-- The events of `c`. -/
def own (c : Fin n) (seg : List (Event n)) : List (Event n) :=
  seg.filter fun e => e.consumer? = some c

/-- `main` has turned to the second phase. -/
def MainPc.tests : MainPc → Bool
  | .create _ | .postPrepare _ | .waitPrepareDone _ => false
  | .postConsume _ | .storeInput | .storeChanged | .waitConsumeDone _ | .count => true

/-- `main` has stored to `input` in this round. -/
def MainPc.stores : MainPc → Bool
  | .create _ | .postPrepare _ | .waitPrepareDone _ | .postConsume _ | .storeInput => false
  | .storeChanged | .waitConsumeDone _ | .count => true

/-- `main` has set `input_changed` in this round. -/
def MainPc.signals : MainPc → Bool
  | .create _ | .postPrepare _ | .waitPrepareDone _ | .postConsume _ | .storeInput
  | .storeChanged => false
  | .waitConsumeDone _ | .count => true

/-- How far `c` is in its script. -/
def State.progress (s : State n) (c : Fin n) : ℕ :=
  match s.pc c with
  | .unborn => 0
  | .waitPrepare => if s.main.tests then 8 else 0
  | .resetInput => 1
  | .resetChanged => 2
  | .postPrepareDone => 3
  | .waitConsume => 4
  | .sleep | .spin => 5
  | .check => 6
  | .report | .postConsumeDone => 7

/-! ### Order in a round -/

def Event.isReset : Event n → Bool
  | .resetInput _ | .resetChanged _ => true
  | _ => false

def Event.isStore : Event n → Bool
  | .storeInput | .storeChanged => true
  | _ => false

/-- `sem_post(&sem_consume)`. -/
def Event.isRelease : Event n → Bool
  | .postConsume => true
  | _ => false

def Event.isCheck : Event n → Bool
  | .leaveWait _ _ | .check _ | .caught _ => true
  | _ => false

/-- `e` may come before `f` in a round: resets precede stores, and releases
precede checks. -/
def Orderly (e f : Event n) : Prop :=
  ¬ (e.isStore ∧ f.isReset) ∧ ¬ (e.isCheck ∧ f.isRelease)

/-! ### Where a consumer can be -/

theorem Inv.resetting (h : Inv s) (hstage : (s.pc c).stage = .resetting) :
    s.main.stores = false := by
  have hne : ∀ {p k}, Testing s p k → False := fun ht => stage_ne ht.resetting_eq rfl hstage
  cases h.phase with
  | create hm => rw [hm]; rfl
  | postPrepare hm => rw [hm]; rfl
  | waitPrepareDone hm => rw [hm]; rfl
  | postConsume _ _ ht => exact (hne ht).elim
  | storeInput _ ht => exact (hne ht).elim
  | storeChanged _ ht => exact (hne ht).elim
  | waitConsumeDone _ _ ht => exact (hne ht).elim
  | count _ ht => exact (hne ht).elim

theorem Inv.tests_of_testing (h : Inv s) (hstage : (s.pc c).stage = .testing) :
    s.main.tests = true := by
  have hne : ∀ {p k}, Gathering s p k → False := fun hg => stage_ne hg.testing_eq rfl hstage
  cases h.phase with
  | create _ _ _ hg => exact (hne hg).elim
  | postPrepare _ _ hg => exact (hne hg).elim
  | waitPrepareDone _ _ hg => exact (hne hg).elim
  | postConsume hm => rw [hm]; rfl
  | storeInput hm => rw [hm]; rfl
  | storeChanged hm => rw [hm]; rfl
  | waitConsumeDone hm => rw [hm]; rfl
  | count hm => rw [hm]; rfl

/-- A token of the first phase is there in the first phase only. -/
theorem Inv.tests_of_token (h : Inv s) (hne : s.semPrepare ≠ 0) : s.main.tests = false := by
  cases h.phase with
  | create hm => rw [hm]; rfl
  | postPrepare hm => rw [hm]; rfl
  | waitPrepareDone hm => rw [hm]; rfl
  | postConsume _ _ ht => exact absurd ht.semPrepare_eq hne
  | storeInput _ ht => exact absurd ht.semPrepare_eq hne
  | storeChanged _ ht => exact absurd ht.semPrepare_eq hne
  | waitConsumeDone _ _ ht => exact absurd ht.semPrepare_eq hne
  | count _ ht => exact absurd ht.semPrepare_eq hne

/-- A consumer leaves its loop, and checks, only once `input_changed` is set, and
then `input` holds 0xAA. -/
theorem Inv.signals (h : Inv s) (hpc : s.pc c = .spin ∧ s.inputChanged ≠ 0 ∨ s.pc c = .check) :
    s.main.signals = true ∧ s.input = 0xAA := by
  have hstage : (s.pc c).stage = .testing := by
    rcases hpc with ⟨hpc, -⟩ | hpc <;> rw [hpc] <;> rfl
  have hgathering : ∀ {p k}, Gathering s p k → False := fun hg =>
    stage_ne hg.testing_eq rfl hstage
  have hunset : Unset s → False := fun hu => by
    rcases hpc with ⟨-, hne⟩ | hpc
    · exact hne (hu.eq_zero c)
    · exact (hu.waits c).1 hpc
  cases h.phase with
  | create _ _ _ hg => exact (hgathering hg).elim
  | postPrepare _ _ hg => exact (hgathering hg).elim
  | waitPrepareDone _ _ hg => exact (hgathering hg).elim
  | postConsume _ _ _ hu => exact (hunset hu).elim
  | storeInput _ _ hu => exact (hunset hu).elim
  | storeChanged _ _ hu => exact (hunset hu).elim
  | waitConsumeDone hm _ _ hinput => exact ⟨by rw [hm]; rfl, hinput⟩
  | count hm _ hinput => exact ⟨by rw [hm]; rfl, hinput⟩

/-- **A consumer follows its script.**  Its step is the next event of the script,
or none; resets come before the stores, and checks after `input_changed` is set. -/
theorem Inv.follows (h : Inv s) (hm : ConsumerMove c s es t) :
    (es = [] ∧ t.progress c = s.progress c) ∨
    ∃ e, es = [e] ∧ (script c)[s.progress c]? = some e ∧ t.progress c = s.progress c + 1 ∧
      e.consumer? = some c ∧ (e.isReset → s.main.stores = false) ∧
      (e.isCheck → s.main.signals = true) ∧ e.isRelease = false := by
  have hself : ∀ q, (s.goto c q).pc c = q := fun q => Function.update_self ..
  cases hm with
  | takePrepare hpc hne =>
      -- a token is there only in the first half of a round, so this is the first event
      refine Or.inr ⟨_, rfl, ?_, ?_, rfl, nofun, nofun, rfl⟩
      · simp [State.progress, hpc, h.tests_of_token hne, script]
      · simp [State.progress, hpc, h.tests_of_token hne, hself]
  | resetInput hpc =>
      have hstores := h.resetting (c := c) (by rw [hpc]; rfl)
      refine Or.inr ⟨_, rfl, ?_, ?_, rfl, fun _ => hstores, nofun, rfl⟩
      · simp [State.progress, hpc, script]
      · simp [State.progress, hpc, hself]
  | resetChanged hpc =>
      have hstores := h.resetting (c := c) (by rw [hpc]; rfl)
      refine Or.inr ⟨_, rfl, ?_, ?_, rfl, fun _ => hstores, nofun, rfl⟩
      · simp [State.progress, hpc, script]
      · simp [State.progress, hpc, hself]
  | postPrepareDone hpc =>
      refine Or.inr ⟨_, rfl, ?_, ?_, rfl, nofun, nofun, rfl⟩
      · simp [State.progress, hpc, script]
      · simp [State.progress, hpc, hself]
  | takeConsume hpc hne =>
      refine Or.inr ⟨_, rfl, ?_, ?_, rfl, nofun, nofun, rfl⟩
      · simp [State.progress, hpc, script]
      · simp [State.progress, hpc, hself]
  | sleep hpc =>
      refine Or.inl ⟨rfl, ?_⟩
      simp [State.progress, hpc, hself]
  | poll hpc => exact Or.inl ⟨rfl, rfl⟩
  | leaveWait hpc hne =>
      obtain ⟨hsignals, hinput⟩ := h.signals (c := c) (Or.inl ⟨hpc, hne⟩)
      refine Or.inr ⟨_, rfl, ?_, ?_, rfl, nofun, fun _ => hsignals, rfl⟩
      · simp [State.progress, hpc, script, hinput]
      · simp [State.progress, hpc, hself]
  | alarm hpc heq =>
      -- behind the wait `input` is 0xAA
      have hinput := (h.signals (c := c) (Or.inr hpc)).2
      exact absurd (heq.symm.trans hinput) (by decide)
  | check hpc =>
      obtain ⟨hsignals, -⟩ := h.signals (c := c) (Or.inr hpc)
      refine Or.inr ⟨_, rfl, ?_, ?_, rfl, nofun, fun _ => hsignals, rfl⟩
      · simp [State.progress, hpc, script]
      · simp [State.progress, hpc, hself]
  | report hpc => exact absurd hpc (h.report_ne c)
  | postConsumeDone hpc =>
      have htests := h.tests_of_testing (c := c) (by rw [hpc]; rfl)
      refine Or.inr ⟨_, rfl, ?_, ?_, rfl, nofun, nofun, rfl⟩
      · simp [State.progress, hpc, script]
      · have hmain : (s.goto c .waitPrepare).main.tests = true := htests
        simp [State.progress, hpc, hself, hmain]

theorem progress_of_ne (hm : ConsumerMove c s es t) (hdc : d ≠ c) : t.progress d = s.progress d := by
  obtain ⟨q, hq, -⟩ := hm.pc_eq
  have hpc : t.pc d = s.pc d := by rw [hq, Function.update_of_ne hdc]
  unfold State.progress
  rw [hpc, hm.main_eq]

/-! ### The invariant of the trace -/

/-- The complete rounds and the current one, when the system is in `s`. -/
structure Traced (segs : List (List (Event n)) × List (Event n)) (s : State n) : Prop where
  own_eq : ∀ c, own c segs.2 = (script c).take (s.progress c)
  no_store : s.main.stores = false → ∀ e ∈ segs.2, e.isStore = false
  no_check : s.main.signals = false → ∀ e ∈ segs.2, e.isCheck = false
  orderly : segs.2.Pairwise Orderly
  complete : ∀ r ∈ segs.1, (∀ c, own c r = script c) ∧ r.Pairwise Orderly

variable {segs : List (List (Event n)) × List (Event n)}

/-- A step without an event. -/
theorem Traced.quiet (h : Traced segs s) (hprogress : ∀ c, t.progress c = s.progress c)
    (hstores : t.main.stores = false → s.main.stores = false)
    (hsignals : t.main.signals = false → s.main.signals = false) : Traced segs t where
  own_eq := fun c => by rw [hprogress, h.own_eq]
  no_store := fun hno => h.no_store (hstores hno)
  no_check := fun hno => h.no_check (hsignals hno)
  orderly := h.orderly
  complete := h.complete

/-- A step with an event, which may be the next of a script. -/
theorem Traced.event (h : Traced segs s) {e : Event n}
    (hown : ∀ c, (e.consumer? = some c ∧ (script c)[s.progress c]? = some e ∧
        t.progress c = s.progress c + 1) ∨ (e.consumer? ≠ some c ∧ t.progress c = s.progress c))
    (hstores : t.main.stores = false → s.main.stores = false ∧ e.isStore = false)
    (hsignals : t.main.signals = false → s.main.signals = false ∧ e.isCheck = false)
    (hreset : e.isReset → s.main.stores = false) (hrelease : e.isRelease → s.main.signals = false) :
    Traced (segs.1, segs.2 ++ [e]) t where
  own_eq := fun c => by
    unfold own
    rw [List.filter_append]
    obtain ⟨hc, hscript, hprogress⟩ | ⟨hc, hprogress⟩ := hown c
    · rw [hprogress, List.take_add_one, hscript, ← h.own_eq c]
      simp [hc, own]
    · rw [hprogress, ← h.own_eq c]
      simp [hc, own]
  no_store := fun hno f hf => by
    rcases List.mem_append.mp hf with hf | hf
    · exact h.no_store (hstores hno).1 f hf
    · obtain rfl := List.mem_singleton.mp hf
      exact (hstores hno).2
  no_check := fun hno f hf => by
    rcases List.mem_append.mp hf with hf | hf
    · exact h.no_check (hsignals hno).1 f hf
    · obtain rfl := List.mem_singleton.mp hf
      exact (hsignals hno).2
  orderly := by
    -- a reset after a store, or a release after a check, would be the new event
    refine List.pairwise_append.mpr ⟨h.orderly, List.pairwise_singleton .., fun f hf e' he' => ?_⟩
    obtain rfl := List.mem_singleton.mp he'
    refine ⟨fun ⟨hstore, hr⟩ => ?_, fun ⟨hcheck, hr⟩ => ?_⟩
    · rw [h.no_store (hreset hr) f hf] at hstore
      cases hstore
    · rw [h.no_check (hrelease hr) f hf] at hcheck
      cases hcheck
  complete := h.complete

/-- The end of a round. -/
theorem Traced.close (h : Traced segs s) (hdone : ∀ c, s.progress c = 8)
    (hnew : ∀ c, t.progress c = 0) : Traced (segs.1 ++ [segs.2], []) t where
  own_eq := fun c => by
    rw [hnew]
    rfl
  no_store := nofun
  no_check := nofun
  orderly := List.Pairwise.nil
  complete := fun r hr => by
    rcases List.mem_append.mp hr with hr | hr
    · exact h.complete r hr
    · obtain rfl := List.mem_singleton.mp hr
      refine ⟨fun c => ?_, h.orderly⟩
      rw [h.own_eq, hdone]
      rfl

theorem Traced.consumer (hi : Inv s) (h : Traced segs s) (hm : ConsumerMove c s es t) :
    Traced (es.foldl (extend Event.isRoundEnd) segs) t := by
  have hmain := hm.main_eq
  obtain ⟨rfl, hprogress⟩ | ⟨e, rfl, hscript, hprogress, hec, hreset, hsignals, hrelease⟩ :=
    hi.follows hm
  · refine h.quiet (fun d => ?_) (fun hno => hmain ▸ hno) (fun hno => hmain ▸ hno)
    by_cases hdc : d = c
    · exact hdc ▸ hprogress
    · exact progress_of_ne hm hdc
  · have hend : e.isRoundEnd = false ∧ e.isStore = false := by
      cases e <;> first | exact ⟨rfl, rfl⟩ | cases hec
    show Traced (extend Event.isRoundEnd segs e) t
    rw [extend, if_neg (by rw [hend.1]; exact Bool.false_ne_true)]
    refine h.event (fun d => ?_) (fun hno => ⟨hmain ▸ hno, hend.2⟩) (fun hno => ⟨hmain ▸ hno, ?_⟩)
      hreset (fun hr => by rw [hrelease] at hr; cases hr)
    · by_cases hdc : d = c
      · subst hdc
        exact Or.inl ⟨hec, hscript, hprogress⟩
      · exact Or.inr ⟨fun hed => hdc (Option.some.inj (hed.symm.trans hec)), progress_of_ne hm hdc⟩
    · by_contra hcheck
      -- it checks after it has seen the flag, which `main` has set in this round
      have hset := hsignals (by simpa using hcheck)
      rw [hmain, hset] at hno
      cases hno

/-- A step of `main` leaves the consumers where they are in their scripts, except
at the end of a round. -/
theorem Traced.main (hi : Inv s) (h : Traced segs s) (hs : mainStep s = some (es, t)) :
    Traced (es.foldl (extend Event.isRoundEnd) segs) t := by
  -- the phase does not change, nor does a consumer move
  have hsame : t.pc = s.pc → t.main.tests = s.main.tests → ∀ c, t.progress c = s.progress c := by
    intro hpc htests c
    unfold State.progress
    rw [hpc, htests]
  have hnone : ∀ {e : Event n}, e.consumer? = none → (∀ c, t.progress c = s.progress c) →
      ∀ c, (e.consumer? = some c ∧ (script c)[s.progress c]? = some e ∧
        t.progress c = s.progress c + 1) ∨ (e.consumer? ≠ some c ∧ t.progress c = s.progress c) :=
    fun he hprogress c => Or.inr ⟨by rw [he]; nofun, hprogress c⟩
  have hmove := mainStep_move hs
  cases hi.phase with
  | @create i hm hle hpcs hg =>
      rw [hm] at hmove
      cases hmove with
      | create hlt =>
          -- unborn and before its first wait, a consumer has done nothing
          refine h.quiet (fun c => ?_) (fun _ => by rw [hm]; rfl) (fun _ => by rw [hm]; rfl)
          unfold State.progress
          by_cases hc : c = ⟨i, hlt⟩
          · subst hc
            simp [State.goto, hpcs, MainPc.tests]
          · simp [State.goto, Function.update_of_ne hc, hm, MainPc.tests]
      | created hge =>
          exact h.quiet (hsame rfl (by rw [hm]; rfl)) (fun _ => by rw [hm]; rfl)
            (fun _ => by rw [hm]; rfl)
  | postPrepare hm =>
      rw [hm] at hmove
      cases hmove with
      | postPrepare hlt =>
          exact h.event (hnone rfl (hsame rfl (by rw [hm]; rfl))) (fun _ => ⟨by rw [hm]; rfl, rfl⟩)
            (fun _ => ⟨by rw [hm]; rfl, rfl⟩) nofun nofun
      | allPrepared hge =>
          exact h.quiet (hsame rfl (by rw [hm]; rfl)) (fun _ => by rw [hm]; rfl)
            (fun _ => by rw [hm]; rfl)
  | waitPrepareDone hm hle hg =>
      rw [hm] at hmove
      cases hmove with
      | takePrepareDone hlt hne =>
          exact h.event (hnone rfl (hsame rfl (by rw [hm]; rfl))) (fun _ => ⟨by rw [hm]; rfl, rfl⟩)
            (fun _ => ⟨by rw [hm]; rfl, rfl⟩) nofun nofun
      | prepareDone hge =>
          -- the phase changes while every consumer is in the middle of its script
          obtain rfl := Nat.le_antisymm hle (Nat.le_of_not_lt hge)
          refine h.quiet (fun c => ?_) (fun _ => by rw [hm]; rfl) (fun _ => by rw [hm]; rfl)
          unfold State.progress
          simp [hg.all_ready c]
  | postConsume hm =>
      rw [hm] at hmove
      cases hmove with
      | postConsume hlt =>
          exact h.event (hnone rfl (hsame rfl (by rw [hm]; rfl))) (fun _ => ⟨by rw [hm]; rfl, rfl⟩)
            (fun _ => ⟨by rw [hm]; rfl, rfl⟩) nofun (fun _ => by rw [hm]; rfl)
      | allReleased hge =>
          exact h.quiet (hsame rfl (by rw [hm]; rfl)) (fun _ => by rw [hm]; rfl)
            (fun _ => by rw [hm]; rfl)
  | storeInput hm =>
      rw [hm] at hmove
      cases hmove
      exact h.event (hnone rfl (hsame rfl (by rw [hm]; rfl))) nofun
        (fun _ => ⟨by rw [hm]; rfl, rfl⟩) nofun nofun
  | storeChanged hm =>
      rw [hm] at hmove
      cases hmove
      exact h.event (hnone rfl (hsame rfl (by rw [hm]; rfl))) nofun nofun nofun nofun
  | waitConsumeDone hm =>
      rw [hm] at hmove
      cases hmove with
      | takeConsumeDone hlt hne =>
          exact h.event (hnone rfl (hsame rfl (by rw [hm]; rfl))) nofun nofun nofun nofun
      | consumeDone hge => exact h.quiet (hsame rfl (by rw [hm]; rfl)) nofun nofun
  | count hm ht =>
      rw [hm] at hmove
      cases hmove
      have hpc : ∀ c, s.pc c = .waitPrepare := by
        intro c
        have hstage := ht.all_outside c
        cases hc : s.pc c with
        | waitPrepare => rfl
        | unborn =>
            obtain ⟨i, hcreate, -⟩ := hi.born c hc
            rw [hm] at hcreate
            cases hcreate
        | _ =>
            rw [hc] at hstage
            cases hstage
      -- behind its last post every consumer has ended its script, and is to begin it anew
      refine h.close (fun c => ?_) (fun c => ?_)
      · simp [State.progress, hpc c, hm, MainPc.tests]
      · simp [State.progress, hpc c, MainPc.tests]

theorem traced_of_run (h : Run Step (State.init n) es s) :
    Inv s ∧ Traced (segments Event.isRoundEnd es) s := by
  refine Run.invariant (I := fun es s => Inv s ∧ Traced (segments Event.isRoundEnd es) s)
    ⟨Inv.init n, fun _ => rfl, nofun, nofun, List.Pairwise.nil, nofun⟩ ?_ h
  rintro old s e t ⟨hi, ht⟩ hs
  refine ⟨hi.step hs, ?_⟩
  have hfold : segments Event.isRoundEnd (old ++ e)
      = e.foldl (extend Event.isRoundEnd) (segments Event.isRoundEnd old) := List.foldl_append
  rw [hfold]
  cases hs with
  | main hs => exact ht.main hi hs
  | consumer c hs => exact ht.consumer hi (consumerStep_move hs)

/-! ### No thread is stuck -/

/-- A consumer is blocked at a semaphore only, once it runs. -/
theorem blocked_cases (hblocked : consumerStep c s = none) :
    s.pc c = .unborn ∨ s.pc c = .waitPrepare ∧ s.semPrepare = 0 ∨
      s.pc c = .waitConsume ∧ s.semConsume = 0 := by
  unfold consumerStep at hblocked
  cases hpc : s.pc c with
  | unborn => exact Or.inl rfl
  | waitPrepare =>
      simp only [hpc] at hblocked
      split at hblocked
      · exact Or.inr (Or.inl ⟨rfl, ‹_›⟩)
      · cases hblocked
  | waitConsume =>
      simp only [hpc] at hblocked
      split at hblocked
      · exact Or.inr (Or.inr ⟨rfl, ‹_›⟩)
      · cases hblocked
  | spin =>
      simp only [hpc] at hblocked
      split at hblocked <;> cases hblocked
  | check =>
      simp only [hpc] at hblocked
      split at hblocked <;> cases hblocked
  | _ => simp [hpc] at hblocked

/-- When all consumers are blocked, none is at work. -/
theorem at_eq_zero_of_blocked (hblocked : ∀ c, consumerStep c s = none) :
    s.at .resetting = 0 ∧ s.at .testing = 0 := by
  have hstage : ∀ c, (s.pc c).stage = .outside ∨ (s.pc c).stage = .ready := by
    intro c
    obtain hpc | ⟨hpc, -⟩ | ⟨hpc, -⟩ := blocked_cases (hblocked c) <;> rw [hpc]
    · exact Or.inl rfl
    · exact Or.inl rfl
    · exact Or.inr rfl
  constructor <;> refine tally_eq_zero.mpr fun c hc => ?_ <;>
    rcases hstage c with h | h <;> cases h.symm.trans hc

/-- `main` is blocked only while it collects acknowledgements. -/
theorem main_blocked_cases (hblocked : mainStep s = none) :
    (∃ i, s.main = .waitPrepareDone i ∧ i < n ∧ s.semPrepareDone = 0) ∨
      ∃ i, s.main = .waitConsumeDone i ∧ i < n ∧ s.semConsumeDone = 0 := by
  unfold mainStep at hblocked
  cases hm : s.main with
  | waitPrepareDone i =>
      simp only [hm] at hblocked
      split at hblocked
      · split at hblocked
        · exact Or.inl ⟨i, rfl, ‹_›, ‹_›⟩
        · cases hblocked
      · cases hblocked
  | waitConsumeDone i =>
      simp only [hm] at hblocked
      split at hblocked
      · split at hblocked
        · exact Or.inr ⟨i, rfl, ‹_›, ‹_›⟩
        · cases hblocked
      · cases hblocked
  | create i | postPrepare i | postConsume i =>
      simp only [hm] at hblocked
      split at hblocked <;> cases hblocked
  | storeInput | storeChanged | count => simp [hm] at hblocked

theorem Phase.of_waitPrepareDone (h : Phase s) {i : ℕ} (hm : s.main = .waitPrepareDone i) :
    Gathering s n i := by
  cases h with
  | waitPrepareDone hm' _ hg =>
      cases hm.symm.trans hm'
      exact hg
  | create hm' | postPrepare hm' | postConsume hm' | storeInput hm' | storeChanged hm'
  | waitConsumeDone hm' | count hm' => cases hm.symm.trans hm'

theorem Phase.of_waitConsumeDone (h : Phase s) {i : ℕ} (hm : s.main = .waitConsumeDone i) :
    Testing s n i := by
  cases h with
  | waitConsumeDone hm' _ ht =>
      cases hm.symm.trans hm'
      exact ht
  | create hm' | postPrepare hm' | waitPrepareDone hm' | postConsume hm' | storeInput hm'
  | storeChanged hm' | count hm' => cases hm.symm.trans hm'

/-- While `main` waits for an acknowledgement, some consumer can go on. -/
theorem Inv.not_stuck (h : Inv s) (hmain : mainStep s = none)
    (hblocked : ∀ c, consumerStep c s = none) : False := by
  obtain ⟨hresetting, htesting⟩ := at_eq_zero_of_blocked hblocked
  have hsum := s.sum_at
  obtain ⟨i, hm, hlt, hsem⟩ | ⟨i, hm, hlt, hsem⟩ := main_blocked_cases hmain
  · -- a token of the first phase is left, for a consumer that is outside
    have hr := (h.phase.of_waitPrepareDone hm).rendezvous
    rw [hsem] at hr
    have hlate := hr.exists_late hlt
    have hposted := hr.posted_eq
    have houtside : 0 < s.at .outside := by omega
    obtain ⟨c, hc⟩ := exists_of_tally_pos houtside
    -- it is not blocked: the token is there
    obtain hpc | ⟨-, hzero⟩ | ⟨hpc, -⟩ := blocked_cases (hblocked c)
    · obtain ⟨j, hj, -⟩ := h.born c hpc
      rw [hm] at hj
      cases hj
    · omega
    · rw [hpc] at hc
      cases hc
  · -- a token of the second phase is left, for a consumer that is ready
    have hr := (h.phase.of_waitConsumeDone hm).rendezvous
    rw [hsem] at hr
    have hlate := hr.exists_late hlt
    have hposted := hr.posted_eq
    have hready : 0 < s.at .ready := by omega
    obtain ⟨c, hc⟩ := exists_of_tally_pos hready
    obtain hpc | ⟨hpc, -⟩ | ⟨-, hzero⟩ := blocked_cases (hblocked c)
    · rw [hpc] at hc
      cases hc
    · rw [hpc] at hc
      cases hc
    · omega

/-! ### The main result -/

/-- The events of a consumer are among those of its script. -/
theorem mem_script_of_mem {seg : List (Event n)} {e : Event n} (hown : own c seg <+: script c)
    (he : e ∈ seg) (hc : e.consumer? = some c) : e ∈ script c :=
  hown.subset (List.mem_filter.mpr ⟨he, decide_eq_true hc⟩)

/-- **No false alarm.**  In every run of the harness, with any number of
consumers: `caught` stays 0; every consumer that leaves its loop finds 0xAA in
`input`; in every complete round each consumer runs through its script exactly
once, and in the current one through a part of it; the resets of a round precede
its stores, and the releases its checks; and `main` and the consumers are never
all blocked. -/
theorem no_false_alarm (hrun : Run Step (State.init n) es s) :
    s.caught = 0 ∧ (∀ c, Event.caught c ∉ es) ∧
      (∀ c v, Event.leaveWait c v ∈ es → v = 0xAA) ∧
      (∀ r ∈ (segments Event.isRoundEnd es).1, ∀ c, own c r = script c) ∧
      (∀ c, own c (segments Event.isRoundEnd es).2 <+: script c) ∧
      (∀ r ∈ (segments Event.isRoundEnd es).1 ++ [(segments Event.isRoundEnd es).2],
        r.Pairwise Orderly) ∧
      ¬ (mainStep s = none ∧ ∀ c, consumerStep c s = none) := by
  obtain ⟨hi, htraced⟩ := traced_of_run hrun
  have hcurrent : ∀ c, own c (segments Event.isRoundEnd es).2 <+: script c := fun c => by
    rw [htraced.own_eq]
    exact List.take_prefix ..
  -- every event but the marks is in one of the rounds
  have hscript : ∀ {e : Event n} {c}, e ∈ es → e.consumer? = some c → e ∈ script c := by
    intro e c he hc
    have hend : e.isRoundEnd = false := by
      cases e <;> first | rfl | cases hc
    have hmem : e ∈ (segments Event.isRoundEnd es).1.flatten ++ (segments Event.isRoundEnd es).2 := by
      rw [flatten_segments]
      exact List.mem_filter.mpr ⟨he, by rw [hend]; rfl⟩
    rcases List.mem_append.mp hmem with hmem | hmem
    · obtain ⟨r, hr, her⟩ := List.mem_flatten.mp hmem
      exact mem_script_of_mem ((htraced.complete r hr).1 c ▸ List.prefix_rfl) her hc
    · exact mem_script_of_mem (hcurrent c) hmem hc
  refine ⟨hi.caught_eq, fun c he => ?_, fun c v he => ?_, fun r hr => (htraced.complete r hr).1,
    hcurrent, fun r hr => ?_, fun h => hi.not_stuck h.1 h.2⟩
  · have h := hscript he rfl
    simp [script] at h
  · have h := hscript he rfl
    simpa [script] using h
  · rcases List.mem_append.mp hr with hr | hr
    · exact (htraced.complete r hr).2
    · obtain rfl := List.mem_singleton.mp hr
      exact htraced.orderly

/-- The next step of a thread, `none` for `main`. -/
def threadStep (thread : Option (Fin n)) (s : State n) : Option (List (Event n) × State n) :=
  thread.elim (mainStep s) fun c => consumerStep c s

theorem step_of_threadStep (thread : Option (Fin n)) (s : State n) (es : List (Event n))
    (t : State n) (h : threadStep thread s = some (es, t)) : Step s es t := by
  cases thread with
  | none => exact .main h
  | some c => exact .consumer c h

/-- A round with two consumers, one of which has left its loop and checked before the other
leaves its own, and the beginning of the next. -/
theorem no_false_alarm_twoConsumers : ∃ es s, Run Step (State.init 2) es s
    ∧ s.cnt = 1 ∧ s.semPrepare = 1 ∧ s.caught = 0 ∧ ∀ c, Event.caught c ∉ es := by
  let m : Option (Fin 2) := none
  let a : Option (Fin 2) := some 0
  let b : Option (Fin 2) := some 1
  obtain ⟨es, s, hrun, hgood⟩ := exists_run_of_schedule step_of_threadStep (s := State.init 2)
    [m, m, m, m, m, b, b, m, a, b, b, a, a, m, a, m, m, m, b, b, b, m, a, m, b, m, a, m, a, a, a, m,
      b, b, b, m, m, m, m]
    (fun _ s => decide (s.cnt = 1 ∧ s.semPrepare = 1)) (by decide +kernel)
  obtain ⟨hcnt, hprepare⟩ := of_decide_eq_true hgood
  obtain ⟨hcaught, hnone, -⟩ := no_false_alarm hrun
  exact ⟨es, s, hrun, hcnt, hprepare, hcaught, hnone⟩

end MyTests.MemoryOrder
