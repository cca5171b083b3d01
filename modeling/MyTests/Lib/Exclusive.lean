/-
MyTests/Lib/Exclusive.lean

One word of memory that threads change with exclusive loads and stores.  A load
exclusive arms the monitor of the thread, any store to the word clears all
monitors, and a store exclusive fails unless the monitor is still armed; it may
fail without a reason as well.  Instructions that read and write at once are
there too.

A routine is a list of such instructions.  `Outline` is a proof outline of one
routine, against the function that it is to apply to the word: what holds of
the registers at each place before the routine has taken effect, with the value
that was loaded last, and after it.  Whatever the threads do in between, the
word can differ from that value only when the monitor is gone.

The main result is `linearizable`: when every routine has an outline, the calls
and returns of any number of threads are those of a system in which every call
is one step.

`Outline.ofWp` makes an outline of weakest preconditions, for a routine whose
branches lead back to one place or to the end.
-/
import MyTests.Lib.Transition

namespace MyTests.Lib

variable {T M R C A : Type*}

/-! ### Routines -/

inductive Instr (M R : Type*) where
  /-- load exclusive -/
  | load (f : M → R → R)
  | comp (f : R → R)
  /-- store exclusive; `status` is told whether it has failed -/
  | store (g : R → M) (status : Bool → R → R)
  | branch (p : R → Bool) (target : ℕ)
  /-- one instruction that reads, and may write -/
  | rmw (f : M → R → Option M × R)

structure Routine (M R A : Type*) where
  code : List (Instr M R)
  args : R
  result : R → A

/-- A call that is being carried out. -/
structure Frame (C R : Type*) where
  call : C
  pc : ℕ
  regs : R

structure Config (T M C R : Type*) where
  mem : M
  monitor : T → Bool
  thread : T → Option (Frame C R)

/-- What the callers see. -/
inductive CallEvent (T C A : Type*) where
  | call (t : T) (c : C)
  | ret (t : T) (a : A)

variable [DecidableEq T]

def Config.goto (s : Config T M C R) (t : T) (f : Frame C R) (pc : ℕ) (regs : R) :
    Config T M C R :=
  { s with thread := Function.update s.thread t (some ⟨f.call, pc, regs⟩) }

/-- A store to the word clears every monitor. -/
def Config.write (s : Config T M C R) (m : M) : Config T M C R :=
  { s with mem := m, monitor := fun _ => false }

def Config.setMonitor (s : Config T M C R) (t : T) (b : Bool) : Config T M C R :=
  { s with monitor := Function.update s.monitor t b }

/-- One instruction of the thread `t`.  A store exclusive succeeds when `ok` says so. -/
def Config.exec (routine : C → Routine M R A) (t : T) (ok : Bool) (s : Config T M C R) :
    Option (Config T M C R) :=
  match s.thread t with
  | none => none
  | some f =>
      match (routine f.call).code[f.pc]? with
      | none => none
      | some (.load g) => some ((s.setMonitor t true).goto t f (f.pc + 1) (g s.mem f.regs))
      | some (.comp g) => some (s.goto t f (f.pc + 1) (g f.regs))
      | some (.store g status) =>
          if ok then
            if s.monitor t then
              some ((s.write (g f.regs)).goto t f (f.pc + 1) (status false f.regs))
            else none
          else some ((s.setMonitor t false).goto t f (f.pc + 1) (status true f.regs))
      | some (.branch p target) =>
          some (s.goto t f (if p f.regs then target else f.pc + 1) f.regs)
      | some (.rmw g) =>
          match (g s.mem f.regs).1 with
          | none => some (s.goto t f (f.pc + 1) (g s.mem f.regs).2)
          | some m => some ((s.write m).goto t f (f.pc + 1) (g s.mem f.regs).2)

inductive ConfigStep (routine : C → Routine M R A) (s : Config T M C R) :
    List (CallEvent T C A) → Config T M C R → Prop
  | call {t} (c : C) : s.thread t = none →
      ConfigStep routine s [.call t c]
        { s with thread := Function.update s.thread t (some ⟨c, 0, (routine c).args⟩) }
  | exec {t ok s'} : s.exec routine t ok = some s' → ConfigStep routine s [] s'
  | ret {t f} : s.thread t = some f → f.pc = (routine f.call).code.length →
      ConfigStep routine s [.ret t ((routine f.call).result f.regs)]
        { s with thread := Function.update s.thread t none }

/-- Nobody has called anything. -/
def Config.init (m : M) : Config T M C R := ⟨m, fun _ => false, fun _ => none⟩

/-- Whose turn it is, and for what. -/
inductive Turn (T C : Type*) where
  | call (t : T) (c : C)
  | exec (t : T) (ok : Bool)
  | ret (t : T)

/-- A turn, computed. -/
def Config.act (routine : C → Routine M R A) (a : Turn T C) (s : Config T M C R) :
    Option (List (CallEvent T C A) × Config T M C R) :=
  match a with
  | .call t c =>
      if (s.thread t).isNone then
        some ([.call t c],
          { s with thread := Function.update s.thread t (some ⟨c, 0, (routine c).args⟩) })
      else none
  | .exec t ok => (s.exec routine t ok).map fun s' => ([], s')
  | .ret t =>
      match s.thread t with
      | none => none
      | some f =>
          if f.pc = (routine f.call).code.length then
            some ([.ret t ((routine f.call).result f.regs)],
              { s with thread := Function.update s.thread t none })
          else none

theorem ConfigStep.of_act (routine : C → Routine M R A) (a : Turn T C) (s : Config T M C R)
    (e : List (CallEvent T C A)) (s' : Config T M C R) (h : s.act routine a = some (e, s')) :
    ConfigStep routine s e s' := by
  cases a with
  | call t c =>
      simp only [Config.act] at h
      split at h
      · rename_i hidle
        obtain ⟨rfl, rfl⟩ := Prod.mk.inj (Option.some.inj h)
        exact .call c (Option.isNone_iff_eq_none.mp hidle)
      · cases h
  | exec t ok =>
      obtain ⟨u, hu, heq⟩ := Option.map_eq_some_iff.mp h
      obtain ⟨rfl, rfl⟩ := Prod.mk.inj heq
      exact .exec hu
  | ret t =>
      simp only [Config.act] at h
      split at h
      · cases h
      · split at h
        · rename_i hf hpc
          obtain ⟨rfl, rfl⟩ := Prod.mk.inj (Option.some.inj h)
          exact .ret hf hpc
        · cases h

/-! ### Calls in one step -/

inductive Status (C A : Type*) where
  | idle
  | pending (c : C)
  | done (c : C) (a : A)

structure Atomic (T M C A : Type*) where
  mem : M
  status : T → Status C A

/-- A call takes effect in one step, some time between its beginning and its end. -/
inductive AtomicStep (apply : C → M → M × A) (s : Atomic T M C A) :
    List (CallEvent T C A) → Atomic T M C A → Prop
  | call {t} (c : C) : s.status t = .idle →
      AtomicStep apply s [.call t c]
        { s with status := Function.update s.status t (.pending c) }
  | apply {t c} : s.status t = .pending c →
      AtomicStep apply s []
        ⟨(apply c s.mem).1, Function.update s.status t (.done c (apply c s.mem).2)⟩
  | ret {t c a} : s.status t = .done c a →
      AtomicStep apply s [.ret t a] { s with status := Function.update s.status t .idle }

def Atomic.init (m : M) : Atomic T M C A := ⟨m, fun _ => .idle⟩

/-! ### Outlines -/

/-- What an instruction has to do to what holds before it: `pend pc v r` before the routine
has taken effect, with `v` loaded, and `fin pc a r` after it, with `a` to be returned. -/
def Sound (apply : M → M × A) (pend : ℕ → Option M → R → Prop) (fin : ℕ → A → R → Prop)
    (pc : ℕ) : Instr M R → Prop
  | .load f =>
      (∀ v r m, pend pc v r → pend (pc + 1) (some m) (f m r) ∨
        (apply m).1 = m ∧ fin (pc + 1) (apply m).2 (f m r)) ∧ ∀ a r, ¬ fin pc a r
  | .comp f =>
      (∀ v r, pend pc v r → pend (pc + 1) v (f r)) ∧ ∀ a r, fin pc a r → fin (pc + 1) a (f r)
  | .store g status =>
      (∀ v r, pend pc v r → pend (pc + 1) none (status true r) ∧
        ∃ m, v = some m ∧ (apply m).1 = g r ∧ fin (pc + 1) (apply m).2 (status false r)) ∧
        ∀ a r, ¬ fin pc a r
  | .branch p target =>
      (∀ v r, pend pc v r → pend (if p r then target else pc + 1) v r) ∧
        ∀ a r, fin pc a r → fin (if p r then target else pc + 1) a r
  | .rmw f =>
      (∀ v r m, pend pc v r →
        (apply m).1 = (f m r).1.getD m ∧ fin (pc + 1) (apply m).2 (f m r).2) ∧
        ∀ a r, ¬ fin pc a r

/-- A proof outline of a routine that is to apply `apply` to the word. -/
structure Outline (routine : Routine M R A) (apply : M → M × A) where
  pend : ℕ → Option M → R → Prop
  fin : ℕ → A → R → Prop
  entry : pend 0 none routine.args
  sound : ∀ pc i, routine.code[pc]? = some i → Sound apply pend fin pc i
  exit_pend : ∀ v r, ¬ pend routine.code.length v r
  exit_fin : ∀ a r, fin routine.code.length a r → routine.result r = a

variable {routine : C → Routine M R A} {apply : C → M → M × A}

/-- A thread and what it is in the system of single steps. -/
inductive Linked (o : ∀ c, Outline (routine c) (apply c)) (mem : M) (armed : Bool) :
    Option (Frame C R) → Status C A → Prop
  | idle : Linked o mem armed none .idle
  | pending {f v} : (o f.call).pend f.pc v f.regs → (∀ m, v = some m → armed = true → mem = m) →
      Linked o mem armed (some f) (.pending f.call)
  | done {f a} : (o f.call).fin f.pc a f.regs → Linked o mem armed (some f) (.done f.call a)

variable {o : ∀ c, Outline (routine c) (apply c)} {mem mem' : M} {armed armed' : Bool}
  {x y : Option (Frame C R)} {z w : Status C A} {s s' : Config T M C R} {u u' : Atomic T M C A}
  {t : T} {f : Frame C R}

/-- The word changes only together with the monitor. -/
theorem Linked.mono (h : Linked o mem armed x z)
    (hkeep : armed' = true → armed = true ∧ mem' = mem) : Linked o mem' armed' x z := by
  cases h with
  | idle => exact .idle
  | pending hp hv =>
      refine .pending hp fun m hm harmed => ?_
      obtain ⟨ha, rfl⟩ := hkeep harmed
      exact hv m hm ha
  | done hf => exact .done hf

/-- Before or after the effect. -/
theorem Linked.cases_some (h : Linked o mem armed (some f) z) :
    (z = .pending f.call ∧ ∃ v, (o f.call).pend f.pc v f.regs ∧
      ∀ m, v = some m → armed = true → mem = m) ∨
    ∃ a, z = .done f.call a ∧ (o f.call).fin f.pc a f.regs := by
  cases h with
  | pending hp hv => exact .inl ⟨rfl, _, hp, hv⟩
  | done hd => exact .inr ⟨_, rfl, hd⟩

/-- The two systems have the same word, and every thread is linked. -/
def Refines (o : ∀ c, Outline (routine c) (apply c)) (s : Config T M C R) (u : Atomic T M C A) :
    Prop :=
  u.mem = s.mem ∧ ∀ t, Linked o s.mem (s.monitor t) (s.thread t) (u.status t)

/-- One thread moves on, and the others keep their links. -/
theorem Refines.update (h : Refines o s u)
    (hthread : s'.thread = Function.update s.thread t x) (hmem : u'.mem = s'.mem)
    (hstatus : u'.status = Function.update u.status t z)
    (hkeep : ∀ r, r ≠ t → s'.monitor r = true → s.monitor r = true ∧ s'.mem = s.mem)
    (hlink : Linked o s'.mem (s'.monitor t) x z) : Refines o s' u' := by
  refine ⟨hmem, fun r => ?_⟩
  rw [hthread, hstatus]
  by_cases hr : r = t
  · subst hr
    rwa [Function.update_self, Function.update_self]
  · rw [Function.update_of_ne hr, Function.update_of_ne hr]
    exact (h.2 r).mono (hkeep r hr)

/-- A step that the callers cannot tell from rest. -/
theorem Refines.stutter (h : Refines o s u) (hthread : s'.thread = Function.update s.thread t x)
    (hmem : s'.mem = s.mem)
    (hkeep : ∀ r, r ≠ t → s'.monitor r = true → s.monitor r = true)
    (hlink : Linked o s'.mem (s'.monitor t) x (u.status t)) : Refines o s' u :=
  h.update hthread (h.1.trans hmem.symm) (Function.update_eq_self t u.status).symm
    (fun r hr hm => ⟨hkeep r hr hm, hmem⟩) hlink

/-- The step in which a call takes effect. -/
theorem Refines.commit {c : C} (h : Refines o s u) (hstatus : u.status t = .pending c)
    (hthread : s'.thread = Function.update s.thread t x) (hmem : (apply c s.mem).1 = s'.mem)
    (hkeep : ∀ r, r ≠ t → s'.monitor r = true → s.monitor r = true ∧ s'.mem = s.mem)
    (hlink : Linked o s'.mem (s'.monitor t) x (.done c (apply c s.mem).2)) :
    ∃ u', Run (AtomicStep apply) u [] u' ∧ Refines o s' u' := by
  refine ⟨_, Run.single (.apply hstatus), h.update hthread ?_ ?_ hkeep hlink⟩
  · rw [h.1]
    exact hmem
  · rw [h.1]

theorem Refines.load {g : M → R → R} (h : Refines o s u) (hf : s.thread t = some f)
    (hi : (routine f.call).code[f.pc]? = some (.load g)) :
    ∃ u', Run (AtomicStep apply) u [] u' ∧
      Refines o ((s.setMonitor t true).goto t f (f.pc + 1) (g s.mem f.regs)) u' := by
  obtain ⟨hpend, hfin⟩ := (o f.call).sound _ _ hi
  have hkeep : ∀ r, r ≠ t → (s.setMonitor t true).monitor r = true → s.monitor r = true := by
    intro r hr hm
    simpa [Config.setMonitor, Function.update_of_ne hr] using hm
  rcases (hf ▸ h.2 t).cases_some with ⟨hz, v, hp, -⟩ | ⟨a, hz, hd⟩
  · rcases hpend _ _ s.mem hp with hnext | ⟨hsame, hdone⟩
    · refine ⟨u, .refl, h.stutter rfl rfl hkeep ?_⟩
      rw [hz]
      exact .pending (f := ⟨f.call, _, _⟩) hnext fun m hm _ => Option.some.inj hm
    · -- the loaded value leaves nothing to be stored
      refine h.commit hz rfl hsame (fun r hr hm => ⟨hkeep r hr hm, rfl⟩) ?_
      exact .done (f := ⟨f.call, _, _⟩) hdone
  · exact absurd hd (hfin _ _)

theorem Refines.comp {g : R → R} (h : Refines o s u) (hf : s.thread t = some f)
    (hi : (routine f.call).code[f.pc]? = some (.comp g)) :
    Refines o (s.goto t f (f.pc + 1) (g f.regs)) u := by
  obtain ⟨hpend, hfin⟩ := (o f.call).sound _ _ hi
  refine h.stutter rfl rfl (fun _ _ hm => hm) ?_
  rcases (hf ▸ h.2 t).cases_some with ⟨hz, v, hp, hv⟩ | ⟨a, hz, hd⟩
  · rw [hz]
    exact .pending (f := ⟨f.call, _, _⟩) (hpend _ _ hp) hv
  · rw [hz]
    exact .done (f := ⟨f.call, _, _⟩) (hfin _ _ hd)

theorem Refines.branch {p : R → Bool} {target : ℕ} (h : Refines o s u)
    (hf : s.thread t = some f)
    (hi : (routine f.call).code[f.pc]? = some (.branch p target)) :
    Refines o (s.goto t f (if p f.regs then target else f.pc + 1) f.regs) u := by
  obtain ⟨hpend, hfin⟩ := (o f.call).sound _ _ hi
  refine h.stutter rfl rfl (fun _ _ hm => hm) ?_
  rcases (hf ▸ h.2 t).cases_some with ⟨hz, v, hp, hv⟩ | ⟨a, hz, hd⟩
  · rw [hz]
    exact .pending (f := ⟨f.call, _, _⟩) (hpend _ _ hp) hv
  · rw [hz]
    exact .done (f := ⟨f.call, _, _⟩) (hfin _ _ hd)

theorem Refines.store_failed {g : R → M} {status : Bool → R → R} (h : Refines o s u)
    (hf : s.thread t = some f) (hi : (routine f.call).code[f.pc]? = some (.store g status)) :
    Refines o ((s.setMonitor t false).goto t f (f.pc + 1) (status true f.regs)) u := by
  obtain ⟨hpend, hfin⟩ := (o f.call).sound _ _ hi
  refine h.stutter rfl rfl (fun r hr hm => ?_) ?_
  · simpa [Config.goto, Config.setMonitor, Function.update_of_ne hr] using hm
  · rcases (hf ▸ h.2 t).cases_some with ⟨hz, v, hp, -⟩ | ⟨a, hz, hd⟩
    · rw [hz]
      exact .pending (f := ⟨f.call, _, _⟩) (hpend _ _ hp).1 (by simp)
    · exact absurd hd (hfin _ _)

theorem Refines.store_ok {g : R → M} {status : Bool → R → R} (h : Refines o s u)
    (hf : s.thread t = some f) (hi : (routine f.call).code[f.pc]? = some (.store g status))
    (harmed : s.monitor t = true) :
    ∃ u', Run (AtomicStep apply) u [] u' ∧
      Refines o ((s.write (g f.regs)).goto t f (f.pc + 1) (status false f.regs)) u' := by
  obtain ⟨hpend, hfin⟩ := (o f.call).sound _ _ hi
  rcases (hf ▸ h.2 t).cases_some with ⟨hz, v, hp, hv⟩ | ⟨a, hz, hd⟩
  · obtain ⟨-, m, hm, hstored, hdone⟩ := hpend _ _ hp
    -- the monitor is still armed, so the word is what was loaded
    obtain rfl := hv m hm harmed
    refine h.commit hz rfl hstored (fun r _ hmon => ?_) (.done (f := ⟨f.call, _, _⟩) hdone)
    simp [Config.goto, Config.write] at hmon
  · exact absurd hd (hfin _ _)

theorem Refines.rmw {g : M → R → Option M × R} (h : Refines o s u) (hf : s.thread t = some f)
    (hi : (routine f.call).code[f.pc]? = some (.rmw g)) (hs' : s.exec routine t armed = some s') :
    ∃ u', Run (AtomicStep apply) u [] u' ∧ Refines o s' u' := by
  obtain ⟨hpend, hfin⟩ := (o f.call).sound _ _ hi
  rcases (hf ▸ h.2 t).cases_some with ⟨hz, v, hp, -⟩ | ⟨a, hz, hd⟩
  · obtain ⟨hstored, hdone⟩ := hpend _ _ s.mem hp
    simp only [Config.exec, hf, hi] at hs'
    cases hm : (g s.mem f.regs).1 with
    | none =>
        rw [hm] at hs' hstored
        obtain rfl := Option.some.inj hs'
        exact h.commit hz rfl hstored (fun _ _ hmon => ⟨hmon, rfl⟩)
          (.done (f := ⟨f.call, _, _⟩) hdone)
    | some m =>
        rw [hm] at hs' hstored
        obtain rfl := Option.some.inj hs'
        refine h.commit hz rfl hstored (fun r _ hmon => ?_) (.done (f := ⟨f.call, _, _⟩) hdone)
        simp [Config.goto, Config.write] at hmon
  · exact absurd hd (hfin _ _)

/-- **One instruction.**  The calls cannot tell it from rest, or from the effect of the call. -/
theorem Refines.exec {ok : Bool} (h : Refines o s u) (hs : s.exec routine t ok = some s') :
    ∃ u', Run (AtomicStep apply) u [] u' ∧ Refines o s' u' := by
  have hexec := hs
  unfold Config.exec at hs
  cases hf : s.thread t with
  | none =>
      rw [hf] at hs
      cases hs
  | some f =>
      simp only [hf] at hs
      cases hi : (routine f.call).code[f.pc]? with
      | none =>
          rw [hi] at hs
          cases hs
      | some i =>
          cases i with
          -- only an instruction at which the call can take effect moves the system of single steps
          | load g =>
              simp only [hi] at hs
              obtain rfl := Option.some.inj hs
              exact h.load hf hi
          | comp g =>
              simp only [hi] at hs
              obtain rfl := Option.some.inj hs
              exact ⟨u, .refl, h.comp hf hi⟩
          | store g status =>
              simp only [hi] at hs
              split at hs
              · split at hs
                · rename_i harmed
                  obtain rfl := Option.some.inj hs
                  exact h.store_ok hf hi harmed
                · cases hs
              · obtain rfl := Option.some.inj hs
                exact ⟨u, .refl, h.store_failed hf hi⟩
          | branch p target =>
              simp only [hi] at hs
              obtain rfl := Option.some.inj hs
              exact ⟨u, .refl, h.branch hf hi⟩
          | rmw g => exact h.rmw hf hi hexec

/-- The system of single steps can follow. -/
theorem Outline.simulation (o : ∀ c, Outline (routine c) (apply c)) :
    Simulation (ConfigStep (T := T) routine) (AtomicStep apply) (Refines o) := by
  rintro s e s' u hs h
  cases hs with
  | @call t c hidle =>
      have hlink := h.2 t
      rw [hidle] at hlink
      cases hz : u.status t with
      | idle =>
          refine ⟨_, Run.single (.call c hz), h.update rfl h.1 rfl (fun _ _ hm => ⟨hm, rfl⟩) ?_⟩
          exact .pending (f := ⟨c, 0, _⟩) (o c).entry (by simp)
      | pending c' => rw [hz] at hlink; cases hlink
      | done c' a => rw [hz] at hlink; cases hlink
  | exec hexec => exact h.exec hexec
  | @ret t f hf hpc =>
      rcases (hf ▸ h.2 t).cases_some with ⟨-, v, hp, -⟩ | ⟨a, hz, hd⟩
      · exact absurd (hpc ▸ hp) ((o f.call).exit_pend _ _)
      · rw [(o f.call).exit_fin a f.regs (hpc ▸ hd)]
        exact ⟨_, Run.single (.ret hz), h.update rfl h.1 rfl (fun _ _ hm => ⟨hm, rfl⟩) .idle⟩

/-! ### Weakest preconditions -/

section Wp

variable (result : R → A) (stop : ℕ)

/-- What makes the rest of a routine return `a`, when the effect is behind it. -/
@[simp] def Ends : List (Instr M R) → A → R → Prop
  | [], a, r => result r = a
  | .comp f :: rest, a, r => Ends rest a (f r)
  | .branch p target :: rest, a, r =>
      (p r = true → target = stop ∧ result r = a) ∧ (p r = false → Ends rest a r)
  | _ :: _, _, _ => False

/-- What makes the rest of a routine have the effect of `eff` and return its value.  It may
go back to `start`, where `J` holds. -/
@[simp] def Pends (eff : M → M × A) (start : ℕ) (J : R → Prop) :
    List (Instr M R) → Option M → R → Prop
  | [], _, _ => False
  | .load f :: rest, _, r =>
      ∀ m, Pends eff start J rest (some m) (f m r) ∨
        (eff m).1 = m ∧ Ends result stop rest (eff m).2 (f m r)
  | .comp f :: rest, v, r => Pends eff start J rest v (f r)
  | .store g status :: rest, v, r =>
      Pends eff start J rest none (status true r) ∧
        ∃ m, v = some m ∧ (eff m).1 = g r ∧ Ends result stop rest (eff m).2 (status false r)
  | .branch p target :: rest, v, r =>
      (p r = true → target = start ∧ J r) ∧ (p r = false → Pends eff start J rest v r)
  | .rmw f :: rest, _, r =>
      ∀ m, (eff m).1 = (f m r).1.getD m ∧ Ends result stop rest (eff m).2 (f m r).2

variable {result stop} {eff : M → M × A} {start : ℕ} {J : R → Prop}

/-- Nothing has to be known of the word to begin with. -/
theorem Pends.mono {l : List (Instr M R)} {v : Option M} {r : R}
    (h : Pends result stop eff start J l none r) : Pends result stop eff start J l v r := by
  induction l generalizing r with
  | nil => exact h
  | cons i rest ih =>
      cases i with
      | load f => exact h
      | comp f => exact ih h
      | store g status =>
          obtain ⟨-, m, hm, -⟩ := h
          cases hm
      | branch p target => exact ⟨h.1, fun hp => ih (h.2 hp)⟩
      | rmw f => exact h

end Wp

theorem drop_of_getElem? {α : Type*} {l : List α} {n : ℕ} {a : α} (h : l[n]? = some a) :
    l.drop n = a :: l.drop (n + 1) := by
  obtain ⟨hn, rfl⟩ := List.getElem?_eq_some_iff.mp h
  exact List.drop_eq_getElem_cons hn

/-- **The outline of weakest preconditions.**  At each place the rest of the routine is
right, and the place that it goes back to is right under `J`. -/
def Outline.ofWp {r : Routine M R A} {eff : M → M × A} (start : ℕ) (J : R → Prop)
    (hentry : Pends r.result r.code.length eff start J r.code none r.args)
    (hloop : ∀ x, J x → Pends r.result r.code.length eff start J (r.code.drop start) none x) :
    Outline r eff where
  pend pc v x := Pends r.result r.code.length eff start J (r.code.drop pc) v x
  fin pc a x := Ends r.result r.code.length (r.code.drop pc) a x
  entry := hentry
  sound pc i hi := by
    rw [Sound.eq_def, drop_of_getElem? hi]
    cases i with
    | load f => exact ⟨fun v x m hp => hp m, fun a x hf => hf⟩
    | comp f => exact ⟨fun v x hp => hp, fun a x hf => hf⟩
    | store g status => exact ⟨fun v x hp => hp, fun a x hf => hf⟩
    | branch p target =>
        refine ⟨fun v x hp => ?_, fun a x hf => ?_⟩
        · cases hpx : p x with
          | true =>
              obtain ⟨rfl, hJ⟩ := hp.1 hpx
              exact (hloop x hJ).mono
          | false => exact hp.2 hpx
        · cases hpx : p x with
          | true =>
              obtain ⟨rfl, hres⟩ := hf.1 hpx
              rw [if_pos rfl, List.drop_length]
              exact hres
          | false => exact hf.2 hpx
    | rmw f => exact ⟨fun v x m hp => hp m, fun a x hf => hf⟩
  exit_pend v x hp := by
    rw [List.drop_length] at hp
    exact hp
  exit_fin a x hf := by
    rw [List.drop_length] at hf
    exact hf

/-- The routine has an outline. -/
def Verified (r : Routine M R A) (eff : M → M × A) : Prop := Nonempty (Outline r eff)

theorem Verified.ofWp {r : Routine M R A} {eff : M → M × A} (start : ℕ) (J : R → Prop)
    (hentry : Pends r.result r.code.length eff start J r.code none r.args)
    (hloop : ∀ x, J x → Pends r.result r.code.length eff start J (r.code.drop start) none x) :
    Verified r eff :=
  ⟨.ofWp start J hentry hloop⟩

/-- A routine that never goes back. -/
theorem Verified.ofStraight {r : Routine M R A} {eff : M → M × A}
    (hentry : Pends r.result r.code.length eff 0 (fun _ => False) r.code none r.args) :
    Verified r eff :=
  .ofWp 0 _ hentry fun _ h => h.elim

/-- **Linearizability.**  What the callers see of the routines, for any number of threads and
in any order of their instructions, they can see when every call is one step; and the word
comes out the same. -/
theorem linearizable (h : ∀ c, Verified (routine c) (apply c)) {m : M}
    {es : List (CallEvent T C A)} (hrun : Run (ConfigStep routine) (Config.init m) es s) :
    ∃ u, Run (AtomicStep apply) (Atomic.init m) es u ∧ u.mem = s.mem := by
  let o : ∀ c, Outline (routine c) (apply c) := fun c => (h c).some
  have hinit : Refines o (Config.init m) (Atomic.init m : Atomic T M C A) := ⟨rfl, fun _ => .idle⟩
  obtain ⟨u, hrun', href⟩ := (Outline.simulation o).run hrun hinit
  exact ⟨u, hrun', href.1⟩

end MyTests.Lib
