/-
MyTests/Lib/Transition.lean

Labelled transition systems.  A step emits a list of events; a run is a
finite sequence of steps, and carries the events of its steps in order.

The one induction rule is `Run.invariant`: a property of (events so far,
state) that holds at the start and that every step preserves holds at the end
of every run.  Safety of a state is the instance that ignores the events.

Where a system computes its steps from actions (`StepOf`), a schedule of actions
that can be kept gives a run (`exists_run_of_schedule`).

In a deterministic system any two runs from one state are prefixes of each
other, so a run to a final state is the only one (`Run.extends`).

A system simulates another when each of its steps is matched by a run with the
same events; the events of a whole run are then events of the other system
(`Simulation.run`).  `Inevitably` says that no run gets round a property,
whatever is chosen in it; a rank that every step brings down shows it.

The last section is about service order.  A system in which a request is
first *committed* and later *served* is first-in first-out exactly when the
served requests are a prefix of the committed ones; `fifo_of_served` turns
that invariant into the statement about any two requests.
-/
import Mathlib

namespace MyTests.Lib

variable {σ ε κ : Type*}

/-! ### Runs -/

/-- A run of `step` from `s`: the events emitted so far and the state
reached. -/
inductive Run (step : σ → List ε → σ → Prop) (s : σ) : List ε → σ → Prop
  | refl : Run step s [] s
  | tail {es s₁ e s₂} : Run step s es s₁ → step s₁ e s₂ → Run step s (es ++ e) s₂

/-- A state that some run reaches. -/
def Reachable (step : σ → List ε → σ → Prop) (s t : σ) : Prop := ∃ es, Run step s es t

/-- **Run induction.** -/
theorem Run.invariant {step : σ → List ε → σ → Prop} {s : σ} {I : List ε → σ → Prop}
    (hinit : I [] s)
    (hstep : ∀ es s₁ e s₂, I es s₁ → step s₁ e s₂ → I (es ++ e) s₂)
    {es : List ε} {t : σ} (h : Run step s es t) : I es t := by
  induction h with
  | refl => exact hinit
  | tail _ hs ih => exact hstep _ _ _ _ ih hs

/-- Run induction for a property of the state alone. -/
theorem Reachable.invariant {step : σ → List ε → σ → Prop} {s : σ} {I : σ → Prop}
    (hinit : I s) (hstep : ∀ s₁ e s₂, I s₁ → step s₁ e s₂ → I s₂)
    {t : σ} (h : Reachable step s t) : I t := by
  obtain ⟨es, hrun⟩ := h
  exact Run.invariant (I := fun _ u => I u) hinit (fun _ s₁ e s₂ => hstep s₁ e s₂) hrun

theorem Reachable.refl {step : σ → List ε → σ → Prop} (s : σ) : Reachable step s s :=
  ⟨[], .refl⟩

theorem Reachable.tail {step : σ → List ε → σ → Prop} {s t u : σ} {e : List ε}
    (h : Reachable step s t) (hs : step t e u) : Reachable step s u := by
  obtain ⟨es, hrun⟩ := h
  exact ⟨es ++ e, hrun.tail hs⟩

theorem Run.single {step : σ → List ε → σ → Prop} {s t : σ} {e : List ε} (h : step s e t) :
    Run step s e t :=
  Run.refl.tail h

theorem Run.trans {step : σ → List ε → σ → Prop} {s t u : σ} {es es' : List ε}
    (h : Run step s es t) (h' : Run step t es' u) : Run step s (es ++ es') u := by
  induction h' with
  | refl => rwa [List.append_nil]
  | tail _ hs ih =>
      rw [← List.append_assoc]
      exact ih.tail hs

/-- **A system that always goes on, and not for ever, ends.**  Its runs emit a bounded
number of events, and whatever state they reach is final or has a step that emits some. -/
theorem Run.exists_final {step : σ → List ε → σ → Prop} {s : σ} {final : σ → Prop} (N : ℕ)
    (hbound : ∀ es t, Run step s es t → es.length ≤ N)
    (hgo : ∀ es t, Run step s es t → ¬ final t → ∃ e u, e ≠ [] ∧ step t e u) :
    ∃ es t, Run step s es t ∧ final t := by
  by_contra hnone
  push Not at hnone
  -- without an end there would be runs of every length
  have hlong : ∀ n, ∃ es t, Run step s es t ∧ n ≤ es.length := by
    intro n
    induction n with
    | zero => exact ⟨[], s, .refl, Nat.zero_le _⟩
    | succ n ih =>
        obtain ⟨es, t, hrun, hlen⟩ := ih
        obtain ⟨e, u, hne, hs⟩ := hgo es t hrun (hnone es t hrun)
        have hpos := List.length_pos_of_ne_nil hne
        refine ⟨es ++ e, u, hrun.tail hs, ?_⟩
        rw [List.length_append]
        omega
  obtain ⟨es, t, hrun, hlen⟩ := hlong (N + 1)
  exact absurd (hbound es t hrun) (by omega)

/-- The steps of a system that computes them from actions: one action, whichever it is. -/
def StepOf {α : Type*} (act : α → σ → Option (List ε × σ)) (s : σ) (es : List ε) (t : σ) : Prop :=
  ∃ a, act a s = some (es, t)

theorem stepOf_of_act {α : Type*} (act : α → σ → Option (List ε × σ)) (a : α) (s : σ)
    (es : List ε) (t : σ) (h : act a s = some (es, t)) : StepOf act s es t :=
  ⟨a, h⟩

theorem exists_stepOf {α : Type*} {act : α → σ → Option (List ε × σ)} {s : σ} (a : α)
    (h : (act a s).isSome = true) : ∃ es t, StepOf act s es t := by
  obtain ⟨⟨es, t⟩, hact⟩ := Option.isSome_iff_exists.mp h
  exact ⟨es, t, a, hact⟩

/-- The run of a schedule, in a system whose steps are computed from actions. -/
def schedule {α : Type*} (act : α → σ → Option (List ε × σ)) : List α → σ → Option (List ε × σ)
  | [], s => some ([], s)
  | a :: as, s => do
      let (es, t) ← act a s
      let (fs, u) ← schedule act as t
      pure (es ++ fs, u)

theorem run_of_schedule {α : Type*} {act : α → σ → Option (List ε × σ)}
    {step : σ → List ε → σ → Prop} (hact : ∀ a s e t, act a s = some (e, t) → step s e t)
    {as : List α} {s t : σ} {es : List ε} (h : schedule act as s = some (es, t)) :
    Run step s es t := by
  induction as generalizing s es with
  | nil =>
      obtain ⟨rfl, rfl⟩ := Prod.mk.inj (Option.some.inj h)
      exact .refl
  | cons a as ih =>
      obtain ⟨⟨es₁, s₁⟩, hstep, hbind⟩ := Option.bind_eq_some_iff.mp h
      obtain ⟨⟨fs, u⟩, hrest, hpure⟩ := Option.bind_eq_some_iff.mp hbind
      obtain ⟨rfl, rfl⟩ := Prod.mk.inj (Option.some.inj hpure)
      exact (Run.single (hact a s es₁ s₁ hstep)).trans (ih hrest)

/-- A schedule that can be kept reaches a state, and what is computed of it holds. -/
theorem exists_run_of_schedule {α : Type*} {act : α → σ → Option (List ε × σ)}
    {step : σ → List ε → σ → Prop} (hact : ∀ a s e t, act a s = some (e, t) → step s e t)
    {s : σ} (as : List α) (good : List ε → σ → Bool)
    (h : (schedule act as s).any (fun r => good r.1 r.2) = true) :
    ∃ es t, Run step s es t ∧ good es t = true := by
  obtain ⟨⟨es, t⟩, hrun, hgood⟩ := (Option.any_eq_true _ _).mp h
  exact ⟨es, t, run_of_schedule hact hrun, hgood⟩

/-! ### Deterministic systems -/

/-- What happens next is fixed by the state. -/
def Deterministic (step : σ → List ε → σ → Prop) : Prop :=
  ∀ s e t e' t', step s e t → step s e' t' → e = e' ∧ t = t'

theorem Run.cases_head {step : σ → List ε → σ → Prop} {s t : σ} {es : List ε}
    (h : Run step s es t) : (es = [] ∧ s = t)
      ∨ ∃ e s₁ es', step s e s₁ ∧ Run step s₁ es' t ∧ es = e ++ es' := by
  induction h with
  | refl => exact .inl ⟨rfl, rfl⟩
  | tail _ hs ih =>
      rcases ih with ⟨rfl, rfl⟩ | ⟨e, s₁, es', hhead, hrest, rfl⟩
      · exact .inr ⟨_, _, [], hs, .refl, (List.append_nil _).symm⟩
      · exact .inr ⟨e, s₁, _, hhead, hrest.tail hs, List.append_assoc _ _ _⟩

/-- **A run that cannot go on passes through every state a run reaches.** -/
theorem Run.extends {step : σ → List ε → σ → Prop} (hdet : Deterministic step) {s t u : σ}
    {es es' : List ε} (h : Run step s es t) (h' : Run step s es' u)
    (hfinal : ∀ e v, ¬ step u e v) : ∃ r, Run step t r u ∧ es' = es ++ r := by
  induction h with
  | refl => exact ⟨es', h', rfl⟩
  | tail _ hs ih =>
      obtain ⟨r, hr, rfl⟩ := ih
      rcases hr.cases_head with ⟨-, rfl⟩ | ⟨e, s₁, r', hhead, hrest, rfl⟩
      · exact absurd hs (hfinal _ _)
      · obtain ⟨rfl, rfl⟩ := hdet _ _ _ _ _ hhead hs
        exact ⟨r', hrest, (List.append_assoc _ _ _).symm⟩

/-! ### Simulation -/

variable {τ υ : Type*}

/-- Every step of `step` is matched by a run of `spec` with the same events, and
`R` holds again afterwards. -/
def Simulation (step : σ → List ε → σ → Prop) (spec : τ → List ε → τ → Prop)
    (R : σ → τ → Prop) : Prop :=
  ∀ s e t s', step s e t → R s s' → ∃ t', Run spec s' e t' ∧ R t t'

/-- **A simulation carries over to runs**, with the events in their order. -/
theorem Simulation.run {step : σ → List ε → σ → Prop} {spec : τ → List ε → τ → Prop}
    {R : σ → τ → Prop} (hsim : Simulation step spec R) {s t : σ} {s' : τ} {es : List ε}
    (h : Run step s es t) (hR : R s s') : ∃ t', Run spec s' es t' ∧ R t t' := by
  induction h with
  | refl => exact ⟨s', .refl, hR⟩
  | tail _ hs ih =>
      obtain ⟨t', hrun, hR'⟩ := ih
      obtain ⟨u', hrest, hR''⟩ := hsim _ _ _ _ hs hR'
      exact ⟨u', hrun.trans hrest, hR''⟩

/-! ### What every run comes to -/

/-- Every run that goes on as long as it can passes through a state with `Q`. -/
inductive Inevitably (step : σ → List ε → σ → Prop) (Q : σ → Prop) : σ → Prop
  | here {s} : Q s → Inevitably step Q s
  | next {s} : (∃ e t, step s e t) → (∀ e t, step s e t → Inevitably step Q t) →
      Inevitably step Q s

/-- **The rule of the decreasing rank.**  A state of rank `n` has `Q` or has a step, and every
step from it leads to a state of a lower rank. -/
theorem Inevitably.of_rank {step : σ → List ε → σ → Prop} {I : ℕ → σ → Prop} {Q : σ → Prop}
    (hgo : ∀ n s, I n s → ¬ Q s → ∃ e t, step s e t)
    (hstep : ∀ n s e t, I n s → ¬ Q s → step s e t → ∃ m < n, I m t) {n : ℕ} {s : σ}
    (hs : I n s) : Inevitably step Q s := by
  induction n using Nat.strong_induction_on generalizing s with
  | _ n ih =>
      by_cases hQ : Q s
      · exact .here hQ
      · refine .next (hgo n s hs hQ) fun e t hst => ?_
        obtain ⟨k, hk, ht⟩ := hstep n s e t hs hQ hst
        exact ih k hk ht

/-- What is inevitable can be reached. -/
theorem Inevitably.exists_run {step : σ → List ε → σ → Prop} {Q : σ → Prop} {s : σ}
    (h : Inevitably step Q s) : ∃ es t, Run step s es t ∧ Q t := by
  induction h with
  | here hQ => exact ⟨[], _, .refl, hQ⟩
  | next hgo _ ih =>
      obtain ⟨e, t, hst⟩ := hgo
      obtain ⟨es, u, hrun, hQ⟩ := ih e t hst
      exact ⟨e ++ es, u, (Run.single hst).trans hrun, hQ⟩

/-! ### Service order -/

/-- Two entries of a duplicate-free list, the second of which lies in a prefix:
the first lies in the prefix too, before the second. -/
theorem pair_sublist_of_prefix {l m : List κ} (hm : m.Nodup) (hlm : l <+: m) {a b : κ}
    (hab : [a, b].Sublist m) (hb : b ∈ l) : [a, b].Sublist l := by
  obtain ⟨r, rfl⟩ := hlm
  obtain ⟨x, y, hxy, hx, hy⟩ := List.sublist_append_iff.mp hab
  have hdisj := (List.nodup_append.mp hm).2.2
  have hy0 : y = [] := by
    -- were `b` in the rest, it would occur twice
    by_contra hne
    have hby : b ∈ y := by
      have hlast : ([a, b] : List κ).getLast? = y.getLast? := by
        rw [hxy, List.getLast?_append]
        cases hl : y.getLast? with
        | none => exact absurd (List.getLast?_eq_none_iff.mp hl) hne
        | some z => rfl
      exact List.mem_of_getLast? (by rw [← hlast]; rfl)
    exact hdisj b hb b (hy.subset hby) rfl
  rw [hxy, hy0, List.append_nil]
  exact hx

/-- **First in, first out.**  `commit` and `serve` read the request that an
event commits or serves.  If no request is committed twice and the served
requests are a prefix of the committed ones, then of two committed requests
the one committed first is served first. -/
theorem fifo_of_served {commit serve : ε → Option κ} {es : List ε}
    (hnodup : (es.filterMap commit).Nodup)
    (hpre : es.filterMap serve <+: es.filterMap commit) {a b : κ}
    (hab : [a, b].Sublist (es.filterMap commit)) (hb : b ∈ es.filterMap serve) :
    [a, b].Sublist (es.filterMap serve) :=
  pair_sublist_of_prefix hnodup hpre hab hb

end MyTests.Lib
