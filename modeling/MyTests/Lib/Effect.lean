/-
MyTests/Lib/Effect.lean

Computations with a state that survives an exception, as in an imperative
language with `raise` and `try ... finally`, and rules of pre- and
postconditions for them.

`Sat P x Q E` says: from a state in `P`, the computation `x` either returns in
`Q` or raises in `E`.  There is one rule for each way of building a
computation; the rule for sequencing (`Sat.bind`) needs the middle condition
only for the returning outcome, since an exception skips the rest.
-/
import Mathlib

namespace MyTests.Lib

variable {ε σ τ α β : Type}

/-! ### Computations -/

/-- A computation on the state `σ` that returns an `α` or raises an `ε`. -/
abbrev Proc (ε σ α : Type) : Type := ExceptT ε (StateM σ) α

/-- The outcome of `x` from `s`, and the state it leaves. -/
def exec (x : Proc ε σ α) (s : σ) : Except ε α × σ := (ExceptT.run x).run s

@[simp] theorem exec_pure (a : α) (s : σ) : exec (pure a : Proc ε σ α) s = (.ok a, s) := rfl

@[simp] theorem exec_throw (e : ε) (s : σ) :
    exec (throw e : Proc ε σ α) s = (.error e, s) := rfl

theorem exec_bind (x : Proc ε σ α) (f : α → Proc ε σ β) (s : σ) :
    exec (x >>= f) s = match exec x s with
      | (.ok a, t) => exec (f a) t
      | (.error e, t) => (.error e, t) := by
  show (ExceptT.run (x >>= f)).run s = _
  simp only [exec, ExceptT.run_bind, StateT.run_bind]
  rcases (StateT.run x.run s : Id (Except ε α × σ)) with ⟨_ | _, _⟩ <;> rfl

/-- Sequencing after a computation that returns. -/
theorem exec_bind_ok {x : Proc ε σ α} {f : α → Proc ε σ β} {s t : σ} {a : α}
    (h : exec x s = (.ok a, t)) : exec (x >>= f) s = exec (f a) t := by
  rw [exec_bind, h]

/-- An exception skips the rest. -/
theorem exec_bind_error {x : Proc ε σ α} {f : α → Proc ε σ β} {s t : σ} {e : ε}
    (h : exec x s = (.error e, t)) : exec (x >>= f) s = (.error e, t) := by
  rw [exec_bind, h]

@[simp] theorem exec_get (s : σ) : exec (get : Proc ε σ σ) s = (.ok s, s) := rfl

@[simp] theorem exec_modify (f : σ → σ) (s : σ) :
    exec (modify f : Proc ε σ PUnit) s = (.ok ⟨⟩, f s) := rfl

/-- A pure result or exception, as a computation. -/
def orRaise (r : Except ε α) : Proc ε σ α :=
  match r with
  | .ok a => pure a
  | .error e => throw e

@[simp] theorem exec_orRaise (r : Except ε α) (s : σ) :
    exec (orRaise r : Proc ε σ α) s = (r, s) := by
  cases r <;> rfl

/-- A computation on a part of the state. -/
def onPart (read : τ → σ) (write : σ → τ → τ) (x : Proc ε σ α) : Proc ε τ α :=
  ExceptT.mk fun t => ((exec x (read t)).1, write (exec x (read t)).2 t)

@[simp] theorem exec_onPart (read : τ → σ) (write : σ → τ → τ) (x : Proc ε σ α) (t : τ) :
    exec (onPart read write x) t = ((exec x (read t)).1, write (exec x (read t)).2 t) := rfl

/-- `try: x finally: y`, for a `y` that does not raise. -/
def andFinally (x : Proc ε σ α) (y : σ → σ) : Proc ε σ α :=
  ExceptT.mk fun s => ((exec x s).1, y (exec x s).2)

@[simp] theorem exec_andFinally (x : Proc ε σ α) (y : σ → σ) (s : σ) :
    exec (andFinally x y) s = ((exec x s).1, y (exec x s).2) := rfl

/-! ### Pre- and postconditions -/

/-- An outcome is a result in `Q` or an exception in `E`. -/
def Outcome (Q : α → σ → Prop) (E : ε → σ → Prop) : Except ε α × σ → Prop
  | (.ok a, t) => Q a t
  | (.error e, t) => E e t

/-- From `P`, `x` returns in `Q` or raises in `E`. -/
def Sat (P : σ → Prop) (x : Proc ε σ α) (Q : α → σ → Prop) (E : ε → σ → Prop) : Prop :=
  ∀ s, P s → Outcome Q E (exec x s)

/-- From `P`, `x` returns in `Q`. -/
def Returns (P : σ → Prop) (x : Proc ε σ α) (Q : α → σ → Prop) : Prop :=
  Sat P x Q fun _ _ => False

/-- `x` keeps `I`, whether it returns or raises. -/
def Keeps (I : σ → Prop) (x : Proc ε σ α) : Prop := Sat I x (fun _ => I) fun _ => I

variable {P P' I : σ → Prop} {x : Proc ε σ α} {f : α → Proc ε σ β} {Q Q' : α → σ → Prop}
  {R : β → σ → Prop} {E E' : ε → σ → Prop}

theorem Sat.pure {a : α} (h : ∀ s, P s → Q a s) : Sat P (pure a : Proc ε σ α) Q E :=
  fun s hs => h s hs

theorem Sat.throw {e : ε} (h : ∀ s, P s → E e s) : Sat P (throw e : Proc ε σ α) Q E :=
  fun s hs => h s hs

theorem Sat.bind (hx : Sat P x Q E) (hf : ∀ a, Sat (Q a) (f a) R E) : Sat P (x >>= f) R E := by
  intro s hs
  have hxs := hx s hs
  rw [exec_bind]
  rcases hr : exec x s with ⟨_ | a, t⟩ <;> rw [hr] at hxs
  · exact hxs
  · exact hf a t hxs

/-- The rule of consequence. -/
theorem Sat.weaken (h : Sat P x Q E) (hP : ∀ s, P' s → P s) (hQ : ∀ a s, Q a s → Q' a s)
    (hE : ∀ e s, E e s → E' e s) : Sat P' x Q' E' := by
  intro s hs
  have hxs := h s (hP s hs)
  rcases hr : exec x s with ⟨_ | a, t⟩ <;> rw [hr] at hxs
  · exact hE _ _ hxs
  · exact hQ _ _ hxs

theorem Sat.get {Q : σ → σ → Prop} (h : ∀ s, P s → Q s s) : Sat P (get : Proc ε σ σ) Q E :=
  fun s hs => h s hs

theorem Sat.modify {g : σ → σ} {Q : PUnit → σ → Prop} (h : ∀ s, P s → Q ⟨⟩ (g s)) :
    Sat P (modify g : Proc ε σ PUnit) Q E :=
  fun s hs => h s hs

theorem Sat.bind_ok {a : α} {Q : β → σ → Prop} (h : Sat P (f a) Q E) :
    Sat P (Lib.orRaise (.ok a) >>= f) Q E := by
  intro s hs
  rw [exec_bind_ok (exec_orRaise _ _)]
  exact h s hs

/-- A computation on a part is judged on that part. -/
theorem Sat.onPart {read : τ → σ} {write : σ → τ → τ} {P : τ → Prop} {Q : α → τ → Prop}
    {E : ε → τ → Prop}
    (h : ∀ t, P t → Sat (fun s => s = read t) x (fun a s => Q a (write s t))
      fun e s => E e (write s t)) : Sat P (onPart read write x) Q E := by
  intro t ht
  have hx := h t ht (read t) rfl
  rw [exec_onPart]
  rcases hr : exec x (read t) with ⟨_ | a, s⟩ <;> rw [hr] at hx <;> exact hx

theorem Sat.andFinally {g : σ → σ} (h : Sat P x (fun a s => Q a (g s)) fun e s => E e (g s)) :
    Sat P (andFinally x g) Q E := by
  intro s hs
  have hx := h s hs
  rw [exec_andFinally]
  rcases hr : exec x s with ⟨_ | a, t⟩ <;> rw [hr] at hx <;> exact hx

/-- A precondition may be split off its state. -/
theorem Sat.of_forall (h : ∀ s, P s → Sat (fun t => t = s) x Q E) : Sat P x Q E :=
  fun s hs => h s hs s rfl

/-- A fact about the result is no longer about the state. -/
theorem Sat.of_and {p : Prop} (h : p → Sat P x Q E) : Sat (fun s => P s ∧ p) x Q E :=
  fun s hs => h hs.2 s hs.1

/-- Two judgements on one computation hold together. -/
theorem Sat.and (h : Sat P x Q E) (h' : Sat P' x Q' E') :
    Sat (fun s => P s ∧ P' s) x (fun a s => Q a s ∧ Q' a s) fun e s => E e s ∧ E' e s := by
  intro s hs
  have hx := h s hs.1
  have hx' := h' s hs.2
  rcases hr : exec x s with ⟨_ | a, t⟩ <;> rw [hr] at hx hx'
  · exact ⟨hx, hx'⟩
  · exact ⟨hx, hx'⟩

theorem Keeps.bind (hx : Keeps I x) (hf : ∀ a, Keeps I (f a)) : Keeps I (x >>= f) :=
  Sat.bind hx hf

theorem Keeps.pure {a : α} : Keeps I (pure a : Proc ε σ α) := Sat.pure fun _ h => h

theorem Keeps.throw {e : ε} : Keeps I (throw e : Proc ε σ α) := Sat.throw fun _ h => h

/-- After a pure result the rest is judged on that result. -/
theorem Keeps.bind_orRaise {r : Except ε α} (hf : ∀ a, r = .ok a → Keeps I (f a)) :
    Keeps I (orRaise r >>= f) := by
  cases r with
  | ok a => exact hf a rfl
  | error e => exact Keeps.throw

/-- What a returning computation returns. -/
theorem Returns.exists (h : Returns P x Q) {s : σ} (hs : P s) :
    ∃ a t, exec x s = (.ok a, t) ∧ Q a t := by
  have hx := h s hs
  rcases hr : exec x s with ⟨_ | a, t⟩ <;> rw [hr] at hx
  · exact hx.elim
  · exact ⟨a, t, rfl, hx⟩

/-- A computation that returns and keeps `I` returns in `I`. -/
theorem Keeps.returns (hI : Keeps I x) (h : Returns P x Q) (himp : ∀ s, I s → P s) :
    Returns I x fun _ => I :=
  (Sat.and hI h).weaken (fun s hs => ⟨hs, himp s hs⟩) (fun _ _ hs => hs.1) fun _ _ hs => hs.2

/-- Whatever the outcome, the state it leaves is in `I`. -/
theorem Keeps.state (h : Keeps I x) {s : σ} (hs : I s) : I (exec x s).2 := by
  have hx := h s hs
  rcases hr : exec x s with ⟨_ | a, t⟩ <;> rw [hr] at hx <;> exact hx

end MyTests.Lib
