/-
MyTests/Lib/Agree.lean

Two computations side by side.

`Agree P x y Q E` says: from states related by `P`, the computations `x` and `y`
return the same result in states related by `Q`, or raise the same exception in
states related by `E`.  The rules are those of `Lib.Effect`, one for each way of
building a computation, and one more (`Agree.left`) for a step that only the
left side takes.
-/
import MyTests.Lib.Effect

namespace MyTests.Lib

variable {ε σ τ σ' τ' α β : Type}

/-- Two outcomes match: the same result or the same exception, in related
states. -/
def Matches (Q : α → σ → τ → Prop) (E : σ → τ → Prop) :
    Except ε α × σ → Except ε α × τ → Prop
  | (.ok a, s), (.ok b, t) => a = b ∧ Q a s t
  | (.error e, s), (.error e', t) => e = e' ∧ E s t
  | (.ok _, _), (.error _, _) => False
  | (.error _, _), (.ok _, _) => False

def Agree (P : σ → τ → Prop) (x : Proc ε σ α) (y : Proc ε τ α) (Q : α → σ → τ → Prop)
    (E : σ → τ → Prop) : Prop :=
  ∀ s t, P s t → Matches Q E (exec x s) (exec y t)

variable {P P' : σ → τ → Prop} {x : Proc ε σ α} {y : Proc ε τ α} {f : α → Proc ε σ β}
  {g : α → Proc ε τ β} {Q Q' : α → σ → τ → Prop} {R : β → σ → τ → Prop} {E E' : σ → τ → Prop}

theorem Agree.pure {a : α} (h : ∀ s t, P s t → Q a s t) :
    Agree P (pure a : Proc ε σ α) (pure a : Proc ε τ α) Q E :=
  fun s t hst => ⟨rfl, h s t hst⟩

theorem Agree.throw {e : ε} (h : ∀ s t, P s t → E s t) :
    Agree P (throw e : Proc ε σ α) (throw e : Proc ε τ α) Q E :=
  fun s t hst => ⟨rfl, h s t hst⟩

theorem Agree.bind (hx : Agree P x y Q E) (hf : ∀ a, Agree (Q a) (f a) (g a) R E) :
    Agree P (x >>= f) (y >>= g) R E := by
  intro s t hst
  have hxy := hx s t hst
  rw [exec_bind, exec_bind]
  rcases hs : exec x s with ⟨_ | a, s₁⟩ <;> rcases ht : exec y t with ⟨_ | b, t₁⟩ <;>
    rw [hs, ht] at hxy
  · exact hxy
  · exact hxy.elim
  · exact hxy.elim
  · obtain ⟨rfl, hQ⟩ := hxy
    exact hf a s₁ t₁ hQ

theorem Agree.weaken (h : Agree P x y Q E) (hP : ∀ s t, P' s t → P s t)
    (hQ : ∀ a s t, Q a s t → Q' a s t) (hE : ∀ s t, E s t → E' s t) : Agree P' x y Q' E' := by
  intro s t hst
  have hxy := h s t (hP s t hst)
  rcases hs : exec x s with ⟨_ | a, s₁⟩ <;> rcases ht : exec y t with ⟨_ | b, t₁⟩ <;>
    rw [hs, ht] at hxy
  · exact ⟨hxy.1, hE _ _ hxy.2⟩
  · exact hxy.elim
  · exact hxy.elim
  · exact ⟨hxy.1, hQ _ _ _ hxy.2⟩

/-- A pure result that both sides use. -/
theorem Agree.bind_orRaise {r : Except ε α} (hf : ∀ a, r = .ok a → Agree P (f a) (g a) R E)
    (hE : ∀ s t, P s t → E s t) : Agree P (orRaise r >>= f) (orRaise r >>= g) R E := by
  cases r with
  | ok a => exact hf a rfl
  | error e => exact Agree.throw hE

/-- A step that only the left side takes. -/
theorem Agree.left {α' : Type} {x : Proc ε σ α'} {f : Proc ε σ β} {y : Proc ε τ β}
    (hx : ∀ t, Returns (fun s => P s t) x fun _ s => P' s t) (hf : Agree P' f y R E) :
    Agree P (x >>= fun _ => f) y R E := by
  intro s t hst
  obtain ⟨a, s₁, hexec, hs₁⟩ := (hx t).exists hst
  rw [exec_bind_ok hexec]
  exact hf s₁ t hs₁

/-- Computations on parts of related states. -/
theorem Agree.onPart {read : σ' → σ} {write : σ → σ' → σ'} {read' : τ' → τ} {write' : τ → τ' → τ'}
    {P : σ' → τ' → Prop} {Q : α → σ' → τ' → Prop} {E : σ' → τ' → Prop}
    (h : ∀ s t, P s t → Agree (fun u v => u = read s ∧ v = read' t) x y
      (fun a u v => Q a (write u s) (write' v t)) fun u v => E (write u s) (write' v t)) :
    Agree P (onPart read write x) (Lib.onPart read' write' y) Q E := by
  intro s t hst
  have hxy := h s t hst (read s) (read' t) ⟨rfl, rfl⟩
  rw [exec_onPart, exec_onPart]
  rcases hs : exec x (read s) with ⟨_ | a, u⟩ <;> rcases ht : exec y (read' t) with ⟨_ | b, v⟩ <;>
    rw [hs, ht] at hxy <;> exact hxy

end MyTests.Lib
