/-
MyTests/Lib/Rendezvous.lean

One phase of a barrier made of two counting semaphores.  A leader posts tokens
and then collects as many acknowledgements; a follower takes a token, works,
arrives and acknowledges.  The counts of a phase determine each other, and a
leader that has collected everything finds the phase empty.
-/
import Mathlib

namespace MyTests.Lib

/-- `posted` tokens have been posted and `collected` acknowledgements taken;
`tokens` and `acks` are the values of the two semaphores, `working` and
`arrived` the followers between the semaphores and behind them. -/
structure Rendezvous (posted collected tokens acks working arrived : ℕ) : Prop where
  posted_eq : posted = tokens + working + arrived
  arrived_eq : arrived = acks + collected

variable {posted collected tokens acks working arrived : ℕ}

theorem Rendezvous.init : Rendezvous 0 0 0 0 0 0 := ⟨rfl, rfl⟩

theorem Rendezvous.post (h : Rendezvous posted collected tokens acks working arrived) :
    Rendezvous (posted + 1) collected (tokens + 1) acks working arrived :=
  ⟨by have hposted := h.posted_eq; omega, h.arrived_eq⟩

theorem Rendezvous.take (h : Rendezvous posted collected tokens acks working arrived)
    (hne : tokens ≠ 0) :
    Rendezvous posted collected (tokens - 1) acks (working + 1) arrived :=
  ⟨by have hposted := h.posted_eq; omega, h.arrived_eq⟩

theorem Rendezvous.arrive (h : Rendezvous posted collected tokens acks working arrived) {rest : ℕ}
    (hrest : rest + 1 = working) :
    Rendezvous posted collected tokens (acks + 1) rest (arrived + 1) :=
  ⟨by have hposted := h.posted_eq; omega, by have harrived := h.arrived_eq; omega⟩

theorem Rendezvous.collect (h : Rendezvous posted collected tokens acks working arrived)
    (hne : acks ≠ 0) :
    Rendezvous posted (collected + 1) tokens (acks - 1) working arrived :=
  ⟨h.posted_eq, by have harrived := h.arrived_eq; omega⟩

/-- All tokens are used up and all followers have arrived. -/
theorem Rendezvous.all_arrived (h : Rendezvous posted posted tokens acks working arrived) :
    tokens = 0 ∧ working = 0 ∧ acks = 0 ∧ arrived = posted := by
  obtain ⟨hposted, harrived⟩ := h
  omega

/-- When the leader waits in vain, some follower has a token, or can take one. -/
theorem Rendezvous.exists_late (h : Rendezvous posted collected tokens 0 working arrived)
    (hlt : collected < posted) : 0 < tokens + working := by
  obtain ⟨hposted, harrived⟩ := h
  omega

end MyTests.Lib
