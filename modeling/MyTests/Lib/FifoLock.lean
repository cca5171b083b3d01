/-
MyTests/Lib/FifoLock.lean

What a lock is for that serves its callers in the order in which they come.

The callers that do not have the lock stand in a line, and the first of it
gets the lock when it is free.  So the callers that have got the lock are the
first ones that have joined, and each has given it back before the next gets
it (`FifoLock.served`).  A lock implements this when it simulates
`FifoLock.Step`.
-/
import MyTests.Lib.Transition

namespace MyTests.Lib.FifoLock

variable {T : Type*}

/-- Who has the lock, and the line of those who have joined and do not have it yet. -/
structure State (T : Type*) where
  holder : Option T
  waiting : List T

/-- Everybody who has joined and not left. -/
def State.queue (s : State T) : List T := s.holder.toList ++ s.waiting

/-- What a caller does, in this order: it joins, it gets the lock, it gives it back. -/
inductive Event (T : Type*) where
  | join (t : T)
  | acquire (t : T)
  | release (t : T)
deriving DecidableEq

/-- The caller who joins, if the event is that one. -/
def Event.joins : Event T → Option T
  | join t => some t
  | acquire _ | release _ => none

/-- The caller who gets the lock. -/
def Event.acquires : Event T → Option T
  | acquire t => some t
  | join _ | release _ => none

/-- The caller who gives the lock back. -/
def Event.releases : Event T → Option T
  | release t => some t
  | join _ | acquire _ => none

/-- Anybody joins at the end who is not there yet; the first of the line gets the free lock; the
holder gives it back. -/
inductive Step : State T → List (Event T) → State T → Prop
  | join {s : State T} (t) (h : t ∉ s.queue) :
      Step s [.join t] ⟨s.holder, s.waiting ++ [t]⟩
  | acquire {t q} : Step ⟨none, t :: q⟩ [.acquire t] ⟨some t, q⟩
  | release {t q} : Step ⟨some t, q⟩ [.release t] ⟨none, q⟩

/-- The free lock, with nobody waiting. -/
def init : State T := ⟨none, []⟩

/-- **First come, first served, one at a time.** -/
theorem served {es : List (Event T)} {s : State T} (h : Run Step init es s) :
    es.filterMap Event.joins = es.filterMap Event.acquires ++ s.waiting
      ∧ es.filterMap Event.acquires = es.filterMap Event.releases ++ s.holder.toList := by
  -- the callers in the order of joining are those served and then those waiting
  refine Run.invariant (I := fun es s => es.filterMap Event.joins
    = es.filterMap Event.acquires ++ s.waiting
      ∧ es.filterMap Event.acquires = es.filterMap Event.releases ++ s.holder.toList)
    ⟨rfl, rfl⟩ ?_ h
  rintro es s₁ e s₂ ⟨hjoin, hacq⟩ hstep
  rw [List.filterMap_append, List.filterMap_append, List.filterMap_append, hjoin]
  cases hstep with
  | join t ht =>
      refine ⟨?_, ?_⟩
      · simp [Event.joins, Event.acquires]
      · simpa only [Event.acquires, Event.releases, List.filterMap_cons, List.filterMap_nil,
          List.append_nil] using hacq
  | acquire =>
      refine ⟨?_, ?_⟩
      · simp [Event.joins, Event.acquires]
      · rw [hacq]
        simp [Event.acquires, Event.releases]
  | release =>
      refine ⟨?_, ?_⟩
      · simp [List.filterMap_cons, Event.joins, Event.acquires]
      · rw [hacq]
        simp [Event.acquires, Event.releases]

end MyTests.Lib.FifoLock
