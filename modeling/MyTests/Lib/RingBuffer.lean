/-
MyTests/Lib/RingBuffer.lean

A ring of `n` slots that keeps the newest `n` of the items pushed to it.  Two
cursors say where the oldest and the newest item stand; there is no count, and the
ring is never empty.

`Keeps n h r` says that the ring `r` is what the pushed items `h` leave.  A push
keeps that (`Keeps.push`), and it fixes the ring up to the items that are gone
(`Keeps.eq_iff`).
-/
import Mathlib

namespace MyTests.Lib

variable {α : Type*}

/-- A write to an array whose slots are `none` until they are written. -/
def store (slots : List (Option α)) (i : ℕ) (x : α) : Option (List (Option α)) :=
  if i < slots.length then some (slots.set i (some x)) else none

structure RingBuffer (α : Type*) where
  slots : List (Option α)
  first : ℕ
  last : ℕ

namespace RingBuffer

/-- The newest cursor moves on, and pushes the oldest one along when it meets it. -/
def push (n : ℕ) (r : RingBuffer α) (x : α) : Option (RingBuffer α) :=
  let last := (r.last + 1) % n
  let first := if last = r.first then (r.first + 1) % n else r.first
  (store r.slots last x).map fun slots => ⟨slots, first, last⟩

/-- The ring that the items `h` leave: item `k`, as long as it is one of the newest
`n`, is in slot `k % n`. -/
structure Keeps (n : ℕ) (h : List α) (r : RingBuffer α) : Prop where
  pos : 0 < h.length
  last : r.last = (h.length - 1) % n
  first : r.first = (h.length - n) % n
  length : r.slots.length = n
  slot : ∀ k, h.length - n ≤ k → k < h.length - n + n → r.slots[k % n]? = some h[k]?

variable {n : ℕ} {h h' : List α} {r r' : RingBuffer α}

/-- Two items less than `n` apart have slots of their own. -/
theorem mod_ne_mod {i j : ℕ} (hij : i < j) (hj : j < i + n) : i % n ≠ j % n := by
  intro heq
  have hle : i + n ≤ j := Nat.ModEq.add_le_of_lt heq hij
  exact absurd hj (Nat.not_lt.mpr hle)

/-- Every slot is that of one item of a window of `n`. -/
theorem exists_mod_eq {j : ℕ} (w : ℕ) (hj : j < n) : ∃ k, w ≤ k ∧ k < w + n ∧ k % n = j := by
  have hw := Nat.div_add_mod w n
  have hwn := Nat.mod_lt w (Nat.zero_lt_of_lt hj)
  rcases Nat.lt_or_ge j (w % n) with hlt | hge
  · refine ⟨w + n - (w % n - j), by omega, by omega, ?_⟩
    rw [show w + n - (w % n - j) = j + n * (w / n + 1) by rw [Nat.mul_succ]; omega,
      Nat.add_mul_mod_self_left, Nat.mod_eq_of_lt hj]
  · refine ⟨w + (j - w % n), by omega, by omega, ?_⟩
    rw [show w + (j - w % n) = j + n * (w / n) by omega, Nat.add_mul_mod_self_left,
      Nat.mod_eq_of_lt hj]

/-- The ring of one item. -/
theorem Keeps.singleton (hn : 0 < n) (x : α) :
    Keeps n [x] ⟨some x :: List.replicate (n - 1) none, 0, 0⟩ where
  pos := Nat.one_pos
  last := (Nat.zero_mod n).symm
  first := by
    rw [List.length_singleton, Nat.sub_eq_zero_of_le hn, Nat.zero_mod]
  length := by
    rw [List.length_cons, List.length_replicate, Nat.sub_add_cancel hn]
  slot := by
    intro k _ hk
    rw [List.length_singleton, Nat.sub_eq_zero_of_le hn, Nat.zero_add] at hk
    rw [Nat.mod_eq_of_lt hk]
    cases k with
    | zero => rfl
    | succ k =>
        rw [List.getElem?_cons_succ, List.getElem?_cons_succ, List.getElem?_replicate,
          if_pos (by omega)]
        rfl

/-- **A push.** -/
theorem Keeps.push (hn : 0 < n) (hr : Keeps n h r) (x : α) :
    ∃ r', r.push n x = some r' ∧ Keeps n (h ++ [x]) r' := by
  have hpos := hr.pos
  have hlast : (r.last + 1) % n = h.length % n := by
    rw [hr.last, Nat.mod_add_mod, Nat.sub_add_cancel hpos]
  -- the cursors meet from the moment the ring is full
  have hfirst : (if h.length % n = r.first then (r.first + 1) % n else r.first)
      = (h.length + 1 - n) % n := by
    rw [hr.first]
    rcases Nat.lt_or_ge h.length n with hlt | hge
    · rw [Nat.sub_eq_zero_of_le hlt.le, Nat.zero_mod, Nat.mod_eq_of_lt hlt, if_neg hpos.ne',
        Nat.sub_eq_zero_of_le hlt, Nat.zero_mod]
    · rw [if_pos (Nat.mod_eq_sub_mod hge), Nat.mod_add_mod, Nat.sub_add_comm hge]
  have hstore : store r.slots (h.length % n) x = some (r.slots.set (h.length % n) (some x)) := by
    apply if_pos
    rw [hr.length]
    exact Nat.mod_lt _ hn
  refine ⟨⟨r.slots.set (h.length % n) (some x), (h.length + 1 - n) % n, h.length % n⟩, ?_, ?_⟩
  · show (store r.slots ((r.last + 1) % n) x).map _ = _
    rw [hlast, hstore, hfirst]
    rfl
  · constructor
    · exact Nat.lt_of_lt_of_le hpos (by rw [List.length_append]; exact Nat.le_add_right _ _)
    · rw [List.length_append, List.length_singleton, Nat.add_sub_cancel]
    · rw [List.length_append, List.length_singleton]
    · rw [List.length_set, hr.length]
    · intro k hk hkn
      rw [List.length_append, List.length_singleton] at hk hkn
      dsimp only
      rcases eq_or_ne k h.length with rfl | hne
      · rw [List.getElem?_set_self (by rw [hr.length]; exact Nat.mod_lt _ hn),
          List.getElem?_concat_length]
      · have hslot : h.length % n ≠ k % n := by
          rcases Nat.lt_or_gt_of_ne hne with hlt | hgt
          · exact (mod_ne_mod hlt (by omega)).symm
          · exact mod_ne_mod hgt (by omega)
        rw [List.getElem?_set_ne hslot, hr.slot k (by omega) (by omega)]
        rcases Nat.lt_or_gt_of_ne hne with hlt | hgt
        · rw [List.getElem?_append_left hlt]
        · rw [List.getElem?_eq_none hgt.le, List.getElem?_eq_none (by simp; omega)]

/-- The oldest item kept is in the slot `first`. -/
theorem Keeps.getElem?_first (hn : 0 < n) (hr : Keeps n h r) :
    r.slots[r.first]? = some h[h.length - n]? := by
  rw [hr.first]
  exact hr.slot _ le_rfl (Nat.lt_add_of_pos_right hn)

theorem Keeps.first_lt (hn : 0 < n) (hr : Keeps n h r) : r.first < n := by
  rw [hr.first]
  exact Nat.mod_lt _ hn

/-- **The ring is fixed by the newest items.** -/
theorem Keeps.eq_iff (hr : Keeps n h r) (hr' : Keeps n h' r') (hlen : h'.length = h.length) :
    r = r' ↔ h.drop (h.length - n) = h'.drop (h.length - n) := by
  have hslot' := hr'.slot
  rw [hlen] at hslot'
  constructor
  · rintro rfl
    apply List.ext_getElem?
    intro i
    rw [List.getElem?_drop, List.getElem?_drop]
    -- the slots of the window tell its items, and behind it there are none
    rcases Nat.lt_or_ge i n with hi | hi
    · have hitem := hr.slot (h.length - n + i) (Nat.le_add_right _ _) (Nat.add_lt_add_left hi _)
      rw [hslot' _ (Nat.le_add_right _ _) (Nat.add_lt_add_left hi _)] at hitem
      exact (Option.some.inj hitem).symm
    · rw [List.getElem?_eq_none (by omega), List.getElem?_eq_none (by omega)]
  · intro hdrop
    have hslots : r.slots = r'.slots := by
      apply List.ext_getElem?
      intro j
      rcases Nat.lt_or_ge j n with hj | hj
      · obtain ⟨k, hk, hkn, rfl⟩ := exists_mod_eq (h.length - n) hj
        rw [hr.slot k hk hkn, hslot' k hk hkn, ← Nat.add_sub_cancel' hk, ← List.getElem?_drop,
          ← List.getElem?_drop, hdrop]
      · rw [List.getElem?_eq_none (by rw [hr.length]; exact hj),
          List.getElem?_eq_none (by rw [hr'.length]; exact hj)]
    have hfirst : r.first = r'.first := by rw [hr.first, hr'.first, hlen]
    have hlast : r.last = r'.last := by rw [hr.last, hr'.last, hlen]
    cases r
    cases r'
    subst hslots hfirst hlast
    rfl

end RingBuffer

end MyTests.Lib
