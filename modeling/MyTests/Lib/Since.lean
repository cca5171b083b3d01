/-
MyTests/Lib/Since.lean

How often something has happened since something else last did.
-/
import Mathlib

namespace MyTests.Lib

variable {ε : Type*} {p q : ε → Bool} {es : List ε} {e : ε}

/-- The events of kind `q` behind the last of kind `p`. -/
def since (p q : ε → Bool) (es : List ε) : ℕ := (es.reverse.takeWhile fun e => !p e).countP q

theorem since_concat_of_pos (h : p e) : since p q (es ++ [e]) = 0 := by
  rw [since, List.reverse_append, List.reverse_singleton, List.singleton_append,
    List.takeWhile_cons_of_neg (by simpa using h)]
  rfl

theorem since_concat_of_neg (h : ¬ p e) :
    since p q (es ++ [e]) = since p q es + if q e then 1 else 0 := by
  rw [since, List.reverse_append, List.reverse_singleton, List.singleton_append,
    List.takeWhile_cons_of_pos (by simpa using h), List.countP_cons]
  rfl

/-- An event of neither kind. -/
theorem since_concat_same (hp : ¬ p e) (hq : ¬ q e) : since p q (es ++ [e]) = since p q es := by
  rw [since_concat_of_neg hp, if_neg hq, Nat.add_zero]

/-- An event that counts. -/
theorem since_concat_succ (hp : ¬ p e) (hq : q e) :
    since p q (es ++ [e]) = since p q es + 1 := by
  rw [since_concat_of_neg hp, if_pos hq]

end MyTests.Lib
