/-
MyTests/Lib/Segments.lean

A trace that falls into rounds.  A marked event ends a round; `segments` has the
rounds that are complete, without their marks, and the events since.
-/
import Mathlib

namespace MyTests.Lib

variable {ε : Type*} {mark : ε → Bool} {es : List ε} {e : ε}

/-- One more event. -/
def extend (mark : ε → Bool) (segs : List (List ε) × List ε) (e : ε) : List (List ε) × List ε :=
  if mark e then (segs.1 ++ [segs.2], []) else (segs.1, segs.2 ++ [e])

/-- The complete rounds, and the current one. -/
def segments (mark : ε → Bool) (es : List ε) : List (List ε) × List ε :=
  es.foldl (extend mark) ([], [])

theorem segments_concat_mark (he : mark e = true) :
    segments mark (es ++ [e]) = ((segments mark es).1 ++ [(segments mark es).2], []) := by
  rw [segments, List.foldl_append]
  exact if_pos he

theorem segments_concat (he : mark e = false) :
    segments mark (es ++ [e]) = ((segments mark es).1, (segments mark es).2 ++ [e]) := by
  rw [segments, List.foldl_append]
  exact if_neg (by rw [he]; exact Bool.false_ne_true)

/-- The segments have all events but the marks. -/
theorem flatten_segments : (segments mark es).1.flatten ++ (segments mark es).2
    = es.filter fun e => !mark e := by
  induction es using List.reverseRecOn with
  | nil => rfl
  | append_singleton es e ih =>
      rw [List.filter_append, ← ih]
      cases he : mark e with
      | true => simp [segments_concat_mark he, he]
      | false => simp [segments_concat he, he]

end MyTests.Lib
