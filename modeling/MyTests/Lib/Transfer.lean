/-
MyTests/Lib/Transfer.lean

One message on a byte stream, cut anywhere by its writer and by its reader.
What the reader has, what is in flight and what the writer still holds make up
the message, in this order; partial writes and partial reads keep that.

The second section is about the buffer that a reader fills from left to right.
-/
import Mathlib

namespace MyTests.Lib

variable {α : Type*} {msg got flight rest : List α} {k : ℕ}

/-! ### Writer and reader -/

/-- The message `msg` under way: `got` has been read, `flight` is on the stream
and `rest` is to be written. -/
def Transfer (msg got flight rest : List α) : Prop := got ++ (flight ++ rest) = msg

namespace Transfer

/-- A message that is not begun, on an empty stream. -/
theorem start (h : flight = []) : Transfer msg [] flight msg := by
  rw [h]
  rfl

theorem length_eq (h : Transfer msg got flight rest) :
    got.length + (flight.length + rest.length) = msg.length := by
  rw [← h, List.length_append, List.length_append]

/-- A partial write. -/
theorem send (h : Transfer msg got flight rest) (k : ℕ) :
    Transfer msg got (flight ++ rest.take k) (rest.drop k) := by
  unfold Transfer
  rw [List.append_assoc, List.take_append_drop]
  exact h

/-- A partial read. -/
theorem recv (h : Transfer msg got flight rest) (k : ℕ) :
    Transfer msg (got ++ flight.take k) (flight.drop k) rest := by
  unfold Transfer
  rw [List.append_assoc, ← List.append_assoc (flight.take k), List.take_append_drop]
  exact h

/-- A reader that counts up to the length of the message has the message, and
nothing else is left. -/
theorem complete (h : Transfer msg got flight rest) (hlen : got.length = msg.length) :
    got = msg ∧ flight = [] ∧ rest = [] := by
  have hsum := h.length_eq
  have hflight : flight = [] := List.eq_nil_of_length_eq_zero (by omega)
  have hrest : rest = [] := List.eq_nil_of_length_eq_zero (by omega)
  refine ⟨?_, hflight, hrest⟩
  rw [← h, hflight, hrest, List.append_nil, List.append_nil]

/-- When the writer has finished and the reader has not, there is something to
read. -/
theorem flight_ne_nil (h : Transfer msg got flight []) (hlen : got.length < msg.length) :
    flight ≠ [] := by
  rintro rfl
  have hsum := h.length_eq
  simp only [List.length_nil] at hsum
  omega

theorem flight_infix (h : Transfer msg got flight rest) : flight <:+: msg :=
  ⟨got, rest, by rw [← h, List.append_assoc]⟩

end Transfer

/-! ### The buffer of the reader -/

/-- `data` is stored in `buf` from `off` on. -/
def splice (buf : List α) (off : ℕ) (data : List α) : List α :=
  buf.take off ++ data ++ buf.drop (off + data.length)

theorem length_splice {buf data : List α} {off : ℕ} (h : off + data.length ≤ buf.length) :
    (splice buf off data).length = buf.length := by
  simp only [splice, List.length_append, List.length_take, List.length_drop]
  omega

/-- The filled part grows by what is stored behind it. -/
theorem take_splice {buf data : List α} (hgot : buf.take got.length = got) :
    (splice buf got.length data).take (got ++ data).length = got ++ data := by
  unfold splice
  rw [hgot]
  exact List.take_left

/-- A buffer that is filled to its end holds what was read. -/
theorem eq_of_take_length {buf : List α} (hgot : buf.take got.length = got)
    (hlen : got.length = buf.length) : buf = got := by
  rw [← hgot, hlen, List.take_length]

/-- **The last read.**  A reader that asks for the rest of the message, and gets
as much, has the message on the stream and in its buffer. -/
theorem Transfer.finish {buf : List α} (h : Transfer msg got flight rest)
    (hgot : buf.take got.length = got) (hbuf : buf.length = msg.length)
    (hle : got.length ≤ msg.length) (havail : msg.length - got.length ≤ flight.length) :
    got ++ flight.take (msg.length - got.length) = msg ∧
      splice buf got.length (flight.take (msg.length - got.length)) = msg ∧
      flight.drop (msg.length - got.length) = [] ∧ rest = [] := by
  have hdata : (flight.take (msg.length - got.length)).length = msg.length - got.length := by
    rw [List.length_take, Nat.min_eq_left havail]
  have hlen : (got ++ flight.take (msg.length - got.length)).length = msg.length := by
    rw [List.length_append, hdata, Nat.add_sub_cancel' hle]
  obtain ⟨htaken, hflight, hrest⟩ := (h.recv (msg.length - got.length)).complete hlen
  have hsplice : (splice buf got.length (flight.take (msg.length - got.length))).length = msg.length := by
    rw [length_splice (by omega), hbuf]
  refine ⟨htaken, ?_, hflight, hrest⟩
  exact (eq_of_take_length (take_splice hgot) (hlen.trans hsplice.symm)).trans htaken

end MyTests.Lib
