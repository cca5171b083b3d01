/-
MyTests/Utf8/Length.lean

Counting the characters of a UTF-8 string: `src/utf8-len.c`, with its two
classifiers of a lead byte (comparisons of a signed char, and a table).

A `char` is eight bits; whether it is signed where it is promoted to `int` is up
to the compiler, and so a parameter.
-/
import MyTests.Lib.Framing
import MyTests.Utf8.Buffer

namespace MyTests.Utf8

open Lib

/-! ### The classifiers -/

/-- Whether a plain `char` is signed. -/
inductive CharSign where
  | signed
  | unsigned

/-- A `char` in an integer expression. -/
def CharSign.promote (sign : CharSign) (c : Byte) : BitVec 32 :=
  match sign with
  | .signed => c.signExtend 32
  | .unsigned => c.zeroExtend 32

def utf8CharLength (sign : CharSign) (c : Byte) : ℕ :=
  if 0 ≤ c.toInt then 1
  else if sign.promote c &&& 0xE0 = 0xC0 then 2
  else if sign.promote c &&& 0xF0 = 0xE0 then 3
  else if sign.promote c &&& 0xF8 = 0xF0 then 4
  else 0

def tbl : List ℕ :=
  [1, 1, 1, 1, 1, 1, 1, 1, 1, 1, 1, 1, 1, 1, 1, 1,
    0, 0, 0, 0, 0, 0, 0, 0,
    2, 2, 2, 2,
    3, 3,
    4,
    0]

theorem tbl_index_lt (c : Byte) : c.toNat >>> 3 < tbl.length := by
  have hc : c.toNat < 2 ^ 8 := c.isLt
  rw [Nat.shiftRight_eq_div_pow]
  show c.toNat / 2 ^ 3 < 32
  omega

def utf8CharLengthTbl (c : Byte) : ℕ := tbl.get ⟨c.toNat >>> 3, tbl_index_lt c⟩

/-! ### The loops -/

/-- The `for` loop over `j`: `n` more bytes, the next at `k`. -/
def continuationLoop (sign : CharSign) (error : Halt) (data : List Byte) :
    ℕ → ℕ → Except Halt Unit
  | 0, _ => pure ()
  | n + 1, k => do
      let c ← readAt data k
      if sign.promote c &&& 0xC0 ≠ 0x80 then throw error
      else continuationLoop sign error data n (k + 1)

/-- The `for` loop over `i`. -/
def lengthLoop (sign : CharSign) (charLength : Byte → ℕ) (error : Halt) (data : List Byte) :
    ℕ → ℕ → ℕ → Except Halt ℕ
  | 0, _, _ => throw .outOfFuel
  | fuel + 1, i, count =>
      if i < data.length then do
        let c ← readAt data i
        let charLen := charLength c
        if charLen = 0 ∨ i + charLen > data.length then throw error
        else do
          continuationLoop sign error data (charLen - 1) (i + 1)
          lengthLoop sign charLength error data fuel (i + charLen) (count + 1)
      else pure count

def utf8Length (sign : CharSign) (data : List Byte) : Except Halt ℕ :=
  lengthLoop sign (utf8CharLength sign) (.exit "utf8_length: ERROR\n" 1) data (data.length + 1) 0 0

def utf8LengthTbl (sign : CharSign) (data : List Byte) : Except Halt ℕ :=
  lengthLoop sign utf8CharLengthTbl (.exit "utf8_length_tbl: ERROR\n" 1) data
    (data.length + 1) 0 0

example : utf8Length .signed [0x55, 0xC7, 0x99, 0xEF, 0x88, 0xBF] = .ok 3 := by decide

/-! ### The grammar -/

/-- `c` begins a unit with `n` continuation bytes. -/
def IsLead (c : Byte) : ℕ → Prop
  | 0 => c.toNat / 2 ^ 7 = 0b0
  | 1 => c.toNat / 2 ^ 5 = 0b110
  | 2 => c.toNat / 2 ^ 4 = 0b1110
  | 3 => c.toNat / 2 ^ 3 = 0b11110
  | _ => False

/-- `c` is of the form 10xxxxxx. -/
def IsContinuation (c : Byte) : Prop := c.toNat / 2 ^ 6 = 0b10

/-- A lead byte and its continuation bytes. -/
def IsUnit : List Byte → Prop
  | [] => False
  | c :: cs => IsLead c cs.length ∧ ∀ d ∈ cs, IsContinuation d

/-- `units` is a decomposition of `data`. -/
def Decomposes (units : List (List Byte)) (data : List Byte) : Prop :=
  units.flatten = data ∧ ∀ u ∈ units, IsUnit u

/-- What a classifier has to say of every byte. -/
def Classifies (charLength : Byte → ℕ) : Prop :=
  ∀ c n, charLength c = n + 1 ↔ IsLead c n

/-- The lengths that a classifier gives are those of the lead bytes, byte by
byte. -/
theorem Classifies.of_bytes {charLength : Byte → ℕ}
    (hbytes : ∀ c : Byte, charLength c ≤ 4 ∧ (charLength c = 1 ↔ c.toNat / 2 ^ 7 = 0b0) ∧
      (charLength c = 2 ↔ c.toNat / 2 ^ 5 = 0b110) ∧ (charLength c = 3 ↔ c.toNat / 2 ^ 4 = 0b1110) ∧
      (charLength c = 4 ↔ c.toNat / 2 ^ 3 = 0b11110)) : Classifies charLength := by
  intro c n
  obtain ⟨hle, h1, h2, h3, h4⟩ := hbytes c
  match n with
  | 0 => exact h1
  | 1 => exact h2
  | 2 => exact h3
  | 3 => exact h4
  | n + 4 => exact iff_of_false (by omega) id

theorem classifies_utf8CharLength (sign : CharSign) : Classifies (utf8CharLength sign) := by
  refine Classifies.of_bytes ?_
  cases sign <;> decide +kernel

theorem classifies_utf8CharLengthTbl : Classifies utf8CharLengthTbl :=
  Classifies.of_bytes (by decide +kernel)

/-- The mask of the inner loop tests for a continuation byte. -/
theorem isContinuation_iff (sign : CharSign) (c : Byte) :
    sign.promote c &&& 0xC0 = 0x80 ↔ IsContinuation c := by
  have hbytes : ∀ c : Byte, sign.promote c &&& 0xC0 = 0x80 ↔ c.toNat / 2 ^ 6 = 0b10 := by
    cases sign <;> decide +kernel
  exact hbytes c

/-- The lead byte tells the length of a unit. -/
theorem selfDelimiting_isUnit : SelfDelimiting IsUnit utf8CharLengthTbl where
  not_nil := id
  length_eq := fun {_ _} hu => ((classifies_utf8CharLengthTbl _ _).mpr hu.1).symm

/-! ### What the loops accept -/

variable {sign : CharSign} {charLength : Byte → ℕ} {error : Halt} {data : List Byte}

theorem continuationLoop_succ {n k : ℕ} (hk : k < data.length) :
    continuationLoop sign error data (n + 1) k =
      if sign.promote data[k] &&& 0xC0 = 0x80 then continuationLoop sign error data n (k + 1)
      else .error error := by
  rw [continuationLoop, readAt_eq hk, ← ite_not]
  rfl

/-- Inside the buffer, the inner loop tests every byte of its range. -/
theorem continuationLoop_eq (sign : CharSign) (error : Halt) {n k : ℕ} (hfit : k + n ≤ data.length) :
    (continuationLoop sign error data n k = .ok () ∧
      ∀ c ∈ (data.drop k).take n, IsContinuation c) ∨
    (continuationLoop sign error data n k = .error error ∧
      ¬ ∀ c ∈ (data.drop k).take n, IsContinuation c) := by
  induction n generalizing k with
  | zero => exact Or.inl ⟨rfl, by simp⟩
  | succ n ih =>
      have hk : k < data.length := by omega
      have htake : (data.drop k).take (n + 1) = data[k] :: (data.drop (k + 1)).take n := by
        rw [List.drop_eq_getElem_cons hk, List.take_succ_cons]
      rw [continuationLoop_succ hk, htake, List.forall_mem_cons, ← isContinuation_iff sign]
      by_cases hc : sign.promote data[k] &&& 0xC0 = 0x80
      · rw [if_pos hc]
        simpa only [hc, true_and] using ih (by omega)
      · rw [if_neg hc]
        exact Or.inr ⟨rfl, fun h => hc h.1⟩

theorem lengthLoop_succ {fuel i count : ℕ} (hi : i < data.length) :
    lengthLoop sign charLength error data (fuel + 1) i count =
      if charLength data[i] = 0 ∨ i + charLength data[i] > data.length then .error error
      else continuationLoop sign error data (charLength data[i] - 1) (i + 1) >>= fun _ =>
        lengthLoop sign charLength error data fuel (i + charLength data[i]) (count + 1) := by
  rw [lengthLoop, if_pos hi, readAt_eq hi]
  rfl

/-- The stream behind the continuation bytes. -/
theorem drop_unit (i n : ℕ) : data.drop (i + (n + 1)) = (data.drop (i + 1)).drop n := by
  rw [List.drop_drop, Nat.add_right_comm, Nat.add_assoc]

theorem lengthLoop_end {fuel i count : ℕ} (hi : ¬ i < data.length) :
    lengthLoop sign charLength error data (fuel + 1) i count = .ok count := by
  rw [lengthLoop, if_neg hi]
  rfl

/-- The loop takes the units of a decomposition one by one. -/
theorem lengthLoop_units (hclass : Classifies charLength) {units : List (List Byte)}
    {fuel i count : ℕ} (hunits : Decomposes units (data.drop i))
    (hfuel : data.length - i < fuel) :
    lengthLoop sign charLength error data fuel i count = .ok (count + units.length) := by
  induction units generalizing fuel i count with
  | nil =>
      obtain ⟨fuel, rfl⟩ : ∃ n, fuel = n + 1 := ⟨fuel - 1, by omega⟩
      have hdone : ¬ i < data.length := not_lt.mpr (List.drop_eq_nil_iff.mp hunits.1.symm)
      exact lengthLoop_end hdone
  | cons u units ih =>
      obtain ⟨hflat, hall⟩ := hunits
      obtain ⟨hu, hrest⟩ := List.forall_mem_cons.mp hall
      obtain ⟨fuel, rfl⟩ : ∃ n, fuel = n + 1 := ⟨fuel - 1, by omega⟩
      match u, hu with
      | c :: cs, ⟨hlead, hcont⟩ =>
          rw [List.flatten_cons, List.cons_append] at hflat
          have hi : i < data.length := by
            by_contra hge
            rw [List.drop_eq_nil_of_le (not_lt.mp hge)] at hflat
            cases hflat
          rw [List.drop_eq_getElem_cons hi] at hflat
          obtain ⟨rfl, htail⟩ := List.cons_eq_cons.mp hflat
          -- the lead byte tells how many bytes the loop takes: those of the unit
          have hlen : charLength data[i] = cs.length + 1 := (hclass _ _).mpr hlead
          have hfit : cs.length + units.flatten.length = data.length - (i + 1) := by
            rw [← List.length_append, htail, List.length_drop]
          have htake : (data.drop (i + 1)).take cs.length = cs := by
            rw [← htail, List.take_left]
          have hdrop : data.drop (i + (cs.length + 1)) = units.flatten := by
            rw [drop_unit, ← htail, List.drop_left]
          rw [lengthLoop_succ hi, hlen, if_neg (by omega), Nat.add_sub_cancel]
          obtain ⟨hok, -⟩ | ⟨-, hnot⟩ := continuationLoop_eq sign error
            (show i + 1 + cs.length ≤ data.length by omega)
          · rw [hok]
            show lengthLoop sign charLength error data fuel (i + (cs.length + 1)) (count + 1) = _
            rw [ih ⟨hdrop.symm, hrest⟩ (by omega), List.length_cons]
            congr 1
            omega
          · exact absurd (htake.symm ▸ hcont) hnot

/-- The loop ends, either at the error exit or with a decomposition. -/
theorem lengthLoop_cases (hclass : Classifies charLength) {fuel i count : ℕ}
    (hfuel : data.length - i < fuel) :
    lengthLoop sign charLength error data fuel i count = .error error ∨
      ∃ units, Decomposes units (data.drop i) := by
  induction fuel generalizing i count with
  | zero => omega
  | succ fuel ih =>
      by_cases hi : i < data.length
      · rw [lengthLoop_succ hi]
        -- a byte that leads nothing, or too little left behind it, is the error exit
        by_cases hbad : charLength data[i] = 0 ∨ i + charLength data[i] > data.length
        · exact Or.inl (if_pos hbad)
        · rw [if_neg hbad]
          obtain ⟨n, hn⟩ : ∃ n, charLength data[i] = n + 1 := ⟨charLength data[i] - 1, by omega⟩
          rw [hn, Nat.add_sub_cancel]
          obtain ⟨hok, hcont⟩ | ⟨herr, -⟩ := continuationLoop_eq sign error
            (show i + 1 + n ≤ data.length by omega)
          · rw [hok]
            rcases @ih (i + (n + 1)) (count + 1) (by omega) with herr | ⟨units, hunits⟩
            · exact Or.inl herr
            · -- the bytes just taken are the first unit
              refine Or.inr ⟨(data[i] :: (data.drop (i + 1)).take n) :: units, ?_, ?_⟩
              · rw [List.flatten_cons, hunits.1, drop_unit i n, List.cons_append, List.take_append_drop,
                  ← List.drop_eq_getElem_cons hi]
              · have hlength : ((data.drop (i + 1)).take n).length = n := by
                  rw [List.length_take, List.length_drop]
                  omega
                refine List.forall_mem_cons.mpr ⟨⟨?_, hcont⟩, hunits.2⟩
                rw [hlength]
                exact (hclass _ _).mp hn
          · rw [herr]
            exact Or.inl rfl
      · exact Or.inr ⟨[], by rw [List.flatten_nil, List.drop_eq_nil_of_le (not_lt.mp hi)], nofun⟩

/-- Both loops, from the start. -/
theorem lengthLoop_grammar (hclass : Classifies charLength) :
    (∃ units, Decomposes units data ∧
      lengthLoop sign charLength error data (data.length + 1) 0 0 = .ok units.length) ∨
    ((¬ ∃ units, Decomposes units data) ∧
      lengthLoop sign charLength error data (data.length + 1) 0 0 = .error error) := by
  by_cases hex : ∃ units, Decomposes units data
  · obtain ⟨units, hunits⟩ := hex
    have hfrom : Decomposes units (data.drop 0) := by rwa [List.drop_zero]
    have hloop : lengthLoop sign charLength error data (data.length + 1) 0 0
        = .ok (0 + units.length) := lengthLoop_units hclass hfrom (Nat.lt_succ_self _)
    exact Or.inl ⟨units, hunits, by rw [hloop, Nat.zero_add]⟩
  · refine Or.inr ⟨hex, ?_⟩
    have hcases := @lengthLoop_cases sign _ error data hclass (data.length + 1) 0 0
      (Nat.lt_succ_self _)
    rw [List.drop_zero] at hcases
    exact hcases.resolve_right hex

/-- **`utf8_length` accepts exactly its grammar.**  On every string, either there
is a decomposition into units, all decompositions are the same, and both
functions return the number of units; or there is none, and both take the error
exit.  Neither outcome is a read outside the string. -/
theorem utf8Length_grammar (sign : CharSign) (data : List Byte) :
    (∃ units, Decomposes units data ∧ (∀ units', Decomposes units' data → units' = units) ∧
      utf8Length sign data = .ok units.length ∧ utf8LengthTbl sign data = .ok units.length) ∨
    ((¬ ∃ units, Decomposes units data) ∧
      utf8Length sign data = .error (.exit "utf8_length: ERROR\n" 1) ∧
      utf8LengthTbl sign data = .error (.exit "utf8_length_tbl: ERROR\n" 1)) := by
  have hunique {us vs : List (List Byte)} (hus : Decomposes us data) (hvs : Decomposes vs data) :
      us = vs := selfDelimiting_isUnit.flatten_injective hus.2 hvs.2 (hus.1.trans hvs.1.symm)
  obtain ⟨units, hunits, hlength⟩ | ⟨hnone, hlength⟩ :=
    lengthLoop_grammar (classifies_utf8CharLength sign)
  · obtain ⟨units', hunits', htbl⟩ | ⟨hnone, -⟩ := lengthLoop_grammar classifies_utf8CharLengthTbl
    · obtain rfl := hunique hunits' hunits
      exact Or.inl ⟨units', hunits', fun _ h => hunique h hunits', hlength, htbl⟩
    · exact absurd ⟨units, hunits⟩ hnone
  · obtain ⟨units', hunits', -⟩ | ⟨-, htbl⟩ := lengthLoop_grammar classifies_utf8CharLengthTbl
    · exact absurd ⟨units', hunits'⟩ hnone
    · exact Or.inr ⟨hnone, hlength, htbl⟩

end MyTests.Utf8
