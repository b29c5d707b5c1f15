-- SUMMARY: Which texts are literals, and what integers in decimal are read as.
import Mathlib
import Bytecode.Assembly.Literal

/-!
# Decimal literals

A literal is one or more digits after a sign that is allowed, and it is read as the number that they
make up, if this number is within the limit. Nothing else is read at all. The decimal digits of a number
make up this number, so every operand that an instruction can have, and every constant down to the least,
is read back from its text.
-/

namespace Bytecode.Assembly.Literal

theorem digit?_of_isDigit {c : Char} (h : c.isDigit) : digit? c = some (c.toNat - '0'.toNat) :=
  if_pos (Char.isDigit_iff_toNat.mp h)

theorem le_ofDigitChars (cs : List Char) (n : Nat) : n ≤ Nat.ofDigitChars 10 cs n := by
  induction cs generalizing n with
  | nil => exact le_rfl
  | cons c cs ih =>
    rw [Nat.ofDigitChars_cons]
    exact le_trans (by omega) (ih _)

theorem digits_of_isDigit {limit : Nat} {overflow : LiteralError} {cs : List Char} {n : Nat}
    (hdigits : ∀ c ∈ cs, c.isDigit) (hlimit : Nat.ofDigitChars 10 cs n ≤ limit) :
    digits limit overflow n cs = .ok (Nat.ofDigitChars 10 cs n) := by
  induction cs generalizing n with
  | nil => rfl
  | cons c cs ih =>
    obtain ⟨hc, hcs⟩ := List.forall_mem_cons.mp hdigits
    rw [Nat.ofDigitChars_cons] at hlimit ⊢
    -- The value grows with each digit, so it is within the limit all along.
    have hbelow : ¬ limit < 10 * n + (c.toNat - '0'.toNat) :=
      not_lt.mpr ((le_ofDigitChars cs _).trans hlimit)
    simp only [digits, digit?_of_isDigit hc, if_neg hbelow]
    exact ih hcs hlimit

theorem isDigit_of_digit? {c : Char} {d : Nat} (h : digit? c = some d) :
    c.isDigit ∧ d = c.toNat - '0'.toNat := by
  unfold digit? at h
  split at h
  · rename_i hrange
    cases h
    exact ⟨Char.isDigit_iff_toNat.mpr hrange, rfl⟩
  · cases h

theorem ofDigitChars_of_digits {limit : Nat} {overflow : LiteralError} {cs : List Char} {n m : Nat}
    (h : digits limit overflow n cs = .ok m) (hn : n ≤ limit) :
    (∀ c ∈ cs, c.isDigit) ∧ Nat.ofDigitChars 10 cs n = m ∧ m ≤ limit := by
  induction cs generalizing n with
  | nil =>
    cases h
    exact ⟨nofun, rfl, hn⟩
  | cons c cs ih =>
    rw [digits] at h
    cases hdigit : digit? c with
    | none => simp [hdigit] at h
    | some d =>
      simp only [hdigit] at h
      obtain ⟨hc, rfl⟩ := isDigit_of_digit? hdigit
      split at h
      · cases h
      · rename_i hlimit
        obtain ⟨hcs, hvalue, hm⟩ := ih h (Nat.not_lt.mp hlimit)
        exact ⟨List.forall_mem_cons.mpr ⟨hc, hcs⟩, hvalue, hm⟩

end Literal

-- ---------------------------------------------------------------------------
-- What is a literal
-- ---------------------------------------------------------------------------

/-- One or more decimal digits, and the number that they make up. -/
structure Numeral (cs : List Char) (n : Nat) : Prop where
  ne_nil : cs ≠ []
  isDigit : ∀ c ∈ cs, c.isDigit
  value : Nat.ofDigitChars 10 cs 0 = n

/-- A numeral, or a plus sign and a numeral. -/
inductive Unsigned : List Char → Nat → Prop
  | bare {cs : List Char} {n : Nat} (h : Numeral cs n) : Unsigned cs n
  | plus {cs : List Char} {n : Nat} (h : Numeral cs n) : Unsigned ('+' :: cs) n

/-- A numeral, with any sign or none. -/
inductive Signed : List Char → Int → Prop
  | unsigned {cs : List Char} {n : Nat} (h : Unsigned cs n) : Signed cs n
  | minus {cs : List Char} {n : Nat} (h : Numeral cs n) : Signed ('-' :: cs) (-n)

theorem Numeral.not_cons {sign : Char} (hsign : ¬ sign.isDigit) {cs : List Char} {n : Nat} :
    ¬ Numeral (sign :: cs) n := fun h => hsign (h.isDigit sign List.mem_cons_self)

theorem unsigned_plus_iff {cs : List Char} {n : Nat} : Unsigned ('+' :: cs) n ↔ Numeral cs n := by
  refine ⟨fun h => ?_, .plus⟩
  cases h with
  | bare h => exact absurd h (Numeral.not_cons (by decide))
  | plus h => exact h

theorem unsigned_iff_numeral {cs : List Char} {n : Nat} (hplus : ∀ rest, cs ≠ '+' :: rest) :
    Unsigned cs n ↔ Numeral cs n := by
  refine ⟨fun h => ?_, .bare⟩
  cases h with
  | bare h => exact h
  | plus h => exact absurd rfl (hplus _)

theorem signed_minus_iff {cs : List Char} {z : Int} :
    Signed ('-' :: cs) z ↔ ∃ n : Nat, Numeral cs n ∧ z = -n := by
  constructor
  · intro h
    cases h with
    | unsigned h =>
      rw [unsigned_iff_numeral (by simp)] at h
      exact absurd h (Numeral.not_cons (by decide))
    | minus h => exact ⟨_, h, rfl⟩
  · rintro ⟨n, h, rfl⟩
    exact .minus h

theorem signed_iff_unsigned {cs : List Char} {z : Int} (hminus : ∀ rest, cs ≠ '-' :: rest) :
    Signed cs z ↔ ∃ n : Nat, Unsigned cs n ∧ z = n := by
  constructor
  · intro h
    cases h with
    | unsigned h => exact ⟨_, h, rfl⟩
    | minus h => exact absurd rfl (hminus _)
  · rintro ⟨n, h, rfl⟩
    exact .unsigned h

namespace Literal

theorem magnitude_eq_ok_iff {limit : Nat} {overflow : LiteralError} {cs : List Char} {n : Nat} :
    magnitude limit overflow cs = .ok n ↔ Numeral cs n ∧ n ≤ limit := by
  constructor
  · intro h
    cases cs with
    | nil => cases h
    | cons c cs =>
      obtain ⟨hdigits, hvalue, hn⟩ := ofDigitChars_of_digits h (Nat.zero_le limit)
      exact ⟨⟨List.cons_ne_nil c cs, hdigits, hvalue⟩, hn⟩
  · rintro ⟨⟨hne, hdigits, rfl⟩, hn⟩
    rw [magnitude]
    · exact digits_of_isDigit hdigits hn
    · exact hne

/-- What is read as an unsigned literal: a numeral of 64 bits, with a plus sign or without. -/
theorem unsigned_eq_ok_iff {cs : List Char} {n : Nat} :
    unsigned cs = .ok n ↔ Unsigned cs n ∧ n < 2 ^ 64 := by
  have hlimit : n ≤ 0xffffffffffffffff ↔ n < 2 ^ 64 := Nat.lt_succ_iff.symm
  unfold unsigned
  split
  · rw [unsigned_iff_numeral (by simp)]
    simp only [reduceCtorEq, false_iff, not_and]
    exact fun h => absurd rfl h.ne_nil
  · rw [magnitude_eq_ok_iff, hlimit, unsigned_plus_iff]
  · rename_i hplus
    rw [magnitude_eq_ok_iff, hlimit, unsigned_iff_numeral hplus]

/-- A numeral is read as a word if its value, with its sign, is one that the words have. -/
theorem map_magnitude_eq_ok_iff {limit : Nat} {overflow : LiteralError} {make : Nat → Int64}
    {value : Nat → Int} (hmake : ∀ n ≤ limit, (make n).toInt = value n)
    (hlimit : ∀ n (w : Int64), w.toInt = value n → n ≤ limit) {cs : List Char} {w : Int64} :
    (magnitude limit overflow cs).map make = .ok w ↔ ∃ n, Numeral cs n ∧ w.toInt = value n := by
  constructor
  · intro h
    cases hmagnitude : magnitude limit overflow cs with
    | error e => simp [hmagnitude, Except.map] at h
    | ok n =>
      rw [hmagnitude] at h
      cases h
      obtain ⟨hnumeral, hn⟩ := magnitude_eq_ok_iff.mp hmagnitude
      exact ⟨n, hnumeral, hmake n hn⟩
  · rintro ⟨n, hnumeral, hw⟩
    have hn := hlimit n w hw
    have hword : make n = w := by rw [← Int64.toInt_inj, hmake n hn, hw]
    rw [magnitude_eq_ok_iff.mpr ⟨hnumeral, hn⟩, ← hword]
    rfl

/-- What is read as a signed literal: a numeral with a sign or without, if the words have its value. -/
theorem signed_eq_ok_iff {cs : List Char} {w : Int64} : signed cs = .ok w ↔ Signed cs w.toInt := by
  have hofNat : ∀ n ≤ 0x7fffffffffffffff, (Int64.ofNat n).toInt = n := fun n hn =>
    Int64.toInt_ofNat_of_lt (by omega)
  have hpositive : ∀ (n : Nat) (w : Int64), w.toInt = n → n ≤ 0x7fffffffffffffff := by
    intro n w hw
    have hhigh := w.toInt_lt
    omega
  have hofInt : ∀ n ≤ 0x8000000000000000, (Int64.ofInt (-(n : Nat))).toInt = -n := fun n hn =>
    Int64.toInt_ofInt_of_le (by omega) (by omega)
  have hnegative : ∀ (n : Nat) (w : Int64), w.toInt = -n → n ≤ 0x8000000000000000 := by
    intro n w hw
    have hlow := w.le_toInt
    omega
  -- The magnitude is lifted to an integer before its sign is changed.
  have hlift : ∀ m : Except LiteralError Nat,
      ((do let n ← m; pure (n : Int)) : Except LiteralError Int).map (fun n => Int64.ofInt (-n)) =
        m.map fun n : Nat => Int64.ofInt (-(n : Int)) := by
    intro m
    cases m <;> rfl
  unfold signed
  split
  · rw [signed_iff_unsigned (by simp)]
    simp only [reduceCtorEq, false_iff]
    rintro ⟨n, h, -⟩
    exact ((unsigned_iff_numeral (by simp)).mp h).ne_nil rfl
  · rw [signed_minus_iff, hlift, map_magnitude_eq_ok_iff hofInt hnegative]
  · rw [signed_iff_unsigned (by simp), map_magnitude_eq_ok_iff hofNat hpositive]
    simp only [unsigned_plus_iff]
  · rename_i hminus hplus
    rw [signed_iff_unsigned hminus, map_magnitude_eq_ok_iff hofNat hpositive]
    simp only [unsigned_iff_numeral hplus]

-- ---------------------------------------------------------------------------
-- Texts of integers
-- ---------------------------------------------------------------------------

theorem isDigit_of_mem_toDigits {n : Nat} {c : Char} (h : c ∈ Nat.toDigits 10 n) : c.isDigit :=
  Nat.isDigit_of_mem_toDigits (by decide) le_rfl h

theorem toList_toString_nat (n : Nat) : (toString n).toList = Nat.toDigits 10 n := by
  rw [Nat.toString_eq_repr, Nat.toList_repr]

theorem toList_toString_ofNat (n : Nat) : (toString (Int.ofNat n)).toList = Nat.toDigits 10 n :=
  toList_toString_nat n

theorem toList_toString_negSucc (n : Nat) :
    (toString (Int.negSucc n)).toList = '-' :: Nat.toDigits 10 (n + 1) := by
  have htext : toString (Int.negSucc n) = "-" ++ toString (n + 1) := rfl
  rw [htext, String.toList_append, toList_toString_nat]
  rfl

/-- The digits of a number are a numeral of it. -/
theorem numeral_toDigits (n : Nat) : Numeral (Nat.toDigits 10 n) n where
  ne_nil := Nat.toDigits_ne_nil
  isDigit _ hc := isDigit_of_mem_toDigits hc
  value := Nat.ofDigitChars_ten_toDigits

theorem unsigned_toString {n : Nat} (h : n < 2 ^ 64) : unsigned (toString n).toList = .ok n := by
  rw [unsigned_eq_ok_iff, toList_toString_nat]
  exact ⟨.bare (numeral_toDigits n), h⟩

theorem signed_toString (n : Int64) : signed (toString n.toInt).toList = .ok n := by
  rw [signed_eq_ok_iff]
  cases n.toInt with
  | ofNat m =>
    rw [toList_toString_ofNat]
    exact .unsigned (.bare (numeral_toDigits m))
  | negSucc m =>
    rw [toList_toString_negSucc]
    exact .minus (numeral_toDigits (m + 1))

end Literal

end Bytecode.Assembly
