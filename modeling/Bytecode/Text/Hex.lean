-- SUMMARY: Hexadecimal spellings of numbers.

/-!
# Hexadecimal

Numbers in base 16 with small letters, as messages and escapes show them.
-/

namespace Bytecode

/-- The digits of a number in base 16, without leading zeros. -/
def hexDigits (n : Nat) : String := String.ofList (Nat.toDigits 16 n)

/-- A number in base 16, filled with zeros on the left up to `width` digits. -/
def hexPadded (width n : Nat) : String :=
  let digits := Nat.toDigits 16 n
  String.ofList (List.replicate (width - digits.length) '0' ++ digits)

end Bytecode
