-- SUMMARY: Decimal integer literals with bounds.

/-!
# Literals

A literal is one or more decimal digits after an optional sign. The digits are taken from left to right
and the first that is wrong, or that makes the value leave its bounds, decides the fault.
-/

namespace Bytecode.Assembly

/-- Why a text is no literal of a given range. -/
inductive LiteralError where
  | empty
  | invalidDigit
  | tooLarge
  | tooSmall
  deriving DecidableEq

def LiteralError.message : LiteralError → String
  | .empty => "cannot parse integer from empty string"
  | .invalidDigit => "invalid digit found in string"
  | .tooLarge => "number too large to fit in target type"
  | .tooSmall => "number too small to fit in target type"

namespace Literal

/-- The value of a decimal digit. -/
def digit? (c : Char) : Option Nat :=
  if '0' ≤ c ∧ c ≤ '9' then some (c.toNat - '0'.toNat) else none

/-- Takes digits behind the value `n`, which must stay within `limit`. -/
def digits (limit : Nat) (overflow : LiteralError) : Nat → List Char → Except LiteralError Nat
  | n, [] => .ok n
  | n, c :: cs =>
    match digit? c with
    | none => .error .invalidDigit
    | some d =>
      if limit < 10 * n + d then .error overflow
      else digits limit overflow (10 * n + d) cs

/-- The value of one or more digits, which must be within `limit`. -/
def magnitude (limit : Nat) (overflow : LiteralError) : List Char → Except LiteralError Nat
  | [] => .error .invalidDigit
  | cs => digits limit overflow 0 cs

/-- An unsigned literal of 64 bits; it may have a plus sign. -/
def unsigned : List Char → Except LiteralError Nat
  | [] => .error .empty
  | '+' :: cs => magnitude 0xffffffffffffffff .tooLarge cs
  | cs => magnitude 0xffffffffffffffff .tooLarge cs

/-- A signed literal of 64 bits. -/
def signed : List Char → Except LiteralError Int64
  | [] => .error .empty
  | '-' :: cs => (magnitude 0x8000000000000000 .tooSmall cs).map fun n => Int64.ofInt (-n)
  | '+' :: cs => (magnitude 0x7fffffffffffffff .tooLarge cs).map Int64.ofNat
  | cs => (magnitude 0x7fffffffffffffff .tooLarge cs).map Int64.ofNat

end Literal

end Bytecode.Assembly
