-- SUMMARY: Binary floating-point numbers as bit patterns: decoding and comparison.

/-!
# Binary floating-point numbers

A number is kept as its 64 bits, so that the sign of zero and the payload of a NaN are never lost. The
bits are, from the highest, one sign bit, eleven exponent bits and 52 fraction bits.
-/

namespace Bytecode

/-- A floating-point number in the IEEE-754 format of 64 bits. -/
structure Binary64 where
  bits : UInt64
  deriving DecidableEq

namespace Binary64

/-- What the magnitude of a number is. -/
inductive Magnitude where
  | nan
  | infinite
  /-- The number `mantissa * 2 ^ exponent`. -/
  | finite (mantissa : Nat) (exponent : Int)
  deriving DecidableEq

def isNegative (x : Binary64) : Bool := x.bits.toNat.testBit 63

/-- The number of fractions: two to the power of 52. -/
def fractionCount : Nat := 0x10000000000000

/-- The number of exponents: two to the power of eleven. -/
def exponentCount : Nat := 0x800

/-- The exponent bits. -/
def exponentBits (x : Binary64) : Nat := x.bits.toNat / fractionCount % exponentCount

/-- The fraction bits. -/
def fractionBits (x : Binary64) : Nat := x.bits.toNat % fractionCount

/-- The magnitude that the bits stand for. -/
def magnitude (x : Binary64) : Magnitude :=
  if x.exponentBits = exponentCount - 1 then
    if x.fractionBits = 0 then .infinite else .nan
  else if x.exponentBits = 0 then .finite x.fractionBits (-1074)
  else .finite (fractionCount + x.fractionBits) (x.exponentBits - 1075)

/-- Whether two numbers compare as equal: no NaN does, and the two zeros do. -/
def equal (x y : Binary64) : Bool :=
  match x.magnitude, y.magnitude with
  | .nan, _ => false
  | _, .nan => false
  | .finite 0 _, .finite 0 _ => true
  | _, _ => x = y

end Binary64

end Bytecode
