-- SUMMARY: Ways of writing decimals: where exponents begin and what whole numbers look like.
import Bytecode.Decimal.Shortest

/-!
# Decimal styles

A style fixes all that is left open by the digits of a number: which way ties go, between which
exponents it is written positionally, and what marks a whole number. The exponent of a number here is
that of its first digit.
-/

namespace Bytecode.Decimal

/-- How floating-point numbers are written. -/
structure Style where
  tie : Tie
  /-- Whether a number with this exponent is written without one. -/
  isPositional : Int → Bool
  /-- What follows the digits of a whole number that is written without an exponent. -/
  wholeMark : String
  /-- What stands before the digits of an exponent that is not negative. -/
  exponentSign : String

/-- The exponent of the first of `count` digits. -/
def leadingExponent (d : Decimal) (count : Nat) : Int := d.exponent + count - 1

namespace Style

/-- Digits with the point in its place and no exponent. -/
def positional (style : Style) (digits : List Char) (exponent : Int) : String :=
  if exponent ≥ 0 then
    String.ofList (digits ++ List.replicate exponent.toNat '0') ++ style.wholeMark
  else
    let places := (-exponent).toNat
    let filled := List.replicate (places + 1 - digits.length) '0' ++ digits
    let whole := filled.length - places
    String.ofList (filled.take whole ++ '.' :: filled.drop whole)

/-- Digits with the point after the first one, and an exponent. -/
def scientific (style : Style) (digits : List Char) (exponent : Int) : String :=
  let mantissa :=
    match digits with
    | d :: e :: rest => d :: '.' :: e :: rest
    | short => short
  String.ofList mantissa ++ "e" ++ (if exponent ≥ 0 then style.exponentSign else "") ++
    toString exponent

/-- A decimal in a given style. -/
def format (style : Style) (d : Decimal) : String :=
  let digits := Nat.toDigits 10 d.digits
  let leading := d.leadingExponent digits.length
  if style.isPositional leading then style.positional digits d.exponent
  else style.scientific digits leading

/-- A finite number in a given style; `none` for infinities and NaN. -/
def formatFinite? (style : Style) (x : Binary64) : Option String :=
  match x.magnitude with
  | .finite mantissa exponent =>
    let d := if mantissa = 0 then ⟨0, 0⟩ else shortest style.tie mantissa exponent
    some ((if x.isNegative then "-" else "") ++ style.format d)
  | _ => none

end Style

end Bytecode.Decimal
