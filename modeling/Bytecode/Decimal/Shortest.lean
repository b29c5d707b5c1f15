-- SUMMARY: The shortest decimal that reads back as a given binary number.
import Bytecode.Binary64

/-!
# Shortest decimals

A finite positive number `mantissa * 2 ^ exponent` owns the interval of reals that round to it: half a
unit up, and half a unit down, or a quarter of one where the unit below is half as large. The ends
belong to the interval when the mantissa is even. `shortest` gives the point of the coarsest decimal
grid that has points in the interval, and the one nearest to the number among those.
-/

namespace Bytecode

/-- The number `digits * 10 ^ exponent`. -/
structure Decimal where
  digits : Nat
  exponent : Int
  deriving DecidableEq

namespace Decimal

/-- Which neighbour a number exactly between two grid points goes to. -/
inductive Tie where
  | up
  | toEven
  deriving DecidableEq

/-- A number and the ends of its interval, as numerators over one denominator. -/
structure Interval where
  low : Nat
  value : Nat
  high : Nat
  denominator : Nat
  closed : Bool

namespace Interval

/-- The interval of `mantissa * 2 ^ exponent`. -/
def ofBinary (mantissa : Nat) (exponent : Int) : Interval :=
  let below := if mantissa = Binary64.fractionCount ∧ exponent > -1074 then 1 else 2
  let up := (exponent - 2).toNat
  { low := (4 * mantissa - below) <<< up
    value := (4 * mantissa) <<< up
    high := (4 * mantissa + 2) <<< up
    denominator := 1 <<< (2 - exponent).toNat
    closed := mantissa % 2 = 0 }

/-- The same interval in units of `10 ^ k`. -/
def scale (i : Interval) (k : Int) : Interval :=
  let up := Nat.pow 10 (-k).toNat
  { i with
    low := i.low * up
    value := i.value * up
    high := i.high * up
    denominator := i.denominator * Nat.pow 10 k.toNat }

/-- Whether a whole number lies in the interval. -/
def holds (i : Interval) (n : Nat) : Bool :=
  let x := n * i.denominator
  if i.closed then i.low ≤ x && x ≤ i.high else i.low < x && x < i.high

/-- The whole number in the interval that is nearest to its number; `none` if there is none. -/
def nearest (tie : Tie) (i : Interval) : Option Nat :=
  let down := i.value / i.denominator
  let twice := 2 * (i.value % i.denominator)
  match i.holds down, i.holds (down + 1) with
  | true, false => some down
  | false, true => some (down + 1)
  | false, false => none
  | true, true =>
    if twice < i.denominator then some down
    else if i.denominator < twice then some (down + 1)
    else match tie with
      | .up => some (down + 1)
      | .toEven => some (if down % 2 = 0 then down else down + 1)

/-- Looks through the grids `10 ^ k`, `10 ^ (k - 1)`, … for the first with a point in the interval. -/
def search (tie : Tie) (i : Interval) : Nat → Int → Decimal
  | 0, k => ⟨0, k⟩
  | grids + 1, k =>
    match (i.scale k).nearest tie with
    | some digits => ⟨digits, k⟩
    | none => i.search tie grids (k - 1)

end Interval

/--
The shortest decimal for `mantissa * 2 ^ exponent`. No such number reaches `10 ^ 309`, and the grid of
step `10 ^ (-324)` is finer than the distance of any two of them.
-/
def shortest (tie : Tie) (mantissa : Nat) (exponent : Int) : Decimal :=
  (Interval.ofBinary mantissa exponent).search tie 634 309

end Decimal

end Bytecode
