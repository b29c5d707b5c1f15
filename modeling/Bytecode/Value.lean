-- SUMMARY: Constant values of a block, how they compare and how they are shown.
import Bytecode.Decimal.Style
import Bytecode.Text.Quoted

/-!
# Values

The constants that a block refers to.
-/

namespace Bytecode

/-- A constant. -/
inductive Value where
  | null
  | bool (b : Bool)
  | int (n : Int64)
  | float (x : Binary64)
  | str (s : String)
  deriving DecidableEq

namespace Value

/-- The name of the type of a value. -/
def typeName : Value → String
  | .null => "null"
  | .bool _ => "bool"
  | .int _ => "int"
  | .float _ => "float"
  | .str _ => "string"

/-- The integer that a value is, if it is one. -/
def int? : Value → Option Int64
  | .int n => some n
  | _ => none

/-- Whether two values compare as equal. Numbers of different types never do. -/
def equal : Value → Value → Bool
  | .float x, .float y => x.equal y
  | v, w => v = w

/-- Floating-point numbers in listings have no exponent, and whole ones have no point. -/
def floatStyle : Decimal.Style where
  tie := .up
  isPositional _ := true
  wholeMark := ""
  exponentSign := ""

/-- A floating-point number in listings. -/
def floatText (x : Binary64) : String :=
  match floatStyle.formatFinite? x with
  | some text => text
  | none =>
    if x.magnitude = .nan then "NaN"
    else if x.isNegative then "-inf"
    else "inf"

/-- A value in listings. -/
def text : Value → String
  | .null => "NULL"
  | .bool b => if b then "true" else "false"
  | .int n => toString n.toInt
  | .float x => floatText x
  | .str s => Text.quotedString s

end Value

end Bytecode
