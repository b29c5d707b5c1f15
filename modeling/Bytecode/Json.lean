-- SUMMARY: JSON values and their indented text.
import Bytecode.Decimal.Style
import Bytecode.Text.Hex

/-!
# JSON

JSON values, and how they are written over several lines: two blanks per level, one item per line, and
nothing inside the brackets of what is empty.
-/

namespace Bytecode

/-- A JSON value; the fields of an object are in order. -/
inductive Json where
  | null
  | bool (b : Bool)
  | int (n : Int)
  | float (x : Binary64)
  | str (s : String)
  | array (items : List Json)
  | object (fields : List (String × Json))

namespace Json

/-- An unsigned number. -/
def nat (n : Nat) : Json := .int n

/-- A value that may be missing. -/
def orNull {α : Type} (f : α → Json) : Option α → Json
  | none => .null
  | some a => f a

/-- A field that is left out when its value is missing. -/
def field? {α : Type} (key : String) (f : α → Json) : Option α → List (String × Json)
  | none => []
  | some a => [(key, f a)]

/-- One character of a text. -/
def escape (c : Char) : List Char :=
  if c = '"' ∨ c = '\\' then ['\\', c]
  else if c = '\x08' then ['\\', 'b']
  else if c = '\x0c' then ['\\', 'f']
  else if c = '\n' then ['\\', 'n']
  else if c = '\r' then ['\\', 'r']
  else if c = '\t' then ['\\', 't']
  else if c.toNat < 0x20 then ['\\', 'u'] ++ (hexPadded 4 c.toNat).toList
  else [c]

/-- A text in quotes. -/
def quoted (s : String) : String := String.ofList ('"' :: s.toList.flatMap escape ++ ['"'])

/--
Floating-point numbers always have a point or an exponent, and an exponent only below `10 ^ (-5)` and
from `10 ^ 16` on.
-/
def floatStyle : Decimal.Style where
  tie := .toEven
  isPositional e := -5 ≤ e ∧ e < 16
  wholeMark := ".0"
  exponentSign := "+"

/-- A floating-point number; those that are not finite have no number in JSON. -/
def floatText (x : Binary64) : String := (floatStyle.formatFinite? x).getD "null"

/-- A line break and the indentation after it. -/
def lineBreak (level : Nat) : String := String.ofList ('\n' :: List.replicate (2 * level) ' ')

/-- Items between brackets, one a line. -/
def bracketed (level : Nat) (opening closing : String) (items : List String) : String :=
  if items.isEmpty then opening ++ closing
  else
    opening ++ lineBreak (level + 1) ++ ("," ++ lineBreak (level + 1)).intercalate items ++
      lineBreak level ++ closing

mutual

/-- The text of a value that starts at a level of indentation. -/
def pretty (level : Nat) : Json → String
  | .null => "null"
  | .bool b => if b then "true" else "false"
  | .int n => toString n
  | .float x => floatText x
  | .str s => quoted s
  | .array items => bracketed level "[" "]" (prettyItems (level + 1) items)
  | .object fields => bracketed level "\x7b" "\x7d" (prettyFields (level + 1) fields)

/-- The texts of the items of an array. -/
def prettyItems (level : Nat) : List Json → List String
  | [] => []
  | item :: rest => pretty level item :: prettyItems level rest

/-- The texts of the fields of an object. -/
def prettyFields (level : Nat) : List (String × Json) → List String
  | [] => []
  | (key, value) :: rest => (quoted key ++ ": " ++ pretty level value) :: prettyFields level rest

end

end Json

end Bytecode
