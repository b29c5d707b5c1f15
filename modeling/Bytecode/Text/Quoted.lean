-- SUMMARY: Texts and characters in quotes, with escapes for what cannot be shown.
import Bytecode.Text.Escaped
import Bytecode.Text.Hex

/-!
# Quoted texts

A quoted text stands between two equal quotes. Inside, the backslash, that quote, and the characters
NUL, tab, carriage return and line feed have two-character escapes; other characters that cannot be
shown are written by their code point in braces.
-/

namespace Bytecode.Text

/-- Whether a character is shown by its code point. -/
def isEscaped (c : Char) : Bool := Escaped.covers Escaped.ranges c.toNat

/-- The escape that names a character by its code point. -/
def codePointEscape (c : Char) : List Char :=
  ['\\', 'u', '\x7b'] ++ (hexDigits c.toNat).toList ++ ['\x7d']

/-- One character between quotes. -/
def escape (quote c : Char) : List Char :=
  if c = '\x00' then ['\\', '0']
  else if c = '\t' then ['\\', 't']
  else if c = '\r' then ['\\', 'r']
  else if c = '\n' then ['\\', 'n']
  else if c = '\\' ∨ c = quote then ['\\', c]
  else if isEscaped c then codePointEscape c
  else [c]

/-- A text between quotes. -/
def quoted (quote : Char) (cs : List Char) : List Char :=
  quote :: cs.flatMap (escape quote) ++ [quote]

/-- A text between double quotes. -/
def quotedString (s : String) : String := String.ofList (quoted '"' s.toList)

/-- A character between single quotes. -/
def quotedChar (c : Char) : String := String.ofList (quoted '\'' [c])

end Bytecode.Text
