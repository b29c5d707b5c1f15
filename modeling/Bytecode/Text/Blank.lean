-- SUMMARY: White space, and cutting texts at it.

/-!
# White space

The characters with the Unicode property White_Space, and the operations that look for them: cutting
blanks off both ends of a text, and splitting its first word from the rest.
-/

namespace Bytecode.Text

/-- Whether a character has the property White_Space. -/
def isBlank (c : Char) : Bool :=
  let n := c.toNat
  (0x09 ≤ n && n ≤ 0x0d) || n = 0x20 || n = 0x85 || n = 0xa0 || n = 0x1680 ||
    (0x2000 ≤ n && n ≤ 0x200a) || n = 0x2028 || n = 0x2029 || n = 0x202f || n = 0x205f || n = 0x3000

/-- Cuts the blanks off the front. -/
def trimLeft (cs : List Char) : List Char := cs.dropWhile isBlank

/-- Cuts the blanks off the end. -/
def trimRight (cs : List Char) : List Char := (trimLeft cs.reverse).reverse

/-- Cuts the blanks off both ends. -/
def trim (cs : List Char) : List Char := trimRight (trimLeft cs)

/-- The text up to the first blank, and the text after that blank. -/
def splitWord (cs : List Char) : List Char × List Char :=
  (cs.takeWhile (!isBlank ·), (cs.dropWhile (!isBlank ·)).drop 1)

end Bytecode.Text
