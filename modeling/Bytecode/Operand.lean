-- SUMMARY: Variable-width instruction operands: reading them, spelling them, and the faults of both.

/-!
# Operands

An operand takes one to five bytes. Every byte but the last is at least `0x80`, the last one is below
it. The value is the exclusive or of byte `j` shifted left by `7 * j`: a byte keeps its high bit, and
the next byte is combined with it. Five bytes reach every value below `2 ^ 35`.
-/

namespace Bytecode.Operand

def maxWidth : Nat := 5

/-- An operand as it was read: its value, and the number of bytes that spell it. -/
structure Reading where
  value : Nat
  width : Nat
  deriving DecidableEq

inductive Fault where
  /-- The bytes end before the operand does. -/
  | truncated
  /-- The operand goes on after `maxWidth` bytes. -/
  | tooLong
  deriving DecidableEq

/-- Reads an operand of at most `budget` bytes at the front of a stream. -/
def readWithin : Nat → List UInt8 → Except Fault Reading
  | 0, _ => .error .tooLong
  | _ + 1, [] => .error .truncated
  | budget + 1, b :: bs =>
    if b < 0x80 then .ok ⟨b.toNat, 1⟩
    else
      match readWithin budget bs with
      | .ok tail => .ok ⟨b.toNat ^^^ (tail.value <<< 7), tail.width + 1⟩
      | .error fault => .error fault

def read (bytes : List UInt8) : Except Fault Reading := readWithin maxWidth bytes

/-- Spells a value in at most `budget` bytes, the fewest that do; `none` if it needs more. -/
def spellWithin : Nat → Nat → Option (List UInt8)
  | 0, _ => none
  | budget + 1, value =>
    if value < 0x80 then some [UInt8.ofNat value]
    else
      let byte := value % 0x80 + 0x80
      (spellWithin budget ((value ^^^ byte) >>> 7)).map (UInt8.ofNat byte :: ·)

/-- The spelling of a value as an operand; `none` for values from `2 ^ 35` on. -/
def spell? (value : Nat) : Option (List UInt8) := spellWithin maxWidth value

end Bytecode.Operand
