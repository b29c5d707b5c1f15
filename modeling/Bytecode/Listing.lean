-- SUMMARY: Disassembly: the instructions of a stream, the fault that ends it, and its dump.
import Bytecode.Instruction

/-!
# Listings

A listing holds the instructions of a stream in order. Bytes that are no instruction end it: they are
its fault, and nothing after them is looked at.
-/

namespace Bytecode

/-- The instructions of a stream, and the fault that stopped the decoding, if one did. -/
structure Listing where
  instructions : List Instruction := []
  fault : Option InstructionError := none

namespace Listing

/-- The listing of bytes that start at `offset` of a stream. -/
def ofBytesAt (offset : Nat) : List UInt8 → Listing
  | [] => {}
  | b :: bs =>
    match Instruction.decode offset b bs with
    | .ok (i, width) =>
      let tail := ofBytesAt (offset + 1 + width) (bs.drop width)
      { tail with instructions := i :: tail.instructions }
    | .error fault => { fault := some fault }
termination_by bytes => bytes.length
decreasing_by simp only [List.length_drop, List.length_cons]; omega

/-- The listing of a whole stream. -/
def ofBytes (code : List UInt8) : Listing := ofBytesAt 0 code

/-- What stands in place of the offset of a marked instruction. -/
def arrow : String := " ===> "

/-- An offset, filled with blanks on the left to four characters, and two blanks after it. -/
def gutter (offset : Nat) : String :=
  let digits := toString offset
  String.ofList (List.replicate (4 - digits.length) ' ') ++ digits ++ "  "

/-- The line of one instruction; the one at `marker` gets an arrow in place of its offset. -/
def line (marker : Option Nat) (i : Instruction) : String :=
  (if marker = some i.offset then arrow else gutter i.offset) ++ i.text

/-- The line that stands for bytes that are no instruction. -/
def faultLine (fault : InstructionError) : String := s!"<malformed: {fault.message}>"

/-- One line per instruction, and one for the fault. -/
def lines (marker : Option Nat) (l : Listing) : List String :=
  l.instructions.map (line marker) ++ (l.fault.map faultLine).toList

/-- The lines as one text, with line breaks between them only. -/
def dump (marker : Option Nat) (l : Listing) : String := "\n".intercalate (l.lines marker)

end Listing

end Bytecode
