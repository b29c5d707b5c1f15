-- SUMMARY: Walking over a stream by position: the iterator of its instructions, their dump, and the stack check on the way.
import Bytecode.StackCheck

/-!
# Walking over a stream

`Listing.ofBytes` decodes a whole stream before anything is done with its instructions. The walks here
hold a position instead, and decode one instruction at a time. A disassembler hands its instructions
out one by one, and is exhausted after a fault. A dump is written while they are handed out, and a line
is ended when it is known that another follows. The stack check in one pass lets every instruction pass
as soon as it has been decoded, so that it stops at whatever is wrong first.
-/

namespace Bytecode

/-- An operand takes at least one byte. -/
theorem Operand.width_pos_of_readWithin {budget : Nat} {bytes : List UInt8} {r : Reading}
    (h : readWithin budget bytes = .ok r) : 0 < r.width := by
  unfold readWithin at h
  split at h
  · cases h
  · cases h
  · split at h
    · cases h
      exact Nat.one_pos
    · split at h
      · cases h
        exact Nat.succ_pos _
      · cases h

namespace Instruction

/-- Decodes the instruction at a position of a stream. Also gives the position after it. -/
def readAt (code : List UInt8) (pos : Nat) (h : pos < code.length) :
    Except InstructionError (Instruction × Nat) :=
  match Opcode.ofByte? code[pos] with
  | none => .error (.unknownOpcode pos code[pos])
  | some opcode =>
    if opcode.takesOperand then
      match Operand.readAt code (pos + 1) with
      | .ok (operand, next) => .ok (⟨pos, opcode, some operand⟩, next)
      | .error e => .error e
    else .ok (⟨pos, opcode, none⟩, pos + 1)

/-- What is decoded lies in front of the position that decoding goes on at. -/
theorem lt_of_readAt {code : List UInt8} {pos next : Nat} {h : pos < code.length} {i : Instruction}
    (hread : readAt code pos h = .ok (i, next)) : pos < next := by
  unfold readAt at hread
  split at hread
  · cases hread
  · split at hread
    · split at hread
      · rename_i hoperand
        cases hread
        unfold Operand.readAt at hoperand
        split at hoperand
        · rename_i hreading
          cases hoperand
          have hwidth := Operand.width_pos_of_readWithin hreading
          omega
        · cases hoperand
      · cases hread
    · cases hread
      exact Nat.lt_succ_self pos

end Instruction

-- ---------------------------------------------------------------------------
-- Disassembling
-- ---------------------------------------------------------------------------

/-- A stream, and how much of it has been handed out. -/
structure Disassembler where
  code : List UInt8
  pos : Nat := 0

namespace Disassembler

/-- The next instruction, or the fault in its place. After a fault nothing is left. -/
def next? (d : Disassembler) : Option (Except InstructionError Instruction × Disassembler) :=
  if h : d.pos < d.code.length then
    match Instruction.readAt d.code d.pos h with
    | .ok (i, next) => some (.ok i, { d with pos := next })
    | .error e => some (.error e, { d with pos := d.code.length })
  else none

/-- There is less left after an item than in front of it. -/
theorem length_sub_pos_lt {d d' : Disassembler} {item : Except InstructionError Instruction}
    (h : d.next? = some (item, d')) : d'.code.length - d'.pos < d.code.length - d.pos := by
  unfold next? at h
  split at h
  · rename_i hpos
    split at h
    · rename_i hread
      cases h
      have hlt := Instruction.lt_of_readAt hread
      simp only
      omega
    · cases h
      simp only
      omega
  · cases h

/-- All that is handed out until nothing is left. -/
def items (d : Disassembler) : List (Except InstructionError Instruction) :=
  match _h : d.next? with
  | none => []
  | some (item, rest) => item :: rest.items
termination_by d.code.length - d.pos
decreasing_by exact length_sub_pos_lt _h

-- ---------------------------------------------------------------------------
-- Dumping
-- ---------------------------------------------------------------------------

/-- Writes an item behind a text. An instruction can be marked, a fault cannot. -/
def writeItem (marker : Option Nat) (out : String) : Except InstructionError Instruction → String
  | .ok i =>
    (if marker = some i.offset then out ++ Listing.arrow else out ++ Listing.gutter i.offset) ++ i.text
  | .error e => out ++ "<malformed: " ++ e.message ++ ">"

/-- Writes what is left behind a text that holds some items already. -/
def dumpOnto (marker : Option Nat) (out : String) (written : Nat) (d : Disassembler) : String :=
  match _h : d.next? with
  | none => out
  | some (item, rest) =>
    let out := if 0 < written then out.push '\n' else out
    dumpOnto marker (writeItem marker out item) (written + 1) rest
termination_by d.code.length - d.pos
decreasing_by exact length_sub_pos_lt _h

/-- The dump of a stream, with an arrow at the marker. -/
def dump (marker : Option Nat) (code : List UInt8) : String := dumpOnto marker "" 0 { code }

end Disassembler

-- ---------------------------------------------------------------------------
-- Checking
-- ---------------------------------------------------------------------------

/-- Passes the instructions from a position on, each as soon as it has been decoded. -/
def StackHeight.passFrom (code : List UInt8) (h : StackHeight) (pos : Nat) :
    Except BuildError StackHeight :=
  if hpos : pos < code.length then
    match _hread : Instruction.readAt code pos hpos with
    | .error e => .error (.instruction e)
    | .ok (i, next) =>
      match h.pass i with
      | .error e => .error (.stack e)
      | .ok h' => passFrom code h' next
  else .ok h
termination_by code.length - pos
decreasing_by
  have hlt := Instruction.lt_of_readAt _hread
  omega

/-- The operand-stack slots that a stream needs, found in one pass. -/
def stackDepthInOnePass (code : List UInt8) : Except BuildError Nat :=
  match StackHeight.passFrom code {} 0 with
  | .error e => .error e
  | .ok h =>
    if h.current = 0 then .ok h.peak.toInt.toNat else .error (.stack (.unbalanced h.current))

end Bytecode
