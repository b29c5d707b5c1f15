-- SUMMARY: Single instructions: what they hold, how they are decoded, encoded and shown.
import Bytecode.Opcode
import Bytecode.Operand
import Bytecode.Text.Hex

/-!
# Instructions

An instruction is an opcode byte followed, for the opcodes that take one, by an operand. Offsets count
the bytes of the stream from its start.
-/

namespace Bytecode

/-- Why bytes are no instruction, or a value cannot be made part of one. -/
inductive InstructionError where
  | operandTooLong (offset : Nat)
  | truncatedOperand (offset : Nat)
  | unknownOpcode (offset : Nat) (byte : UInt8)
  | operandTooLarge (value : Nat)
  deriving DecidableEq

namespace InstructionError

def message : InstructionError → String
  | .operandTooLong offset => s!"operand at offset {offset} does not terminate within 5 bytes"
  | .truncatedOperand offset => s!"operand at offset {offset} runs past the end of the code"
  | .unknownOpcode offset byte =>
    s!"unknown opcode 0x{hexPadded 2 byte.toNat} at offset {offset}"
  | .operandTooLarge value => s!"operand {value} does not fit the 5-byte encoding"

/-- The fault of an operand that starts at `offset`. -/
def ofOperand (offset : Nat) : Operand.Fault → InstructionError
  | .truncated => .truncatedOperand offset
  | .tooLong => .operandTooLong offset

end InstructionError

namespace Operand

/-- Reads the operand at a position of a stream: its value and the position after it. -/
def readAt (code : List UInt8) (pos : Nat) : Except InstructionError (Nat × Nat) :=
  match read (code.drop pos) with
  | .ok reading => .ok (reading.value, pos + reading.width)
  | .error fault => .error (.ofOperand pos fault)

/--
Appends an operand to a stream in place. Its bytes are put together apart from the stream, which gets
all of them or none.
-/
def write (value : Nat) : EStateM InstructionError (List UInt8) Unit := do
  match spell? value with
  | some spelling => modify (· ++ spelling)
  | none => throw (.operandTooLarge value)

/-- A stream with an operand at its end. -/
def append (code : List UInt8) (value : Nat) : Except InstructionError (List UInt8) :=
  match write value code with
  | .ok _ longer => .ok longer
  | .error e _ => .error e

end Operand

/-- One instruction of a stream, and where it starts. -/
structure Instruction where
  offset : Nat
  opcode : Opcode
  operand : Option Nat
  deriving DecidableEq

namespace Instruction

/--
Decodes the instruction at `offset` whose opcode byte is `b` and which is followed by `bs`. Also gives
the number of bytes of `bs` that belong to it.
-/
def decode (offset : Nat) (b : UInt8) (bs : List UInt8) :
    Except InstructionError (Instruction × Nat) :=
  match Opcode.ofByte? b with
  | none => .error (.unknownOpcode offset b)
  | some opcode =>
    if opcode.takesOperand then
      match Operand.read bs with
      | .ok reading => .ok (⟨offset, opcode, some reading.value⟩, reading.width)
      | .error fault => .error (.ofOperand (offset + 1) fault)
    else .ok (⟨offset, opcode, none⟩, 0)

/-- The mnemonic, followed by the operand if there is one. -/
def text (i : Instruction) : String :=
  match i.operand with
  | some operand => s!"{i.opcode.mnemonic} {operand}"
  | none => i.opcode.mnemonic

end Instruction

end Bytecode
