-- SUMMARY: Building instruction streams step by step.
import Bytecode.Listing

/-!
# Code writers

A code writer appends instructions to a stream. The opcode is written before its operand is looked at;
an operand that is too large takes the opcode back with it, and the stream stays as it was.
-/

namespace Bytecode

/-- What is to be written: an opcode, and its operand if it takes one. -/
structure Step where
  opcode : Opcode
  operand : Option Nat := none
  deriving DecidableEq

namespace Step

/-- The bytes of the instruction. -/
def encode (s : Step) : Except InstructionError (List UInt8) :=
  match s.operand with
  | none => .ok [s.opcode.byte]
  | some operand => Operand.append [s.opcode.byte] operand

end Step

/-- What an instruction writes, apart from where it stands. -/
def Instruction.step (i : Instruction) : Step := ⟨i.opcode, i.operand⟩

/-- A stream under construction. -/
structure CodeWriter where
  code : List UInt8 := []
  deriving DecidableEq

namespace CodeWriter

/-- Where the next instruction will stand. -/
def offset (w : CodeWriter) : Nat := w.code.length

/-- Appends an opcode. -/
def emit (op : Opcode) : EStateM InstructionError CodeWriter Unit :=
  modify fun w => { w with code := w.code ++ [op.byte] }

/-- Appends an opcode and its operand. If the operand cannot be appended, the opcode is taken back. -/
def emitOperand (op : Opcode) (operand : Nat) : EStateM InstructionError CodeWriter Unit := fun w =>
  match Operand.write operand (w.code ++ [op.byte]) with
  | .ok _ code => .ok () { w with code }
  | .error e code => .error e { w with code := code.take w.offset }

/-- Appends one instruction. -/
def write (s : Step) : EStateM InstructionError CodeWriter Unit :=
  match s.operand with
  | none => emit s.opcode
  | some operand => emitOperand s.opcode operand

/-- Tries one step: the writer after it, and why the step was refused, if it was. -/
def attempt (w : CodeWriter) (s : Step) : Option InstructionError × CodeWriter :=
  match write s w with
  | .ok _ w' => (none, w')
  | .error e w' => (some e, w')

/-- Tries all steps in turn; those that are refused leave nothing behind. -/
def attemptAll (w : CodeWriter) : List Step → CodeWriter
  | [] => w
  | s :: steps => (w.attempt s).2.attemptAll steps

end CodeWriter

end Bytecode
