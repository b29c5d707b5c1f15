-- SUMMARY: The instruction set: opcode bytes, mnemonics and stack effects.
import Bytecode.Text.Case

/-!
# Opcodes

Every instruction starts with one opcode byte. Opcodes from `Opcode.firstWithOperand` on are followed
by one operand. `Opcode.row` is the one table from which bytes, mnemonics and stack effects are read.
-/

namespace Bytecode

/-- Net change of the operand-stack height that one instruction makes. -/
inductive StackEffect where
  /-- The same change whatever the operand is. -/
  | fixed (delta : Int8)
  /-- The height falls by the operand. -/
  | minusOperand
  /-- The height falls by the operand, and one value is pushed. -/
  | minusOperandPlusOne
  /-- The height falls by twice the operand, and one value is pushed. -/
  | minusTwiceOperandPlusOne
  deriving DecidableEq

/-- The change for a given operand, in machine words: an operand from `2 ^ 63` on counts as negative. -/
def StackEffect.apply (effect : StackEffect) (operand : Nat) : Int64 :=
  match effect with
  | .fixed delta => delta.toInt64
  | .minusOperand => -Int64.ofNat operand
  | .minusOperandPlusOne => -Int64.ofNat operand + 1
  | .minusTwiceOperandPlusOne => -2 * Int64.ofNat operand + 1

/-- The operations of the machine. -/
inductive Opcode where
  | nop | discardTop | dupTop | rotTwo | ret | loadNull | loadTrue | loadFalse | loadThis | echo
  | print | unaryMinus | unaryPlus | unaryNot | bitwiseNot | castInt | castString | castArray
  | binaryAdd | binarySub | binaryMul | binaryDiv | binaryMod | binaryConcat | binaryEq
  | binaryNe | binaryIs | binaryLt | binaryLe | binaryGt | binaryGe | binaryAnd | binaryOr
  | binaryXor | binaryShl | binaryShr | getItem | setItem | loadConst | loadName | storeName
  | loadFast | storeFast | getAttr | setAttr | jumpForward | jumpBackward | jumpIfFalse
  | jumpIfTrue | jumpIfFalseNoPop | jumpIfTrueNoPop | call | callMethod | makeArray | makeHash
  | interpolate | discardN | declareFunc | declareClass | bindSuperglobal | checkstack
  deriving DecidableEq

namespace Opcode

/-- What the table says about one opcode. -/
structure Row where
  byte : UInt8
  mnemonic : String
  effect : StackEffect

/-- The instruction set. -/
def row : Opcode → Row
  | .nop => ⟨0x00, "NOP", .fixed 0⟩
  | .discardTop => ⟨0x01, "DISCARD_TOP", .fixed (-1)⟩
  | .dupTop => ⟨0x02, "DUP_TOP", .fixed 1⟩
  | .rotTwo => ⟨0x03, "ROT_TWO", .fixed 0⟩
  | .ret => ⟨0x04, "RETURN", .fixed (-1)⟩
  | .loadNull => ⟨0x05, "LOAD_NULL", .fixed 1⟩
  | .loadTrue => ⟨0x06, "LOAD_TRUE", .fixed 1⟩
  | .loadFalse => ⟨0x07, "LOAD_FALSE", .fixed 1⟩
  | .loadThis => ⟨0x08, "LOAD_THIS", .fixed 1⟩
  | .echo => ⟨0x09, "ECHO", .fixed (-1)⟩
  | .print => ⟨0x0a, "PRINT", .fixed 0⟩
  | .unaryMinus => ⟨0x10, "UNARY_MINUS", .fixed 0⟩
  | .unaryPlus => ⟨0x11, "UNARY_PLUS", .fixed 0⟩
  | .unaryNot => ⟨0x12, "UNARY_NOT", .fixed 0⟩
  | .bitwiseNot => ⟨0x13, "BITWISE_NOT", .fixed 0⟩
  | .castInt => ⟨0x14, "CAST_INT", .fixed 0⟩
  | .castString => ⟨0x15, "CAST_STRING", .fixed 0⟩
  | .castArray => ⟨0x16, "CAST_ARRAY", .fixed 0⟩
  | .binaryAdd => ⟨0x20, "BINARY_ADD", .fixed (-1)⟩
  | .binarySub => ⟨0x21, "BINARY_SUB", .fixed (-1)⟩
  | .binaryMul => ⟨0x22, "BINARY_MUL", .fixed (-1)⟩
  | .binaryDiv => ⟨0x23, "BINARY_DIV", .fixed (-1)⟩
  | .binaryMod => ⟨0x24, "BINARY_MOD", .fixed (-1)⟩
  | .binaryConcat => ⟨0x25, "BINARY_CONCAT", .fixed (-1)⟩
  | .binaryEq => ⟨0x26, "BINARY_EQ", .fixed (-1)⟩
  | .binaryNe => ⟨0x27, "BINARY_NE", .fixed (-1)⟩
  | .binaryIs => ⟨0x28, "BINARY_IS", .fixed (-1)⟩
  | .binaryLt => ⟨0x29, "BINARY_LT", .fixed (-1)⟩
  | .binaryLe => ⟨0x2a, "BINARY_LE", .fixed (-1)⟩
  | .binaryGt => ⟨0x2b, "BINARY_GT", .fixed (-1)⟩
  | .binaryGe => ⟨0x2c, "BINARY_GE", .fixed (-1)⟩
  | .binaryAnd => ⟨0x2d, "BINARY_AND", .fixed (-1)⟩
  | .binaryOr => ⟨0x2e, "BINARY_OR", .fixed (-1)⟩
  | .binaryXor => ⟨0x2f, "BINARY_XOR", .fixed (-1)⟩
  | .binaryShl => ⟨0x30, "BINARY_LSHIFT", .fixed (-1)⟩
  | .binaryShr => ⟨0x31, "BINARY_RSHIFT", .fixed (-1)⟩
  | .getItem => ⟨0x38, "GETITEM", .fixed (-1)⟩
  | .setItem => ⟨0x39, "SETITEM", .fixed (-2)⟩
  | .loadConst => ⟨0x40, "LOAD_CONST", .fixed 1⟩
  | .loadName => ⟨0x41, "LOAD_NAME", .fixed 1⟩
  | .storeName => ⟨0x42, "STORE_NAME", .fixed 0⟩
  | .loadFast => ⟨0x43, "LOAD_FAST", .fixed 1⟩
  | .storeFast => ⟨0x44, "STORE_FAST", .fixed 0⟩
  | .getAttr => ⟨0x45, "GETATTR", .fixed 0⟩
  | .setAttr => ⟨0x46, "SETATTR", .fixed (-1)⟩
  | .jumpForward => ⟨0x48, "JUMP_FORWARD", .fixed 0⟩
  | .jumpBackward => ⟨0x49, "JUMP_BACKWARD", .fixed 0⟩
  | .jumpIfFalse => ⟨0x4a, "JUMP_IF_FALSE", .fixed (-1)⟩
  | .jumpIfTrue => ⟨0x4b, "JUMP_IF_TRUE", .fixed (-1)⟩
  | .jumpIfFalseNoPop => ⟨0x4c, "JUMP_IF_FALSE_NO_POP", .fixed 0⟩
  | .jumpIfTrueNoPop => ⟨0x4d, "JUMP_IF_TRUE_NO_POP", .fixed 0⟩
  | .call => ⟨0x50, "CALL", .minusOperand⟩
  | .callMethod => ⟨0x51, "CALL_METHOD", .minusOperand⟩
  | .makeArray => ⟨0x52, "MAKE_ARRAY", .minusOperandPlusOne⟩
  | .makeHash => ⟨0x53, "MAKE_HASH", .minusTwiceOperandPlusOne⟩
  | .interpolate => ⟨0x54, "INTERPOLATE", .minusOperandPlusOne⟩
  | .discardN => ⟨0x55, "DISCARD_N", .minusOperand⟩
  | .declareFunc => ⟨0x58, "DECLARE_FUNC", .fixed 0⟩
  | .declareClass => ⟨0x59, "DECLARE_CLASS", .fixed 0⟩
  | .bindSuperglobal => ⟨0x5a, "BIND_SUPERGLOBAL", .fixed 0⟩
  | .checkstack => ⟨0x7f, "CHECKSTACK", .fixed 0⟩

/-- Every opcode, by increasing byte. -/
def all : List Opcode :=
  [.nop, .discardTop, .dupTop, .rotTwo, .ret, .loadNull, .loadTrue, .loadFalse, .loadThis, .echo,
   .print, .unaryMinus, .unaryPlus, .unaryNot, .bitwiseNot, .castInt, .castString, .castArray,
   .binaryAdd, .binarySub, .binaryMul, .binaryDiv, .binaryMod, .binaryConcat, .binaryEq,
   .binaryNe, .binaryIs, .binaryLt, .binaryLe, .binaryGt, .binaryGe, .binaryAnd, .binaryOr,
   .binaryXor, .binaryShl, .binaryShr, .getItem, .setItem, .loadConst, .loadName, .storeName,
   .loadFast, .storeFast, .getAttr, .setAttr, .jumpForward, .jumpBackward, .jumpIfFalse,
   .jumpIfTrue, .jumpIfFalseNoPop, .jumpIfTrueNoPop, .call, .callMethod, .makeArray, .makeHash,
   .interpolate, .discardN, .declareFunc, .declareClass, .bindSuperglobal, .checkstack]

/-- The byte that stands for the opcode in a stream. -/
def byte (op : Opcode) : UInt8 := op.row.byte

/-- The name of the opcode in listings and sources. -/
def mnemonic (op : Opcode) : String := op.row.mnemonic

/-- The change of the stack height that the opcode makes. -/
def effect (op : Opcode) : StackEffect := op.row.effect

/-- The first byte whose opcode is followed by an operand. -/
def firstWithOperand : UInt8 := 0x40

/-- Whether an operand follows the opcode. -/
def takesOperand (op : Opcode) : Bool := firstWithOperand ≤ op.byte

/-- The opcode that a byte stands for. -/
def ofByte? (b : UInt8) : Option Opcode := all.find? fun op => op.byte = b

/-- The opcode with a given mnemonic, in any mix of ASCII cases. -/
def ofMnemonic? (name : String) : Option Opcode :=
  all.find? fun op => foldCase op.mnemonic = foldCase name

theorem mem_all (op : Opcode) : op ∈ all := by
  cases op <;> decide

theorem ofByte?_byte (op : Opcode) : ofByte? op.byte = some op := by
  cases op <;> decide

end Opcode

end Bytecode
