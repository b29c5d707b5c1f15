-- SUMMARY: Static verification of the operand-stack height along an instruction stream.
import Bytecode.Listing

/-!
# The stack check

One pass over the instructions in stream order, without following jumps. The height must never fall
below zero, every checkpoint must name the height it is reached at, and the last height must be zero.
`stackDepth` gives the greatest height on the way, or the first thing that is wrong. Heights are
64-bit machine words.
-/

namespace Bytecode

/-- What is wrong with the heights along a stream. -/
inductive StackError where
  /-- After the instruction at `offset` the height is below zero. -/
  | underflow (offset : Nat) (opcode : Opcode) (depth : Int64)
  /-- The checkpoint at `offset` names another height than the one found there. -/
  | checkpointMismatch (offset : Nat) (expected : Nat) (actual : Int64)
  /-- Values are left over at the end. -/
  | unbalanced (depth : Int64)
  deriving DecidableEq

/-- Why a stream cannot be the code of a block. -/
inductive BuildError where
  | instruction (cause : InstructionError)
  | stack (cause : StackError)
  deriving DecidableEq

def StackError.message : StackError → String
  | .underflow offset opcode depth =>
    s!"stack underflow after {opcode.mnemonic} at offset {offset} (depth {depth.toInt})"
  | .checkpointMismatch offset expected actual =>
    s!"CHECKSTACK at offset {offset} expected depth {expected}, found {actual.toInt}"
  | .unbalanced depth => s!"block ends with {depth.toInt} values left on the stack"

namespace BuildError

/-- The text of what went wrong in the first place. -/
def causeMessage : BuildError → String
  | .instruction cause => cause.message
  | .stack cause => cause.message

def message : BuildError → String
  | .instruction cause => s!"malformed instruction: {cause.message}"
  | .stack cause => s!"internal error: {cause.message}"

/-- The messages from the outermost to the first cause. -/
def chain (e : BuildError) : List String := [e.message, e.causeMessage]

end BuildError

/-- The height reached, and the greatest height on the way there. -/
structure StackHeight where
  current : Int64 := 0
  peak : Int64 := 0
  deriving DecidableEq

namespace StackHeight

/-- Passes one instruction: a checkpoint is compared before the effect, the sign is tested after it. -/
def pass (h : StackHeight) (i : Instruction) : Except StackError StackHeight :=
  let operand := i.operand.getD 0
  if i.opcode = .checkstack ∧ h.current ≠ Int64.ofNat operand then
    .error (.checkpointMismatch i.offset operand h.current)
  else
    let current := h.current + i.opcode.effect.apply operand
    if current < 0 then .error (.underflow i.offset i.opcode current)
    else .ok ⟨current, if h.peak < current then current else h.peak⟩

/-- Passes instructions in order, up to the first that is wrong. -/
def passAll (h : StackHeight) (is : List Instruction) : Except StackError StackHeight :=
  is.foldlM pass h

end StackHeight

/-- The greatest height along a listing, or the first thing that is wrong with it. -/
def Listing.stackDepth (l : Listing) : Except BuildError Nat :=
  match StackHeight.passAll {} l.instructions with
  | .error e => .error (.stack e)
  | .ok h =>
    match l.fault with
    | some e => .error (.instruction e)
    | none =>
      if h.current = 0 then .ok h.peak.toInt.toNat
      else .error (.stack (.unbalanced h.current))

/-- The operand-stack slots that a stream needs, if it passes the check. -/
def stackDepth (code : List UInt8) : Except BuildError Nat := (Listing.ofBytes code).stackDepth

end Bytecode
