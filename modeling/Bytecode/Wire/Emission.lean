-- SUMMARY: Writing block trees as bytes, as far as their constants can be written.
import Bytecode.Wire.Layout

/-!
# Emissions

Only integer constants can be written. An emission holds what is written in front of the first
constant that cannot be, and the fault. A writer adds a block tree to a buffer field by field; when it
meets such a constant, in whatever depth of the tree, it leaves the buffer as it is then.
-/

namespace Bytecode

/-- Why a block tree cannot be written. -/
inductive SerializeError where
  | unsupportedConstant (typeName : String)
  deriving DecidableEq

def SerializeError.message : SerializeError → String
  | .unsupportedConstant typeName => s!"serializing {typeName} constants is not implemented"

namespace Wire

/-- The bytes of a constant. -/
def constBytes : Value → Except SerializeError (List UInt8)
  | .int n => .ok (intBytes n)
  | v => .error (.unsupportedConstant v.typeName)

/-- The bytes of a piece. -/
def Piece.write : Piece Value → Except SerializeError (List UInt8)
  | .bytes bs => .ok bs
  | .const v => constBytes v

/-- Bytes that were written, and the fault that ended the writing, if one did. -/
structure Emission where
  bytes : List UInt8 := []
  fault : Option SerializeError := none
  deriving DecidableEq

namespace Emission

/-- Writes pieces up to the first that cannot be written. -/
def ofPieces : List (Piece Value) → Emission
  | [] => {}
  | piece :: rest =>
    match piece.write with
    | .ok bytes =>
      let tail := ofPieces rest
      { tail with bytes := bytes ++ tail.bytes }
    | .error fault => { fault := some fault }

/-- The bytes, if nothing went wrong. -/
def result (e : Emission) : Except SerializeError (List UInt8) :=
  match e.fault with
  | none => .ok e.bytes
  | some fault => .error fault

end Emission

end Wire

/-- The emission of a block tree. -/
def Block.emit (b : Block) : Wire.Emission := .ofPieces b.record.pieces

/-- The bytes of a block tree, if all its constants can be written. -/
def Block.serialize (b : Block) : Except SerializeError (List UInt8) := b.emit.result

-- ---------------------------------------------------------------------------
-- Writing in place
-- ---------------------------------------------------------------------------

namespace Wire

/-- A step that adds to a buffer; what it has added stays there when it fails. -/
abbrev Writer := EStateM SerializeError (Array UInt8) Unit

namespace Writer

/-- Adds bytes. -/
def add (bytes : List UInt8) : Writer := modify fun buffer : Array UInt8 => buffer ++ bytes

/-- Adds a constant, if it is an integer. -/
def constant (v : Value) : Writer :=
  match constBytes v with
  | .ok bytes => add bytes
  | .error fault => throw fault

mutual

/-- Adds a block with everything in it. -/
def block : Block → Writer
  | ⟨chunk, _, decls⟩ => do
    add (blobBytes chunk.code)
    add (countBytes chunk.consts.length)
    chunk.consts.forM constant
    add (middleBytes chunk)
    add (countBytes decls.length)
    declarations decls
    add (wordsBytes chunk.lineMap)

/-- Adds declarations, each after its tag. -/
def declarations : List Decl → Writer
  | [] => pure ()
  | .function f :: rest => do
    add [Decl.functionTag]
    function f
    declarations rest
  | .class c :: rest => do
    add [Decl.classTag]
    «class» c
    declarations rest

/-- Adds a function. -/
def function : Function → Writer
  | ⟨signature, body⟩ => do
    block body
    add (paramsBytes (signature.params.map Param.entry))

/-- Adds a class. -/
def «class» : Class → Writer
  | ⟨header, methods⟩ => do
    add (textBytes header.name)
    add (countBytes methods.length)
    members methods

/-- Adds methods. -/
def members : List (String × Method) → Writer
  | [] => pure ()
  | (name, ⟨flags, f⟩) :: rest => do
    add (textBytes name)
    add (wordBytes flags.bits.toUInt64)
    function f
    members rest

end

end Writer

/-- A buffer to which block trees are written one after the other. -/
structure Serializer where
  buffer : Array UInt8 := #[]

namespace Serializer

/-- What has been written so far. -/
def bytes (s : Serializer) : List UInt8 := s.buffer.toList

/-- Writes a block tree: what kept it from being written, if anything did, and the buffer after it. -/
def write (s : Serializer) (b : Block) : Option SerializeError × Serializer :=
  match Writer.block b s.buffer with
  | .ok _ buffer => (none, { buffer })
  | .error fault buffer => (some fault, { buffer })

/-- Writes block trees one after the other, whether or not those before could be written. -/
def writeAll (s : Serializer) : List Block → List (Option SerializeError) × Serializer
  | [] => ([], s)
  | b :: rest =>
    let (fault, s) := s.write b
    let (faults, s) := s.writeAll rest
    (fault :: faults, s)

end Serializer

end Wire

end Bytecode
