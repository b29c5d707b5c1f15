-- SUMMARY: The byte layout of records.
import Bytecode.Text.Utf8
import Bytecode.Wire.Record
import Bytecode.Wire.Word

/-!
# Layout

A text is written as its length and its UTF-8 bytes, a list as its length and its items. A record
holds, in order: code, constants, name, file name, start line, source lines, names, variable names,
superglobals, the slot of the object (all ones for none), the declarations, and the line map.

`Record.pieces` gives a record as bytes with its constants in between, whatever they are;
`Record.encode` gives the bytes of a record whose constants are integers, the only ones with a
spelling.
-/

namespace Bytecode.Wire

/-- A count or length. -/
def countBytes (n : Nat) : List UInt8 := wordBytes (UInt64.ofNat n)

/-- A string of bytes after its length. -/
def blobBytes (bytes : List UInt8) : List UInt8 := countBytes bytes.length ++ bytes

/-- A text after its length. -/
def textBytes (s : String) : List UInt8 := blobBytes (Text.utf8 s)

/-- Texts after their number. -/
def textsBytes (items : List String) : List UInt8 :=
  countBytes items.length ++ items.flatMap textBytes

/-- Words after their number. -/
def wordsBytes (items : List UInt64) : List UInt8 :=
  countBytes items.length ++ items.flatMap wordBytes

/-- The byte in front of an integer constant. -/
def intTag : UInt8 := 0x69

/-- An integer constant. -/
def intBytes (n : Int64) : List UInt8 := intTag :: wordBytes n.toUInt64

/-- The word that stands for no slot: minus one. -/
def noSlot : UInt64 := (-1 : Int64).toUInt64

/-- The parameters of a function: all names, then all kinds. -/
def paramsBytes (params : List (String × ParamKind)) : List UInt8 :=
  textsBytes (params.map (·.1)) ++ blobBytes (params.map (·.2.tag))

/-- The part of a chunk between its constants and the declarations. -/
def middleBytes {κ : Type} (c : Chunk κ) : List UInt8 :=
  textBytes c.name ++ textBytes c.filename ++ wordBytes c.startLine ++ textsBytes c.sourceLines ++
    textsBytes c.names ++ textsBytes c.varnames ++ wordsBytes c.superglobals ++
    wordBytes (c.thisSlot.getD noSlot)

/-- A part of a record as it is written: bytes, or a constant. -/
inductive Piece (κ : Type) where
  | bytes (bs : List UInt8)
  | const (k : κ)

/-- A chunk up to the declarations. -/
def chunkPieces {κ : Type} (c : Chunk κ) : List (Piece κ) :=
  .bytes (blobBytes c.code ++ countBytes c.consts.length) :: c.consts.map .const ++
    [.bytes (middleBytes c)]

section Pieces

variable {κ : Type}

mutual

/-- A block with everything in it. -/
def Record.pieces : Record κ → List (Piece κ)
  | ⟨chunk, entries⟩ =>
    chunkPieces chunk ++ .bytes (countBytes entries.length) ::
      (Entry.pieces entries ++ [.bytes (wordsBytes chunk.lineMap)])

/-- Declarations, each after its tag. -/
def Entry.pieces : List (Entry κ) → List (Piece κ)
  | [] => []
  | .function r :: rest => .bytes [Decl.functionTag] :: (Routine.pieces r ++ Entry.pieces rest)
  | .class name members :: rest =>
    .bytes ([Decl.classTag] ++ textBytes name ++ countBytes members.length) ::
      (Member.pieces members ++ Entry.pieces rest)

/-- A function. -/
def Routine.pieces : Routine κ → List (Piece κ)
  | ⟨body, params⟩ => Record.pieces body ++ [.bytes (paramsBytes params)]

/-- Methods. -/
def Member.pieces : List (Member κ) → List (Piece κ)
  | [] => []
  | ⟨name, flags, routine⟩ :: rest =>
    .bytes (textBytes name ++ wordBytes flags.bits.toUInt64) ::
      (Routine.pieces routine ++ Member.pieces rest)

end

end Pieces

/-- A piece whose constant is an integer. -/
def Piece.encode : Piece Int64 → List UInt8
  | .bytes bs => bs
  | .const n => intBytes n

/-- The bytes of a record with integer constants. -/
def Record.encode (r : Record Int64) : List UInt8 := r.pieces.flatMap Piece.encode

end Bytecode.Wire
