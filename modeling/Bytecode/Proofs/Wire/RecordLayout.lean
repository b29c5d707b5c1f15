-- SUMMARY: The bytes of a record from those of its parts, and what a change of all chunks does to them.
import Mathlib
import Bytecode.Proofs.Wire.RecordTree
import Bytecode.Wire.Layout

/-!
# The layout of records

`Record.encode` goes through the pieces of a record. Here are the bytes of each part by itself, and
those of a record as they are put together from them.
-/

namespace Bytecode.Wire

/-- The bytes of a declaration. -/
def Entry.encode (e : Entry Int64) : List UInt8 := (Entry.pieces [e]).flatMap Piece.encode

/-- The bytes of a function. -/
def Routine.encode (r : Routine Int64) : List UInt8 := (Routine.pieces r).flatMap Piece.encode

/-- The bytes of a method. -/
def Member.encode (m : Member Int64) : List UInt8 := (Member.pieces [m]).flatMap Piece.encode

theorem Entry.flatMap_pieces (entries : List (Entry Int64)) :
    (Entry.pieces entries).flatMap Piece.encode = entries.flatMap Entry.encode := by
  induction entries with
  | nil => rfl
  | cons e rest ih => cases e <;> simp [Entry.pieces, Entry.encode, ih]

theorem Member.flatMap_pieces (members : List (Member Int64)) :
    (Member.pieces members).flatMap Piece.encode = members.flatMap Member.encode := by
  induction members with
  | nil => rfl
  | cons m rest ih =>
    obtain ⟨_, _, _⟩ := m
    simp [Member.pieces, Member.encode, ih]

theorem flatMap_chunkPieces (c : Chunk Int64) :
    (chunkPieces c).flatMap Piece.encode =
      blobBytes c.code ++ (countBytes c.consts.length ++
        (c.consts.flatMap intBytes ++ middleBytes c)) := by
  have hconsts : (c.consts.map Piece.const).flatMap Piece.encode = c.consts.flatMap intBytes := by
    rw [List.flatMap_map]
    rfl
  simp [chunkPieces, hconsts, Piece.encode]

theorem Record.encode_eq (r : Record Int64) :
    r.encode = (chunkPieces r.chunk).flatMap Piece.encode ++ (countBytes r.entries.length ++
      (r.entries.flatMap Entry.encode ++ wordsBytes r.chunk.lineMap)) := by
  obtain ⟨chunk, entries⟩ := r
  simp [Record.encode, Record.pieces, Entry.flatMap_pieces, Piece.encode]

theorem Routine.encode_eq (r : Routine Int64) :
    r.encode = r.body.encode ++ paramsBytes r.params := by
  obtain ⟨body, params⟩ := r
  simp [Routine.encode, Routine.pieces, Record.encode, Piece.encode]

theorem Entry.encode_function (r : Routine Int64) :
    (Entry.function r).encode = Decl.functionTag :: r.encode := by
  simp [Entry.encode, Entry.pieces, Routine.encode, Piece.encode]

theorem Entry.encode_class (name : String) (members : List (Member Int64)) :
    (Entry.class name members).encode =
      Decl.classTag ::
        (textBytes name ++ (countBytes members.length ++ members.flatMap Member.encode)) := by
  simp [Entry.encode, Entry.pieces, Member.flatMap_pieces, Piece.encode]

theorem Member.encode_eq (m : Member Int64) :
    m.encode = textBytes m.name ++ (wordBytes m.flags.bits.toUInt64 ++ m.routine.encode) := by
  obtain ⟨name, flags, routine⟩ := m
  simp [Member.encode, Member.pieces, Routine.encode, Piece.encode]

/-- A piece with another constant. -/
def Piece.map {κ ν : Type} (g : κ → ν) : Piece κ → Piece ν
  | .bytes bs => .bytes bs
  | .const k => .const (g k)

variable {κ ν : Type}

/-- A change of chunks that puts other constants on the wire and leaves all other bytes there. -/
structure ChangesConstants (f : Chunk κ → Chunk ν) (g : κ → ν) : Prop where
  pieces : ∀ c, chunkPieces (f c) = (chunkPieces c).map (Piece.map g)
  lineMap : ∀ c, (f c).lineMap = c.lineMap

variable {f : Chunk κ → Chunk ν} {g : κ → ν}

mutual

theorem Record.pieces_mapChunks (h : ChangesConstants f g) :
    ∀ r : Record κ, (r.mapChunks f).pieces = r.pieces.map (Piece.map g)
  | ⟨chunk, entries⟩ => by
    have hentries := Entry.pieces_mapAll h entries
    have hcount : (Entry.mapAll f entries).length = entries.length := by simp [Entry.mapAll_eq]
    simp [Record.mapChunks, Record.pieces, Piece.map, h.pieces, h.lineMap, hentries, hcount]

theorem Entry.pieces_mapAll (h : ChangesConstants f g) :
    ∀ entries : List (Entry κ),
      Entry.pieces (Entry.mapAll f entries) = (Entry.pieces entries).map (Piece.map g)
  | [] => rfl
  | .function r :: rest => by
    have hroutine := Routine.pieces_mapChunks h r
    simp [Entry.mapAll, Entry.pieces, Piece.map, hroutine, Entry.pieces_mapAll h rest]
  | .class name members :: rest => by
    have hmembers := Member.pieces_mapAll h members
    have hcount : (Member.mapAll f members).length = members.length := by simp [Member.mapAll_eq]
    simp [Entry.mapAll, Entry.pieces, Piece.map, hmembers, hcount, Entry.pieces_mapAll h rest]

theorem Routine.pieces_mapChunks (h : ChangesConstants f g) :
    ∀ r : Routine κ, Routine.pieces (r.mapChunks f) = (Routine.pieces r).map (Piece.map g)
  | ⟨body, params⟩ => by
    have hbody := Record.pieces_mapChunks h body
    simp [Routine.mapChunks, Routine.pieces, Piece.map, hbody]

theorem Member.pieces_mapAll (h : ChangesConstants f g) :
    ∀ members : List (Member κ),
      Member.pieces (Member.mapAll f members) = (Member.pieces members).map (Piece.map g)
  | [] => rfl
  | ⟨name, flags, routine⟩ :: rest => by
    have hroutine := Routine.pieces_mapChunks h routine
    simp [Member.mapAll, Member.pieces, Piece.map, hroutine, Member.pieces_mapAll h rest]

end

end Bytecode.Wire
