-- SUMMARY: The passage of a record: its bytes, stretch by stretch, and when a reader finds no fault in them.
import Bytecode.Proofs.Wire.Passage
import Bytecode.Proofs.Wire.RecordLayout

/-!
# Passages of records

`Passage.record` is the passage that a record makes in a buffer, read with a bound on the nesting.
Its bytes are those of the record. It is clean when no more records lie inside one another than the
bound allows, and each of them is sound: its lengths and words are not negative as signed numbers,
and its code passes the stack check.
-/

namespace Bytecode.Wire

namespace Passage

def constant (n : Int64) : Passage :=
  [{ bytes := [intTag] }, { bytes := wordBytes n.toUInt64, met := [n] }]

/-- The slot of the object. The word minus one stands for none, all others must not be negative. -/
def slot : Option UInt64 → Passage
  | none => word noSlot
  | some w => number .thisSlot w.toNat

def params (ps : List (String × ParamKind)) : Passage :=
  counted .paramName (text .paramName) (ps.map (·.1)) ++ blob .paramTags (ps.map (·.2.tag))

/-- A chunk up to the declarations. -/
def chunk (c : Chunk Int64) : Passage :=
  blob .code c.code ++ (counted .constantCount constant c.consts ++ (text .blockName c.name ++
    (text .filename c.filename ++ (number .startLine c.startLine.toNat ++
    (counted .sourceLine (text .sourceLine) c.sourceLines ++
    (counted .name (text .name) c.names ++ (counted .variableName (text .variableName) c.varnames ++
    (counted .superglobalSlot (fun w => number .superglobalSlot w.toNat) c.superglobals ++
    slot c.thisSlot))))))))

def lineMap (c : Chunk Int64) : Passage :=
  counted .lineMapping (fun w => number .lineMapping w.toNat) c.lineMap

/-- The stack check, which takes no bytes. -/
def check (code : List UInt8) : Passage :=
  [{ bytes := []
     fault := match stackDepth code with
       | .ok _ => none
       | .error cause => some fun _ => .build cause }]

section Nested

-- `body` is the passage of a record inside the current one.
variable (body : Record Int64 → Passage)

def routine (r : Routine Int64) : Passage := body r.body ++ params r.params

def member (m : Member Int64) : Passage :=
  text .methodName m.name ++ (word m.flags.bits.toUInt64 ++ routine body m.routine)

def entry : Entry Int64 → Passage
  | .function r => byte Decl.functionTag ++ routine body r
  | .class name members =>
    byte Decl.classTag ++ (text .className name ++ counted .methodCount (member body) members)

def fields (r : Record Int64) : Passage :=
  chunk r.chunk ++ (counted .declarationCount (entry body) r.entries ++
    (lineMap r.chunk ++ check r.chunk.code))

end Nested

/-- A record in which no more than `levels` records may be inside one another. -/
def record : Nat → Record Int64 → Passage
  | 0, r => [{ bytes := r.encode, fault := some .tooDeep }]
  | levels + 1, r => fields (record levels) r

@[simp] theorem bytes_constant (n : Int64) : (constant n).bytes = intBytes n := rfl

@[simp] theorem bytes_slot (s : Option UInt64) : (slot s).bytes = wordBytes (s.getD noSlot) := by
  cases s <;> simp [slot, countBytes_toNat]

@[simp] theorem bytes_params (ps : List (String × ParamKind)) :
    (params ps).bytes = paramsBytes ps := by
  simp [params, paramsBytes, textsBytes]

@[simp] theorem bytes_chunk (c : Chunk Int64) :
    (chunk c).bytes = (chunkPieces c).flatMap Piece.encode := by
  simp [chunk, flatMap_chunkPieces, middleBytes, textsBytes, wordsBytes, countBytes_toNat]

@[simp] theorem bytes_lineMap (c : Chunk Int64) : (lineMap c).bytes = wordsBytes c.lineMap := by
  simp [lineMap, wordsBytes, countBytes_toNat]

@[simp] theorem bytes_check (code : List UInt8) : (check code).bytes = [] := rfl

section Nested

variable {body : Record Int64 → Passage} (hbody : ∀ q, (body q).bytes = q.encode)
include hbody

theorem bytes_routine (r : Routine Int64) : (routine body r).bytes = r.encode := by
  simp [routine, hbody, Routine.encode_eq]

theorem bytes_member (m : Member Int64) : (member body m).bytes = m.encode := by
  simp [member, bytes_routine hbody, Member.encode_eq]

theorem bytes_entry (e : Entry Int64) : (entry body e).bytes = e.encode := by
  cases e <;> simp [entry, bytes_routine hbody, bytes_member hbody, Entry.encode_function,
    Entry.encode_class]

theorem bytes_fields (r : Record Int64) : (fields body r).bytes = r.encode := by
  simp [fields, bytes_entry hbody, Record.encode_eq]

end Nested

theorem bytes_record (levels : Nat) (r : Record Int64) : (record levels r).bytes = r.encode := by
  induction levels generalizing r with
  | zero => simp [record]
  | succ levels ih => exact bytes_fields ih r

end Passage

-- ---------------------------------------------------------------------------
-- Lengths and words
-- ---------------------------------------------------------------------------

section Sound

variable {κ ν : Type}

/-- The lengths of the lists and texts of a chunk. -/
def chunkLengths (c : Chunk κ) : List Nat :=
  [c.code.length, c.consts.length, textLength c.name, textLength c.filename,
    c.superglobals.length, c.lineMap.length] ++
    (textsLengths c.sourceLines ++ (textsLengths c.names ++ textsLengths c.varnames))

def Routine.lengths (r : Routine κ) : List Nat := textsLengths (r.params.map (·.1))

def Member.lengths (m : Member κ) : List Nat := textLength m.name :: m.routine.lengths

def Entry.lengths : Entry κ → List Nat
  | .function r => r.lengths
  | .class name members => textLength name :: members.length :: members.flatMap Member.lengths

/-- The lengths that a record has outside of its bodies. -/
def Record.lengths (r : Record κ) : List Nat :=
  chunkLengths r.chunk ++ (r.entries.length :: r.entries.flatMap Entry.lengths)

theorem Member.lengths_mapBody (g : Record κ → Record ν) (m : Member κ) :
    (m.mapBody g).lengths = m.lengths := rfl

theorem Entry.lengths_mapBodies (g : Record κ → Record ν) (e : Entry κ) :
    (e.mapBodies g).lengths = e.lengths := by
  cases e with
  | function r => rfl
  | «class» name members =>
    simp [Entry.mapBodies, Entry.lengths, List.flatMap_map, Member.lengths_mapBody]

theorem Record.lengths_mapChunks {f : Chunk κ → Chunk ν} (r : Record κ)
    (h : chunkLengths (f r.chunk) = chunkLengths r.chunk) : (r.mapChunks f).lengths = r.lengths := by
  simp only [Record.lengths, Record.chunk_mapChunks, Record.entries_mapChunks, h, List.length_map,
    List.flatMap_map, Entry.lengths_mapBodies]

/-- The words of a chunk that must not be negative as signed numbers. -/
def chunkWords (c : Chunk κ) : List UInt64 :=
  c.startLine :: (c.superglobals ++ (c.thisSlot.toList ++ c.lineMap))

/-- What a record needs, outside of its bodies, for its bytes to say what it is. -/
structure Record.Spellable (r : Record κ) : Prop where
  lengths : ∀ n ∈ r.lengths, n < 2 ^ 64
  slot : r.chunk.thisSlot ≠ some noSlot

/-- What a record needs, outside of its bodies and apart from the stack check, to be accepted. -/
structure Record.WellFormed (r : Record κ) : Prop where
  lengths : ∀ n ∈ r.lengths, n < 2 ^ 63
  words : ∀ w ∈ chunkWords r.chunk, w.toNat < 2 ^ 63

/-- What a record needs, outside of its bodies, to be accepted. -/
structure Record.Sound (r : Record κ) : Prop extends r.WellFormed where
  checked : ∃ depth, stackDepth r.chunk.code = .ok depth

theorem toNat_noSlot : noSlot.toNat = 2 ^ 64 - 1 := by decide

theorem Record.WellFormed.spellable {r : Record κ} (h : r.WellFormed) : r.Spellable where
  lengths n hn := Nat.lt_trans (h.lengths n hn) (by decide)
  slot hslot := by
    have hlt := h.words noSlot (by simp [chunkWords, hslot])
    rw [toNat_noSlot] at hlt
    omega

theorem Record.Sound.spellable {r : Record κ} (h : r.Sound) : r.Spellable :=
  h.toWellFormed.spellable

end Sound

-- ---------------------------------------------------------------------------
-- Clean passages
-- ---------------------------------------------------------------------------

namespace Passage

@[simp] theorem clean_constant (n : Int64) : (constant n).Clean := by
  simp [constant]

@[simp] theorem clean_slot {s : Option UInt64} : (slot s).Clean ↔ ∀ w ∈ s, w.toNat < 2 ^ 63 := by
  cases s <;> simp [slot]

@[simp] theorem clean_check {code : List UInt8} :
    (check code).Clean ↔ ∃ depth, stackDepth code = .ok depth := by
  cases h : stackDepth code <;> simp [check, h]

theorem clean_params {ps : List (String × ParamKind)} :
    (params ps).Clean ↔ ∀ n ∈ textsLengths (ps.map (·.1)), n < 2 ^ 63 := by
  rw [params, clean_append, clean_texts]
  simp only [clean_blob, List.length_map, textsLengths, List.forall_mem_cons]
  tauto

theorem clean_chunk {c : Chunk Int64} :
    (chunk c).Clean ∧ (lineMap c).Clean ↔
      (∀ n ∈ chunkLengths c, n < 2 ^ 63) ∧ ∀ w ∈ chunkWords c, w.toNat < 2 ^ 63 := by
  simp only [chunk, lineMap, clean_append, clean_blob, clean_text, clean_texts]
  simp [chunkLengths, chunkWords, or_imp, forall_and]
  tauto

section Nested

variable {body : Record Int64 → Passage}

theorem clean_routine {r : Routine Int64} :
    (routine body r).Clean ↔ (∀ n ∈ r.lengths, n < 2 ^ 63) ∧ (body r.body).Clean := by
  rw [routine, clean_append, clean_params, and_comm]
  rfl

theorem clean_member {m : Member Int64} :
    (member body m).Clean ↔ (∀ n ∈ m.lengths, n < 2 ^ 63) ∧ (body m.routine.body).Clean := by
  simp [member, clean_routine, Member.lengths, and_assoc]

theorem clean_entry {e : Entry Int64} :
    (entry body e).Clean ↔ (∀ n ∈ e.lengths, n < 2 ^ 63) ∧ ∀ q ∈ e.bodies, (body q).Clean := by
  cases e with
  | function r => simp [entry, clean_routine, Entry.lengths, Entry.bodies]
  | «class» name members =>
    simp only [entry, clean_append, clean_byte, clean_text, clean_counted, clean_member,
      Entry.lengths, Entry.bodies, List.forall_mem_cons, List.forall_mem_flatMap,
      List.forall_mem_map, forall_and]
    tauto

theorem clean_fields {r : Record Int64} :
    (fields body r).Clean ↔ r.Sound ∧ ∀ q ∈ r.bodies, (body q).Clean := by
  have hsound : r.Sound ↔ (∀ n ∈ r.lengths, n < 2 ^ 63) ∧
      (∀ w ∈ chunkWords r.chunk, w.toNat < 2 ^ 63) ∧ ∃ depth, stackDepth r.chunk.code = .ok depth :=
    ⟨fun ⟨⟨h₁, h₂⟩, h₃⟩ => ⟨h₁, h₂, h₃⟩, fun ⟨h₁, h₂, h₃⟩ => ⟨⟨h₁, h₂⟩, h₃⟩⟩
  have hchunk := clean_chunk (c := r.chunk)
  have hentries : (counted .declarationCount (entry body) r.entries).Clean ↔
      (∀ n ∈ r.entries.length :: r.entries.flatMap Entry.lengths, n < 2 ^ 63) ∧
        ∀ q ∈ r.bodies, (body q).Clean := by
    simp only [clean_counted, clean_entry, Record.bodies, List.forall_mem_cons,
      List.forall_mem_flatMap, imp_and, forall_and]
    tauto
  rw [fields, clean_append, clean_append, clean_append, hentries, clean_check, hsound,
    Record.lengths, List.forall_mem_append]
  tauto

end Nested

theorem clean_record {levels : Nat} {r : Record Int64} :
    (record levels r).Clean ↔ r.height ≤ levels ∧ ∀ q ∈ r.records, q.Sound := by
  induction levels generalizing r with
  | zero => simp [record, Nat.not_le.mpr r.height_pos]
  | succ levels ih =>
    simp only [record, clean_fields, ih, Record.height_le_succ_iff, Record.records_eq r,
      List.forall_mem_cons, List.forall_mem_flatMap, imp_and, forall_and]
    tauto

end Passage

end Bytecode.Wire
