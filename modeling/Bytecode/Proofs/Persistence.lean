-- SUMMARY: What becomes of a block tree that is written and loaded again.
import Bytecode.Proofs.Stripped
import Bytecode.Proofs.Wire.RecordReading
import Bytecode.Proofs.Wire.Serializing

/-!
# Persistence

A persistable block tree can be written, and loading what was written gives the tree back, stripped
of what is not on the wire. For other trees that can be written, loading the bytes fails or gives the
tree back, but for one word: a slot of the object that is minus one as a signed number is loaded as
no slot.
-/

namespace Bytecode

open Wire

-- ---------------------------------------------------------------------------
-- Persistable trees
-- ---------------------------------------------------------------------------

/-- The block passed the stack check, and its classes were put together by name. -/
structure Block.Built (b : Block) : Prop where
  checked : Block.build? b.chunk b.owner b.decls = .ok b
  assembled : ∀ c, Decl.class c ∈ b.decls → c.Assembled

/-- The tree can be written, and unless it is too deep it can be loaded. -/
structure Block.Storable (t : Block) : Prop where
  built : ∀ b ∈ t.blocks, b.Built
  ints : ∀ b ∈ t.blocks, ∀ v ∈ b.chunk.consts, ∃ n, v = .int n
  words : ∀ b ∈ t.blocks, ∀ w ∈ chunkWords b.chunk, w.toNat ≤ 2 ^ 63 - 1
  lengths : ∀ b ∈ t.blocks, ∀ n ∈ b.record.lengths, n < 2 ^ 63

/-- The tree can be written and loaded. -/
structure Block.Persistable (t : Block) : Prop extends t.Storable where
  nesting : t.height ≤ 128

/-- The code of a block that was built has passed the stack check. -/
theorem Block.exists_stackDepth_of_build? {chunk : Chunk Value} {owner : Option String}
    {decls : List Decl} {b : Block} (h : Block.build? chunk owner decls = .ok b) :
    ∃ depth, stackDepth chunk.code = .ok depth := by
  unfold Block.build? at h
  cases hdepth : stackDepth chunk.code with
  | ok depth => exact ⟨depth, rfl⟩
  | error e => simp [hdepth] at h

theorem Block.Built.exists_stackDepth {b : Block} (h : b.Built) :
    ∃ depth, stackDepth b.chunk.code = .ok depth :=
  Block.exists_stackDepth_of_build? h.checked

theorem Block.Storable.sound {t b : Block} (h : t.Storable) (hb : b ∈ t.blocks) :
    b.record.Sound where
  lengths := h.lengths b hb
  words w hw := by
    rw [Block.chunk_record] at hw
    have hle := h.words b hb w hw
    omega
  checked := by
    rw [Block.chunk_record]
    exact (h.built b hb).exists_stackDepth

section Ints

variable {t : Block} {r : Record Int64}

theorem Block.exists_of_mem_records (hr : t.record = r.values) {q : Record Int64}
    (hq : q ∈ r.records) : ∃ b ∈ t.blocks, b.record = q.values := by
  have hmem : q.values ∈ t.record.records := by
    rw [hr, Record.values, Record.records_mapChunks]
    exact List.mem_map_of_mem hq
  rw [Block.records_record] at hmem
  exact List.mem_map.mp hmem

theorem Block.height_le_of_record (hr : t.record = r.values) {n : Nat} (h : t.height ≤ n) :
    r.height ≤ n := by
  rw [← Block.height_record_le_iff, hr, Record.values, Record.height_mapChunks_le_iff] at h
  exact h

end Ints

/-- A storable tree has the record of a sound record of integers. -/
theorem Block.Storable.exists_record {t : Block} (h : t.Storable) :
    ∃ r : Record Int64, t.record = r.values ∧ ∀ q ∈ r.records, q.Sound := by
  have hints : ∀ q ∈ t.record.records, ∀ v ∈ q.chunk.consts, ∃ n, v = .int n := by
    rw [Block.forall_mem_records_record]
    simpa only [Block.chunk_record] using h.ints
  obtain ⟨r, hr⟩ := Record.exists_eq_values hints
  refine ⟨r, hr, fun q hq => ?_⟩
  obtain ⟨b, hb, hrecord⟩ := Block.exists_of_mem_records hr hq
  exact Record.sound_of_values (hrecord ▸ h.sound hb)

/-- A persistable tree can be written, and any host that keeps integers loads it stripped. -/
theorem Block.load_serialize {t : Block} (h : t.Persistable) :
    ∃ bytes, t.serialize = .ok bytes ∧
      ∀ (σ : Type) (host : Host σ) (s : σ), KeepsInts host →
        ((Block.load host bytes).run s).1 = .ok (t.stripped none) := by
  have hints : ∀ q ∈ t.record.records, ∀ v ∈ q.chunk.consts, ∃ n, v = .int n := by
    rw [Block.forall_mem_records_record]
    simpa only [Block.chunk_record] using h.ints
  obtain ⟨r, hr⟩ := Record.exists_eq_values hints
  have hsound : ∀ q ∈ r.records, q.Sound := by
    intro q hq
    obtain ⟨b, hb, hrecord⟩ := Block.exists_of_mem_records hr hq
    exact Record.sound_of_values (hrecord ▸ h.sound hb)
  have hblock : r.values.block none = t.stripped none := by
    have hassembled : ∀ b ∈ t.blocks, ∀ c, Decl.class c ∈ b.decls → c.Assembled :=
      fun b hb => (h.built b hb).assembled
    rw [← hr, Block.stripped, ← Block.block_record_mapChunks hassembled,
      Record.mapChunks_eq_self fun _ _ => rfl]
  refine ⟨r.encode, serialize_eq_ok_iff.mpr ⟨r, hr, rfl⟩, fun σ host s hhost => ?_⟩
  rw [load_encode hhost (Block.height_le_of_record hr h.nesting) hsound, hblock]

/-- A block that returns null. -/
def Block.returning (name : String) (slot : Option UInt64) (owner : Option String) : Block where
  chunk := { code := [0x05, 0x04], name, thisSlot := slot }
  owner := owner

theorem Block.built_returning (name : String) (slot : Option UInt64) (owner : Option String) :
    (Block.returning name slot owner).Built where
  checked := by
    have hcode : stackDepth [0x05, 0x04] = .ok 1 := by cbv
    simp [Block.returning, Block.build?, hcode]
  assembled := by simp [Block.returning]

/-- A class with nothing but a constructor. -/
def Class.point : Class :=
  Class.ofMethods { name := "Point" } [(Class.constructorName,
    { flags := .isPublic
      function := { signature := {}, body := .returning Class.constructorName (some 0) "Point" } })]

/-- A program with a function, a class and a constant. -/
def Block.program : Block where
  chunk := { consts := [.int 7] }
  decls :=
    [.function
      { signature := { params := [{ name := "rest", kind := .variadic }] }
        body := .returning "f" none none },
     .class Class.point]

theorem Block.blocks_program : Block.program.blocks =
    [.program, .returning "f" none none, .returning Class.constructorName (some 0) "Point"] := rfl

theorem Block.persistable_program : Block.program.Persistable where
  built := by
    have hcode : stackDepth [] = .ok 0 := by cbv
    have hprogram : Block.program.Built := by
      refine ⟨by simp [Block.program, Block.build?, hcode], fun c hc => ?_⟩
      have hpoint : c = Class.point := by simpa [Block.program] using hc
      rw [hpoint]
      exact Class.assembled_ofMethods _ _
    simp [Block.blocks_program, hprogram, Block.built_returning]
  ints := by
    rw [Block.blocks_program]
    simp [Block.program, Block.returning]
  words := by
    rw [Block.blocks_program]
    simp [Block.program, Block.returning, chunkWords]
  lengths := by decide +kernel
  nesting := by decide

theorem Block.load_serialize_program :
    Block.program.Persistable ∧ ∃ bytes, Block.program.serialize = .ok bytes ∧
      ((Block.load Host.silent bytes).run ()).1 = .ok (Block.program.stripped none) := by
  refine ⟨Block.persistable_program, ?_⟩
  obtain ⟨bytes, hserialize, hload⟩ := Block.load_serialize Block.persistable_program
  exact ⟨bytes, hserialize, hload Unit Host.silent () keepsInts_silent⟩

-- ---------------------------------------------------------------------------
-- Slots on the wire
-- ---------------------------------------------------------------------------

/-- The chunk as it is loaded: the slot minus one is none. -/
def Chunk.onWire {κ : Type} (c : Chunk κ) : Chunk κ :=
  { c with thisSlot := if c.thisSlot = some noSlot then none else c.thisSlot }

theorem Chunk.onWire_eq_self_iff {κ : Type} {c : Chunk κ} :
    c.onWire = c ↔ c.thisSlot ≠ some noSlot := by
  constructor
  · intro heq hslot
    have h := congrArg Chunk.thisSlot heq
    simp [Chunk.onWire, hslot] at h
  · intro h
    simp [Chunk.onWire, if_neg h]

theorem changesConstants_onWire {κ : Type} :
    ChangesConstants (Chunk.onWire (κ := κ)) fun k => k where
  pieces c := by
    have hslot : c.onWire.thisSlot.getD noSlot = c.thisSlot.getD noSlot := by
      by_cases h : c.thisSlot = some noSlot <;> simp [Chunk.onWire, h]
    have hmiddle : middleBytes c.onWire = middleBytes c := by
      simp only [middleBytes, hslot]
      rfl
    simp only [chunkPieces, hmiddle]
    simp [Chunk.onWire, Piece.map]
  lineMap _ := rfl

theorem Wire.Record.encode_onWire (r : Record Int64) : (r.mapChunks Chunk.onWire).encode = r.encode := by
  have hid : Piece.map (fun n : Int64 => n) = id := by
    funext p
    cases p <;> rfl
  rw [Record.encode, Record.pieces_mapChunks changesConstants_onWire, hid, List.map_id, Record.encode]

theorem Wire.Record.spellable_onWire {q : Record Int64} (h : ∀ n ∈ q.lengths, n < 2 ^ 64) :
    (q.mapChunks Chunk.onWire).Spellable where
  lengths := by
    have hchunk : chunkLengths q.chunk.onWire = chunkLengths q.chunk := by
      simp [chunkLengths, Chunk.onWire]
    rwa [Record.lengths_mapChunks q hchunk]
  slot := by
    rw [Record.chunk_mapChunks]
    by_cases hslot : q.chunk.thisSlot = some noSlot <;> simp [Chunk.onWire, hslot]

theorem Wire.Record.values_onWire (r : Record Int64) :
    (r.mapChunks Chunk.onWire).values = r.values.mapChunks Chunk.onWire := by
  rw [Record.values, Record.values, Record.mapChunks_mapChunks, Record.mapChunks_mapChunks]
  rfl

/-- Bytes of a record are read, if at all, as the record with its slots as they are loaded. -/
theorem Wire.Record.read_encode_onWire {r q : Record Int64}
    (h : ∀ p ∈ r.records, ∀ n ∈ p.lengths, n < 2 ^ 64) (hread : (Record.read r.encode).1 = .ok q) :
    q = r.mapChunks Chunk.onWire := by
  have hspellable : ∀ p ∈ (r.mapChunks Chunk.onWire).records, p.Spellable := by
    rw [Record.records_mapChunks, List.forall_mem_map]
    exact fun p hp => Record.spellable_onWire (h p hp)
  have hverdict := Record.read_encode hspellable
  rw [Record.encode_onWire, hread] at hverdict
  split at hverdict <;> cases hverdict
  rfl

/--
Whatever the words of a tree are, its bytes are loaded, if at all, as the stripped tree with its
slots as they are loaded. The two have the same record exactly if no block has the slot minus one.
The lists of a tree in memory are no longer than a word can count.
-/
theorem Block.record_load_serialize {σ : Type} {host : Host σ} {s : σ} {t t' : Block}
    {bytes : List UInt8} (hhost : KeepsInts host) (hbuilt : ∀ b ∈ t.blocks, b.Built)
    (hlengths : ∀ b ∈ t.blocks, ∀ n ∈ b.record.lengths, n < 2 ^ 64)
    (hserialize : t.serialize = .ok bytes)
    (hload : ((Block.load host bytes).run s).1 = .ok t') :
    t' = t.strippedWith Chunk.onWire none ∧
      (t'.record = t.record ↔ ∀ b ∈ t.blocks, b.chunk.thisSlot ≠ some noSlot) := by
  obtain ⟨r, hr, rfl⟩ := serialize_eq_ok_iff.mp hserialize
  obtain ⟨q, hread, rfl⟩ := (load_eq_ok_iff hhost).mp hload
  have hints : ∀ p ∈ r.records, ∀ n ∈ p.lengths, n < 2 ^ 64 := by
    intro p hp
    obtain ⟨b, hb, hrecord⟩ := Block.exists_of_mem_records hr hp
    rw [← Record.lengths_values, ← hrecord]
    exact hlengths b hb
  have hloaded : q.values.block none = t.strippedWith Chunk.onWire none := by
    rw [Record.read_encode_onWire hints hread, Record.values_onWire, ← hr]
    exact Block.block_record_mapChunks fun b hb => (hbuilt b hb).assembled
  refine ⟨hloaded, ?_⟩
  have hself : t.record.mapChunks Chunk.onWire = t.record ↔
      ∀ b ∈ t.blocks, b.chunk.onWire = b.chunk := by
    have hid : t.record.mapChunks (fun c => c) = t.record := Record.mapChunks_eq_self fun _ _ => rfl
    rw [← hid, Record.mapChunks_mapChunks, Record.mapChunks_eq_iff, Block.forall_mem_records_record]
    simp only [Block.chunk_record]
  rw [hloaded, Block.record_strippedWith, hself]
  simp only [Chunk.onWire_eq_self_iff]

/-- A block that has its object in the last slot there is. -/
def Block.lastSlot : Block := { chunk := { thisSlot := some 0xFFFFFFFFFFFFFFFF } }

theorem Block.built_of_mem_lastSlot {b : Block} (hb : b ∈ Block.lastSlot.blocks) : b.Built where
  checked := by
    have hcode : stackDepth [] = .ok 0 := by cbv
    rw [List.mem_singleton.mp hb]
    simp [Block.build?, hcode]
  assembled := by
    rw [List.mem_singleton.mp hb]
    simp

theorem Block.serialize_lastSlot : Block.lastSlot.serialize = .ok Record.empty.encode := by
  refine serialize_eq_ok_iff.mpr ⟨⟨{ thisSlot := some noSlot }, []⟩, rfl, ?_⟩
  exact Record.encode_onWire ⟨{ thisSlot := some noSlot }, []⟩

theorem Block.record_load_serialize_lastSlot :
    (KeepsInts Host.silent ∧ (∀ b ∈ Block.lastSlot.blocks, b.Built) ∧
      (∀ b ∈ Block.lastSlot.blocks, ∀ n ∈ b.record.lengths, n < 2 ^ 64) ∧
      Block.lastSlot.serialize = .ok Record.empty.encode ∧
      ((Block.load Host.silent Record.empty.encode).run ()).1 = .ok { chunk := {} }) ∧
    ({ chunk := {} } : Block) = Block.lastSlot.strippedWith Chunk.onWire none := by
  have hbuilt : ∀ b ∈ Block.lastSlot.blocks, b.Built := fun _ hb => Block.built_of_mem_lastSlot hb
  have hlengths : ∀ b ∈ Block.lastSlot.blocks, ∀ n ∈ b.record.lengths, n < 2 ^ 64 := by
    decide +kernel
  refine ⟨⟨keepsInts_silent, hbuilt, hlengths, Block.serialize_lastSlot, load_encode_empty⟩, ?_⟩
  exact (Block.record_load_serialize keepsInts_silent hbuilt hlengths Block.serialize_lastSlot
    load_encode_empty).1

/-- A block is built and written, and what is loaded has lost its slot. -/
theorem Block.exists_lost_slot : ∃ (t t' : Block) (bytes : List UInt8),
    (∀ b ∈ t.blocks, b.Built) ∧ t.serialize = .ok bytes ∧ Block.deserialize bytes = .ok t' ∧
      t.chunk.thisSlot = some 0xFFFFFFFFFFFFFFFF ∧ t'.chunk.thisSlot = none := by
  have hload : Block.deserialize Record.empty.encode = .ok { chunk := {} } := by
    rw [deserialize_eq_load, load_encode_empty]
  refine ⟨Block.lastSlot, { chunk := {} }, Record.empty.encode, ?_, Block.serialize_lastSlot, hload,
    rfl, rfl⟩
  exact fun _ hb => Block.built_of_mem_lastSlot hb

end Bytecode
