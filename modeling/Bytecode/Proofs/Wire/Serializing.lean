-- SUMMARY: Which block trees can be written, and as what: those with integer constants, as the bytes of their records.
import Bytecode.Proofs.BlockTree
import Bytecode.Proofs.Wire.Loading
import Bytecode.Proofs.Wire.RecordPassage
import Bytecode.Wire.Emission

/-!
# Serializing

A block tree can be written if all its constants are integers. Its record is then the record of
values of a record of integers, and the bytes of that are what is written.
-/

namespace Bytecode.Wire

variable {κ ν : Type}

theorem Member.const_mem_pieces {members : List (Member κ)} {k : κ} :
    Piece.const k ∈ Member.pieces members ↔
      ∃ m ∈ members, Piece.const k ∈ m.routine.body.pieces := by
  induction members with
  | nil => simp [Member.pieces]
  | cons m rest ih =>
    obtain ⟨_, _, _, _⟩ := m
    simp [Member.pieces, Routine.pieces, ih]

theorem Entry.const_mem_pieces {entries : List (Entry κ)} {k : κ} :
    Piece.const k ∈ Entry.pieces entries ↔
      ∃ e ∈ entries, ∃ q ∈ e.bodies, Piece.const k ∈ q.pieces := by
  induction entries with
  | nil => simp [Entry.pieces]
  | cons e rest ih =>
    cases e with
    | function r =>
      obtain ⟨_, _⟩ := r
      simp [Entry.pieces, Routine.pieces, Entry.bodies, ih]
    | «class» name members =>
      simp [Entry.pieces, Member.const_mem_pieces, Entry.bodies, ih]

theorem Record.const_mem_pieces {r : Record κ} {k : κ} :
    Piece.const k ∈ r.pieces ↔ ∃ q ∈ r.records, k ∈ q.chunk.consts := by
  induction r using Record.induction with
  | step r ih =>
    have hbodies : Piece.const k ∈ Entry.pieces r.entries ↔
        ∃ q ∈ r.bodies, ∃ p ∈ q.records, k ∈ p.chunk.consts := by
      rw [Entry.const_mem_pieces]
      constructor
      · rintro ⟨e, he, q, hq, hk⟩
        have hbody : q ∈ r.bodies := List.mem_flatMap.mpr ⟨e, he, hq⟩
        exact ⟨q, hbody, (ih q hbody).mp hk⟩
      · rintro ⟨q, hbody, hk⟩
        obtain ⟨e, he, hq⟩ := List.mem_flatMap.mp hbody
        exact ⟨e, he, q, hq, (ih q hbody).mpr hk⟩
    have hpieces : Piece.const k ∈ r.pieces ↔
        k ∈ r.chunk.consts ∨ Piece.const k ∈ Entry.pieces r.entries := by
      obtain ⟨_, _⟩ := r
      simp [Record.pieces, chunkPieces]
    rw [hpieces, hbodies, Record.records_eq, List.exists_mem_cons_iff]
    simp only [List.mem_flatMap]
    grind

theorem changesConstants_mapConsts (g : κ → ν) : ChangesConstants (Chunk.mapConsts g) g where
  pieces c := by simp [chunkPieces, Chunk.mapConsts, Chunk.withConsts, Piece.map, middleBytes]
  lineMap _ := rfl

theorem ofPieces_ints (ps : List (Piece Int64)) :
    Emission.ofPieces (ps.map (Piece.map Value.int)) = { bytes := ps.flatMap Piece.encode } := by
  induction ps with
  | nil => rfl
  | cons p rest ih =>
    cases p <;> simp [Emission.ofPieces, Piece.map, Piece.write, constBytes, Piece.encode, ih]

theorem int_of_ofPieces {ps : List (Piece Value)} (h : (Emission.ofPieces ps).fault = none)
    {v : Value} (hv : Piece.const v ∈ ps) : ∃ n, v = .int n := by
  induction ps with
  | nil => cases hv
  | cons p rest ih =>
    cases hp : p.write with
    | error fault => simp [Emission.ofPieces, hp] at h
    | ok bytes =>
      simp only [Emission.ofPieces, hp] at h
      rcases List.mem_cons.mp hv with rfl | hv
      · cases v with
        | int n => exact ⟨n, rfl⟩
        | _ => cases hp
      · exact ih h hv

-- ---------------------------------------------------------------------------
-- Block trees
-- ---------------------------------------------------------------------------

theorem Record.exists_eq_values {r : Record Value}
    (h : ∀ q ∈ r.records, ∀ v ∈ q.chunk.consts, ∃ n, v = .int n) :
    ∃ q : Record Int64, r = q.values := by
  let ints : Chunk Value → Chunk Int64 := Chunk.mapConsts fun v => v.int?.getD 0
  refine ⟨r.mapChunks ints, ?_⟩
  rw [Record.values, Record.mapChunks_mapChunks]
  refine (Record.mapChunks_eq_self fun q hq => ?_).symm
  have hconsts : q.chunk.consts.map (fun v => Value.int (v.int?.getD 0)) = q.chunk.consts := by
    refine (List.map_congr_left fun v hv => ?_).trans (List.map_id _)
    obtain ⟨n, rfl⟩ := h q hq v hv
    rfl
  simp [ints, Chunk.mapConsts, Chunk.withConsts, Function.comp_def, hconsts]

theorem Record.values_injective : Function.Injective Record.values := by
  have hback : ∀ r : Record Int64,
      r.values.mapChunks (Chunk.mapConsts fun v => v.int?.getD 0) = r := by
    intro r
    rw [Record.values, Record.mapChunks_mapChunks]
    refine Record.mapChunks_eq_self fun q _ => ?_
    simp [Chunk.mapConsts, Chunk.withConsts, Function.comp_def, Value.int?]
  exact Function.LeftInverse.injective hback

theorem serialize_eq_ok_iff {b : Block} {bytes : List UInt8} :
    b.serialize = .ok bytes ↔ ∃ r : Record Int64, b.record = r.values ∧ bytes = r.encode := by
  have hwrite : ∀ r : Record Int64, b.record = r.values → b.emit = { bytes := r.encode } := by
    intro r hr
    rw [Block.emit, hr, Record.values, Record.pieces_mapChunks (changesConstants_mapConsts _),
      ofPieces_ints]
    rfl
  constructor
  · intro h
    have hfault : b.emit.fault = none := by
      cases hfault : b.emit.fault with
      | none => rfl
      | some fault => simp [Block.serialize, Emission.result, hfault] at h
    have hints : ∀ q ∈ b.record.records, ∀ v ∈ q.chunk.consts, ∃ n, v = .int n :=
      fun q hq v hv => int_of_ofPieces hfault (Record.const_mem_pieces.mpr ⟨q, hq, hv⟩)
    obtain ⟨r, hr⟩ := Record.exists_eq_values hints
    refine ⟨r, hr, ?_⟩
    simpa [Block.serialize, Emission.result, hwrite r hr] using h.symm
  · rintro ⟨r, hr, rfl⟩
    simp [Block.serialize, Emission.result, hwrite r hr]

theorem Record.lengths_values (r : Record Int64) : r.values.lengths = r.lengths :=
  Record.lengths_mapChunks r (by simp [chunkLengths, Chunk.mapConsts, Chunk.withConsts])

theorem Record.sound_of_values {r : Record Int64} (h : r.values.Sound) : r.Sound where
  lengths := by simpa only [Record.lengths_values] using h.lengths
  words := by simpa [Record.values, chunkWords, Chunk.mapConsts, Chunk.withConsts] using h.words
  checked := by simpa [Record.values, Chunk.mapConsts, Chunk.withConsts] using h.checked

end Bytecode.Wire
