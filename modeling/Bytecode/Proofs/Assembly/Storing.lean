-- SUMMARY: Assembled blocks: what they are made of, and that they can be written and loaded.
import Bytecode.Assembly.Source
import Bytecode.Proofs.ClassTable
import Bytecode.Proofs.Persistence

/-!
# Assembled blocks

An assembled block is a chunk of the items of its source that has passed the stack check. It declares
nothing and has integer constants only, and no word of it is large, so it can be written, and it is
loaded as it is.
-/

namespace Bytecode

open Wire

/-- A buffer of a block without declarations registers no class. -/
theorem ClassTable.load_of_decls_eq_nil {t : ClassTable} {buffer : List UInt8} {b : Block}
    (h : (t.load buffer).1 = .ok b) (hdecls : b.decls = []) : t.load buffer = (.ok b, t) := by
  obtain ⟨r, hread, rfl⟩ := (load_eq_ok_iff ClassTable.keepsInts_host).mp h
  have hentries : r.values.entries = [] := by
    rw [Record.decls_block] at hdecls
    exact List.map_eq_nil_iff.mp hdecls
  have hclasses : r.values.classes = [] := by rw [Record.classes_eq, hentries, List.flatMap_nil]
  rw [ClassTable.load_of_ok hread, hclasses]
  rfl

namespace Assembly

variable {source file : String} {b : Block}

/-- A text is assembled if every line is right and the code of their items passes the stack check. -/
theorem assemble_eq_ok_iff : assemble source file = .ok b ↔
    ∃ its, items source.toList = .ok its ∧
      (∃ depth, stackDepth (chunk file its).code = .ok depth) ∧ b = { chunk := chunk file its } := by
  unfold assemble
  cases items source.toList with
  | error e => simp
  | ok its =>
    cases hdepth : stackDepth (chunk file its).code with
    | error e => simp [Block.build?, hdepth]
    | ok depth => simp [Block.build?, hdepth, eq_comm]

theorem decls_of_assemble (h : assemble source file = .ok b) : b.decls = [] := by
  obtain ⟨its, -, -, rfl⟩ := assemble_eq_ok_iff.mp h
  rfl

/-- An assembled block has passed the stack check, and its constants are those of its source. -/
theorem exists_ints_of_assemble (h : assemble source file = .ok b) :
    ∃ (depth : Nat) (ints : List Int64), stackDepth b.chunk.code = .ok depth ∧
      b.chunk.consts = ints.map .int := by
  obtain ⟨its, -, ⟨depth, hdepth⟩, rfl⟩ := assemble_eq_ok_iff.mp h
  exact ⟨depth, its.filterMap Item.const?, hdepth, rfl⟩

theorem stripped_of_assemble (h : assemble source file = .ok b) : b.stripped none = b := by
  obtain ⟨its, -, -, rfl⟩ := assemble_eq_ok_iff.mp h
  rfl

theorem persistable_of_assemble (h : assemble source file = .ok b)
    (hlengths : ∀ n ∈ b.record.lengths, n < 2 ^ 63) : b.Persistable := by
  obtain ⟨its, -, ⟨depth, hdepth⟩, rfl⟩ := assemble_eq_ok_iff.mp h
  let b : Block := { chunk := chunk file its }
  have hbuilt : b.Built := ⟨by simp [b, Block.build?, hdepth], by simp [b]⟩
  have hints : ∀ v ∈ b.chunk.consts, ∃ n, v = .int n := by
    intro v hv
    obtain ⟨n, -, rfl⟩ := List.mem_map.mp hv
    exact ⟨n, rfl⟩
  have hwords : ∀ w ∈ chunkWords b.chunk, w.toNat ≤ 2 ^ 63 - 1 := by
    simp [b, chunk, chunkWords]
  have hstorable : b.Storable :=
    ⟨List.forall_mem_singleton.mpr hbuilt, List.forall_mem_singleton.mpr hints,
      List.forall_mem_singleton.mpr hwords, List.forall_mem_singleton.mpr hlengths⟩
  exact ⟨hstorable, (by decide : 1 ≤ 128)⟩

/-- An assembled block can be written, and loading the bytes into any class table gives it back. -/
theorem load_serialize_of_assemble (h : assemble source file = .ok b)
    (hlengths : ∀ n ∈ b.record.lengths, n < 2 ^ 63) :
    ∃ bytes, b.serialize = .ok bytes ∧ ∀ t : ClassTable, t.load bytes = (.ok b, t) := by
  obtain ⟨bytes, hserialize, hload⟩ := Block.load_serialize (persistable_of_assemble h hlengths)
  refine ⟨bytes, hserialize, fun t => ?_⟩
  have hloaded := hload ClassTable ClassTable.host t ClassTable.keepsInts_host
  rw [stripped_of_assemble h] at hloaded
  exact ClassTable.load_of_decls_eq_nil hloaded (decls_of_assemble h)

end Assembly

end Bytecode
