-- SUMMARY: What becomes of a buffer that is loaded and written again.
import Bytecode.Proofs.Persistence

/-!
# Rewriting

Every accepted buffer can be written again. The outcome is the buffer itself, unless one of its
classes repeats a method name; then it is the shorter buffer in which every class lists what it
keeps. Either way it is loaded as the same tree, so that writing it once more changes nothing.
-/

namespace Bytecode

open Wire

theorem Wire.Record.collapsed_values (r : Record Int64) : r.values.collapsed = r.collapsed.values :=
  Record.collapsed_mapChunks _ r

theorem Wire.Record.block_values_collapsed (owner : Option String) (r : Record Int64) :
    r.collapsed.values.block owner = r.values.block owner := by
  rw [← Record.collapsed_values, Record.block_collapsed]

theorem Wire.Record.serialize_block (owner : Option String) (r : Record Int64) :
    (r.values.block owner).serialize = .ok r.collapsed.encode := by
  refine serialize_eq_ok_iff.mpr ⟨r.collapsed, ?_, rfl⟩
  rw [Record.record_block, Record.collapsed_values]

section Accepted

variable {buffer : List UInt8} {r : Record Int64}

theorem Wire.Record.read_collapsed (h : (Record.read buffer).1 = .ok r) :
    (Record.read r.collapsed.encode).1 = .ok r.collapsed := by
  obtain ⟨-, hheight, hsound⟩ := Record.read_eq_ok_iff.mp h
  refine Record.read_eq_ok_iff.mpr ⟨rfl, Record.height_collapsed_le hheight, fun q hq => ?_⟩
  obtain ⟨p, hp, rfl⟩ := Record.exists_of_mem_records_collapsed hq
  exact (hsound p hp).collapsed

theorem Wire.Record.encode_collapsed_eq_iff (h : (Record.read buffer).1 = .ok r) :
    r.collapsed.encode = buffer ↔ r.Distinct := by
  obtain ⟨hbuffer, -, -⟩ := Record.read_eq_ok_iff.mp h
  constructor
  · intro heq
    -- A buffer is read as one record only.
    have hread := Record.read_collapsed h
    rw [heq, h] at hread
    exact Record.collapsed_eq_self_iff.mp (Except.ok.inj hread).symm
  · intro hdistinct
    rw [Record.collapsed_of_distinct hdistinct, hbuffer]

end Accepted

/--
An accepted buffer is the bytes of one record. Its tree is written as a buffer that is no longer, is
the same if and only if no class of the record repeats a method name, and is loaded as the tree.
-/
theorem Block.serialize_load {σ : Type} {host : Host σ} {s : σ} {buffer : List UInt8} {t : Block}
    (hhost : KeepsInts host) (hload : ((Block.load host buffer).run s).1 = .ok t) :
    ∃ (r : Record Int64) (rewritten : List UInt8),
      (Record.read buffer).1 = .ok r ∧ buffer = r.encode ∧
      t.serialize = .ok rewritten ∧
      rewritten.length ≤ buffer.length ∧
      (rewritten = buffer ↔ r.Distinct) ∧
      ∀ (τ : Type) (host' : Host τ) (s' : τ), KeepsInts host' →
        ((Block.load host' rewritten).run s').1 = .ok t := by
  obtain ⟨r, hread, rfl⟩ := (load_eq_ok_iff hhost).mp hload
  obtain ⟨rfl, -, -⟩ := Record.read_eq_ok_iff.mp hread
  refine ⟨r, r.collapsed.encode, hread, rfl, r.serialize_block none, r.length_encode_collapsed_le,
    Record.encode_collapsed_eq_iff hread, fun τ host' s' hhost' => ?_⟩
  rw [load_eq_ok_iff hhost']
  exact ⟨r.collapsed, Record.read_collapsed hread, (r.block_values_collapsed none).symm⟩

/-- A record with a class that lists two methods of one name. -/
def Wire.Record.repeating : Record Int64 :=
  ⟨{}, [.class "A" [⟨"f", ⟨1⟩, ⟨.empty, []⟩⟩, ⟨"f", ⟨2⟩, ⟨.empty, []⟩⟩]]⟩

theorem Wire.Record.read_repeating :
    (Record.read Record.repeating.encode).1 = .ok Record.repeating := by
  refine Record.read_eq_ok_iff.mpr ⟨rfl, by decide, fun q hq => ?_⟩
  rw [Record.records_eq, List.mem_cons, List.mem_flatMap] at hq
  rcases hq with rfl | ⟨body, hbody, hq⟩
  · exact ⟨⟨by decide +kernel, by simp [Record.repeating, chunkWords]⟩, 0, by cbv⟩
  · have hempty : body = .empty := by
      simpa [Record.repeating, Record.bodies, Entry.bodies] using hbody
    rw [hempty] at hq
    rw [List.mem_singleton.mp hq]
    exact Record.sound_empty

theorem Block.serialize_load_repeating :
    (KeepsInts Host.silent ∧ ((Block.load Host.silent Record.repeating.encode).run ()).1 =
      .ok (Record.repeating.values.block none)) ∧
    ∃ rewritten, (Record.repeating.values.block none).serialize = .ok rewritten ∧
      rewritten.length ≤ Record.repeating.encode.length ∧ rewritten ≠ Record.repeating.encode := by
  have hload : ((Block.load Host.silent Record.repeating.encode).run ()).1 =
      .ok (Record.repeating.values.block none) :=
    (load_eq_ok_iff keepsInts_silent).mpr ⟨_, Record.read_repeating, rfl⟩
  obtain ⟨r, rewritten, hread, -, hserialize, hlength, hiff, -⟩ :=
    Block.serialize_load keepsInts_silent hload
  cases Record.read_repeating.symm.trans hread
  refine ⟨⟨keepsInts_silent, hload⟩, rewritten, hserialize, hlength, fun heq => ?_⟩
  have hnodup := hiff.mp heq _ (Record.mem_records_self _) "A" _ List.mem_cons_self
  simp at hnodup

end Bytecode
