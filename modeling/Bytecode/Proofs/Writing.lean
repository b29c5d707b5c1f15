-- SUMMARY: The constant that keeps a block tree from being written, and what of a tree is written at all.
import Bytecode.Proofs.Stripped
import Bytecode.Proofs.Wire.Serializing
import Bytecode.Proofs.Wire.Traversal

/-!
# Writing

Only integer constants can be written. Where a tree has others, the first of them in wire order is
the fault: the constants of a block come in front of those of the blocks that it declares, and these
in their order. Nothing that stripping takes away has a part in what is written.
-/

namespace Bytecode

/-- The constants of a tree: those of every block in front of those of the blocks inside. -/
def Block.constants (t : Block) : List Value := t.blocks.flatMap fun b => b.chunk.consts

/-- The error that a value raises as a constant, if it is no integer. -/
def Value.writeError? : Value → Option SerializeError
  | .int _ => none
  | v => some (.unsupportedConstant v.typeName)

theorem Value.writeError?_eq_none_iff {v : Value} : v.writeError? = none ↔ ∃ n, v = .int n := by
  cases v <;> simp [Value.writeError?]

theorem Value.writeError?_eq_some_iff {v : Value} {error : SerializeError} :
    v.writeError? = some error ↔ (∀ n, v ≠ .int n) ∧ error = .unsupportedConstant v.typeName := by
  cases v <;> simp [Value.writeError?, eq_comm]

namespace Wire

-- ---------------------------------------------------------------------------
-- Wire order
-- ---------------------------------------------------------------------------

section Order

variable {κ : Type}

theorem Member.constants_eq (members : List (Member κ)) :
    Member.constants members = members.flatMap fun m => m.routine.body.constants := by
  induction members with
  | nil => rfl
  | cons m rest ih =>
    obtain ⟨_, _, _, _⟩ := m
    rw [Member.constants_cons, ih, Routine.constants_mk]
    rfl

theorem Entry.constants_eq (entries : List (Entry κ)) :
    Entry.constants entries = entries.flatMap fun e => e.bodies.flatMap Record.constants := by
  induction entries with
  | nil => rfl
  | cons e rest ih =>
    cases e with
    | function r =>
      obtain ⟨_, _⟩ := r
      simp [Entry.bodies, ih]
    | «class» name members => simp [Member.constants_eq, Entry.bodies, ih, List.flatMap_map]

/-- The constants on the wire are those of the record, then those of the records inside. -/
theorem Record.constants_eq (r : Record κ) :
    r.constants = r.records.flatMap fun q => q.chunk.consts := by
  induction r using Record.induction with
  | step r ih =>
    have hentries : Entry.constants r.entries = r.bodies.flatMap Record.constants := by
      rw [Entry.constants_eq, Record.bodies, List.flatMap_assoc]
    have hsplit : r.constants = r.chunk.consts ++ Entry.constants r.entries := by
      obtain ⟨_, _⟩ := r
      exact Record.constants_mk _ _
    rw [hsplit, hentries, Record.records_eq, List.flatMap_cons, List.flatMap_assoc]
    congr 1
    exact List.flatMap_congr ih

end Order

theorem Block.constants_record (t : Block) : t.record.constants = t.constants := by
  rw [Record.constants_eq, Block.records_record, List.flatMap_map]
  simp only [Block.chunk_record, Block.constants]

-- ---------------------------------------------------------------------------
-- The first fault
-- ---------------------------------------------------------------------------

theorem fault_ofPieces (ps : List (Piece Value)) :
    (Emission.ofPieces ps).fault = (ps.flatMap Piece.constants).findSome? Value.writeError? := by
  induction ps with
  | nil => rfl
  | cons p rest ih =>
    cases p with
    | bytes bs => simpa [Emission.ofPieces, Piece.write, Piece.constants] using ih
    | const v =>
      rw [List.flatMap_cons, List.findSome?_append]
      cases v <;> simp [Emission.ofPieces, Piece.write, constBytes, Piece.constants,
        Value.writeError?, ih]

end Wire

open Wire

theorem Block.serialize_eq_error_iff {t : Block} {error : SerializeError} :
    t.serialize = .error error ↔ t.constants.findSome? Value.writeError? = some error := by
  have hfault : t.emit.fault = t.constants.findSome? Value.writeError? := by
    rw [← Block.constants_record]
    exact fault_ofPieces t.record.pieces
  rw [← hfault, Block.serialize, Emission.result]
  cases t.emit.fault <;> simp

theorem Block.exists_serialize_eq_error_iff {t : Block} :
    (∃ error, t.serialize = .error error) ↔
      ∃ b ∈ t.blocks, ∃ v ∈ b.chunk.consts, ∀ n, v ≠ .int n := by
  simp only [Block.serialize_eq_error_iff, ← Option.isSome_iff_exists, List.findSome?_isSome_iff]
  simp only [Block.constants, List.mem_flatMap, Option.isSome_iff_exists,
    Value.writeError?_eq_some_iff, exists_and_left, exists_eq, and_true]
  grind

/-- Trees that are the same once they are stripped have the same record. -/
theorem Block.record_eq_of_stripped_eq {t t' : Block} (h : t.stripped none = t'.stripped none) :
    t.record = t'.record := by
  have hrecord : ∀ b : Block, (b.stripped none).record = b.record := by
    intro b
    rw [Block.stripped, Block.record_strippedWith, Record.mapChunks_eq_self fun _ _ => rfl]
  rw [← hrecord t, ← hrecord t', h]

/--
A tree cannot be written if and only if some block in it has a constant that is no integer. The error
then names the type of the first such constant in wire order. Trees that differ only in what stripping
takes away (defaults and type hints of parameters, captures, owners, and what the header of a class
has beside its name) are written alike.
-/
theorem Block.serialize_verdict (t : Block) :
    ((∃ error, t.serialize = .error error) ↔
      ∃ b ∈ t.blocks, ∃ v ∈ b.chunk.consts, ∀ n, v ≠ .int n) ∧
    (∀ error, t.serialize = .error error ↔
      ∃ before v after, t.constants = before ++ v :: after ∧ (∀ u ∈ before, ∃ n, u = .int n) ∧
        (∀ n, v ≠ .int n) ∧ error = .unsupportedConstant v.typeName) ∧
    ∀ t' : Block, t'.stripped none = t.stripped none → t'.serialize = t.serialize := by
  refine ⟨Block.exists_serialize_eq_error_iff, fun error => ?_, fun t' h => ?_⟩
  · rw [Block.serialize_eq_error_iff, List.findSome?_eq_some_iff]
    simp only [Value.writeError?_eq_some_iff, Value.writeError?_eq_none_iff]
    grind
  · rw [Block.serialize, Block.serialize, Block.emit, Block.emit, Block.record_eq_of_stripped_eq h]

/-- A function with a text among its constants, and a class with a method. -/
def Block.greeting (signature : Signature) (header : ClassHeader) (owner : Option String) :
    Block where
  chunk := { consts := [.int 1] }
  decls :=
    [.function { signature, body := { chunk := { name := "f", consts := [.str "hello", .null] } } },
     .class (Class.ofMethods header
      [("m", ⟨.isPublic, { signature := {}, body := { chunk := {}, owner } }⟩)])]

theorem Block.serialize_verdict_greeting :
    let plain := Block.greeting { params := [{ name := "a" }] } { name := "A" } none
    let dressed := Block.greeting
      { params := [{ name := "a", default := some .null, typeHint := some "int" }]
        captures := ["b"] }
      { name := "A", parent := some "B", interfaces := ["C"], constants := [("D", .bool true)]
        properties := [("e", ⟨.isPublic, .str "x"⟩)] }
      (some "A")
    dressed.stripped none = plain.stripped none ∧ dressed.serialize = plain.serialize ∧
      plain.serialize = .error (.unsupportedConstant "string") := by
  intro plain dressed
  have hstripped : dressed.stripped none = plain.stripped none := rfl
  obtain ⟨-, herror, halike⟩ := Block.serialize_verdict plain
  refine ⟨hstripped, halike dressed hstripped, (herror _).mpr ?_⟩
  exact ⟨[.int 1], .str "hello", [.null], rfl, by simp, by simp, rfl⟩

end Bytecode
