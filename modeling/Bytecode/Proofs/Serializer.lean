-- SUMMARY: Several trees in one buffer: what each of them adds, written in whole or in part, and how the buffer is read.
import Bytecode.Proofs.Persistence
import Bytecode.Proofs.Wire.PrefixFree
import Bytecode.Proofs.Wire.Writer
import Bytecode.Proofs.Writing

/-!
# Trees in one buffer

Trees that are written to one buffer stand there one behind the other. A tree with a constant that is
no integer is written up to the tag of the first such constant, which is where the bytes of the tree
would be cut if it had an integer there. A buffer whose first tree can be loaded is refused for the
bytes behind it.
-/

namespace Bytecode

open Wire

-- ---------------------------------------------------------------------------
-- Where writing stops
-- ---------------------------------------------------------------------------

namespace Wire

theorem exists_front_of_fault {ps : List (Piece Value)} {fault : SerializeError}
    (h : (Emission.ofPieces ps).fault = some fault) :
    ∃ front v back, ps = front ++ .const v :: back ∧
      Emission.ofPieces front = { bytes := (Emission.ofPieces ps).bytes } ∧
      (∀ n, v ≠ .int n) ∧ fault = .unsupportedConstant v.typeName := by
  induction ps with
  | nil => cases h
  | cons p rest ih =>
    cases hp : p.write with
    | ok bytes =>
      simp only [Emission.ofPieces, hp] at h
      obtain ⟨front, v, back, rfl, hfront, hv⟩ := ih h
      refine ⟨p :: front, v, back, rfl, ?_, hv⟩
      simp only [Emission.ofPieces, hp, hfront]
    | error e =>
      simp only [Emission.ofPieces, hp, Option.some.injEq] at h
      subst h
      cases p with
      | bytes bs => cases hp
      | const v =>
        refine ⟨[], v, rest, rfl, by simp [Emission.ofPieces, hp], ?_⟩
        cases v <;> simp_all [Piece.write, constBytes]

theorem flatMap_encode_of_written {g : Value → Int64} (hg : ∀ n, g (.int n) = n)
    {ps : List (Piece Value)} {bytes : List UInt8} (h : Emission.ofPieces ps = { bytes }) :
    (ps.map (Piece.map g)).flatMap Piece.encode = bytes := by
  have hself : (ps.map (Piece.map g)).map (Piece.map Value.int) = ps := by
    rw [List.map_map]
    refine (List.map_congr_left fun p hp => ?_).trans (List.map_id _)
    cases p with
    | bytes bs => rfl
    | const v =>
      obtain ⟨n, rfl⟩ := int_of_ofPieces (by rw [h]) hp
      simp [Piece.map, hg]
  have hwritten := ofPieces_ints (ps.map (Piece.map g))
  rw [hself, h] at hwritten
  exact (congrArg Emission.bytes hwritten).symm

end Wire

-- ---------------------------------------------------------------------------
-- Integers in the places of other constants
-- ---------------------------------------------------------------------------

section MapChunks

variable (f : Chunk Value → Chunk Value)

mutual

/-- The tree with changed chunks. -/
def Block.mapChunks : Block → Block
  | ⟨chunk, owner, decls⟩ => { chunk := f chunk, owner, decls := Decl.mapAll decls }

def Decl.mapAll : List Decl → List Decl
  | [] => []
  | .function g :: rest => .function (Function.mapChunks g) :: Decl.mapAll rest
  | .class c :: rest => .class (Class.mapChunks c) :: Decl.mapAll rest

def Function.mapChunks : Function → Function
  | ⟨signature, body⟩ => { signature, body := Block.mapChunks body }

def Class.mapChunks : Class → Class
  | ⟨header, methods⟩ => { header, methods := Method.mapAll methods }

def Method.mapAll : List (String × Method) → List (String × Method)
  | [] => []
  | (name, ⟨flags, function⟩) :: rest =>
    (name, ⟨flags, Function.mapChunks function⟩) :: Method.mapAll rest

end

mutual

theorem Block.record_mapChunks : ∀ b : Block, (b.mapChunks f).record = b.record.mapChunks f
  | ⟨_, _, decls⟩ => by
    simp only [Block.mapChunks, Block.record, Record.mapChunks, Decl.entries_mapAll decls]

theorem Decl.entries_mapAll :
    ∀ decls : List Decl, Decl.entries (Decl.mapAll f decls) = Entry.mapAll f (Decl.entries decls)
  | [] => rfl
  | .function g :: rest => by
    simp only [Decl.mapAll, Decl.entries, Entry.mapAll, Function.routine_mapChunks g,
      Decl.entries_mapAll rest]
  | .class c :: rest => by
    obtain ⟨header, methods⟩ := c
    simp only [Decl.mapAll, Class.mapChunks, Decl.entries, Class.entry, Entry.mapAll,
      Method.members_mapAll methods, Decl.entries_mapAll rest]

theorem Function.routine_mapChunks :
    ∀ g : Function, (g.mapChunks f).routine = g.routine.mapChunks f
  | ⟨_, body⟩ => by
    simp only [Function.mapChunks, Function.routine, Routine.mapChunks, Block.record_mapChunks body]

theorem Method.members_mapAll : ∀ methods : List (String × Method),
    Method.members (Method.mapAll f methods) = Member.mapAll f (Method.members methods)
  | [] => rfl
  | (_, ⟨_, g⟩) :: rest => by
    simp only [Method.mapAll, Method.members, Member.mapAll, Function.routine_mapChunks g,
      Method.members_mapAll rest]

end

end MapChunks

/-- The integer itself, or one in its place. -/
def Value.intOr (g : Value → Int64) (v : Value) : Int64 := v.int?.getD (g v)

@[simp] theorem Value.intOr_int (g : Value → Int64) (n : Int64) : (Value.int n).intOr g = n := rfl

theorem Value.intOr_of_ne {g : Value → Int64} {v : Value} (h : ∀ n, v ≠ .int n) :
    v.intOr g = g v := by
  cases v <;> simp_all [Value.intOr, Value.int?]

/-- The tree with an integer in the place of every constant that is none. -/
def Block.withInts (g : Value → Int64) (t : Block) : Block :=
  t.mapChunks (Chunk.mapConsts fun v => .int (v.intOr g))

theorem Block.serialize_withInts (g : Value → Int64) (t : Block) :
    (t.withInts g).serialize =
      .ok ((t.record.pieces.map (Piece.map (Value.intOr g))).flatMap Piece.encode) := by
  refine serialize_eq_ok_iff.mpr ⟨t.record.mapChunks (Chunk.mapConsts (Value.intOr g)), ?_, ?_⟩
  · rw [Block.withInts, Block.record_mapChunks, Record.values, Record.mapChunks_mapChunks]
    refine congrArg (Record.mapChunks · t.record) (funext fun c => ?_)
    simp [Chunk.mapConsts, Chunk.withConsts, Function.comp_def]
  · rw [Record.encode, Record.pieces_mapChunks (changesConstants_mapConsts _)]

/--
`part` is what stands in front of the tag of the constant `v`, the first in wire order that is no
integer. It stands there as well if integers take the places of such constants, whichever they are.
-/
structure Block.StopsAt (t : Block) (v : Value) (part : List UInt8) : Prop where
  not_int : ∀ n, v ≠ .int n
  place : ∃ front back, t.record.pieces = front ++ .const v :: back ∧
    (∀ u, .const u ∈ front → ∃ n, u = .int n) ∧ Emission.ofPieces front = { bytes := part }
  cut : ∀ g, ∃ rest, (t.withInts g).serialize = .ok (part ++ intBytes (g v) ++ rest)

theorem Block.exists_stopsAt {t : Block} {fault : SerializeError} (h : t.emit.fault = some fault) :
    ∃ v, fault = .unsupportedConstant v.typeName ∧ t.StopsAt v t.emit.bytes := by
  obtain ⟨front, v, back, hpieces, hfront, hv, hfault⟩ := exists_front_of_fault h
  have hints : ∀ u, .const u ∈ front → ∃ n, u = .int n :=
    fun u hu => int_of_ofPieces (by rw [hfront]) hu
  refine ⟨v, hfault, hv, ⟨front, back, hpieces, hints, hfront⟩, fun g => ?_⟩
  have hpart := flatMap_encode_of_written (Value.intOr_int g) hfront
  refine ⟨(back.map (Piece.map (Value.intOr g))).flatMap Piece.encode, ?_⟩
  rw [Block.serialize_withInts, hpieces, List.map_append, List.flatMap_append, hpart]
  simp [Piece.map, Piece.encode, Value.intOr_of_ne hv, Block.emit]

/-- What writing a tree adds to a buffer, and the fault that keeps the rest of it out. -/
inductive Block.Contributes (t : Block) : Option SerializeError → List UInt8 → Prop where
  | whole {bytes : List UInt8} (h : t.serialize = .ok bytes) : t.Contributes none bytes
  | start {v : Value} {part : List UInt8}
      (h : t.serialize = .error (.unsupportedConstant v.typeName)) (hstop : t.StopsAt v part) :
      t.Contributes (some (.unsupportedConstant v.typeName)) part

theorem Block.contributes_emit (t : Block) : t.Contributes t.emit.fault t.emit.bytes := by
  cases hfault : t.emit.fault with
  | none => exact .whole (by simp [Block.serialize, Emission.result, hfault])
  | some fault =>
    obtain ⟨v, rfl, hstop⟩ := Block.exists_stopsAt hfault
    exact .start (by simp [Block.serialize, Emission.result, hfault]) hstop

theorem Block.emit_of_serialize {t : Block} {bytes : List UInt8} (h : t.serialize = .ok bytes) :
    t.emit = { bytes } := by
  unfold Block.serialize Emission.result at h
  cases hemit : t.emit with
  | mk written fault => cases fault <;> simp_all

theorem Block.emit_bytes_ne_nil (t : Block) : t.emit.bytes ≠ [] := by
  obtain ⟨chunk, owner, decls⟩ := t
  have hcount := length_countBytes chunk.code.length
  intro hnil
  have hlength := congrArg List.length hnil
  simp [Block.emit, Block.record, Record.pieces, chunkPieces, Emission.ofPieces, Piece.write,
    blobBytes, hcount, wordSize] at hlength

-- ---------------------------------------------------------------------------
-- Reading the buffer
-- ---------------------------------------------------------------------------

/-- The tree can be written, and some host loads what is written. -/
def Block.Reloads (t : Block) : Prop :=
  ∃ bytes, t.serialize = .ok bytes ∧
    ∃ (σ : Type) (host : Host σ) (s : σ) (u : Block), ((Block.load host bytes).run s).1 = .ok u

theorem Block.Persistable.reloads {t : Block} (h : t.Persistable) : t.Reloads := by
  obtain ⟨r, hr, hsound⟩ := h.exists_record
  have hload := load_encode keepsInts_silent (Block.height_le_of_record hr h.nesting) hsound ()
  exact ⟨r.encode, serialize_eq_ok_iff.mpr ⟨r, hr, rfl⟩, Unit, Host.silent, (), _, hload⟩

/-- Every host refuses the tree with bytes behind it, also one that does not load it unchanged. -/
theorem Block.Reloads.load_longer {t : Block} (h : t.Reloads) {suffix : List UInt8}
    (hsuffix : suffix ≠ []) {σ : Type} (host : Host σ) (s : σ) :
    ((Block.load host (t.emit.bytes ++ suffix)).run s).1 = .error (.trailingBytes suffix.length) := by
  obtain ⟨bytes, hserialize, σ', host', s', u, hu⟩ := h
  obtain ⟨r, hr⟩ := exists_load_eq_ok_iff.mp ⟨u, hu⟩
  rw [Block.emit_of_serialize hserialize, load_eq_error_iff]
  rcases Record.read_append bytes hsuffix with ⟨e, he, -⟩ | happend
  · rw [hr] at he
    cases he
  · rw [happend, hr]
    rfl

/--
Trees that are written in turn are added behind what the buffer holds, each whether or not those before
could be written: a tree without a fault adds its own bytes, and another what stands in front of the tag
of its first constant that is no integer. If the first tree can be loaded and others follow, in whole
or in part, then the buffer is refused for all the bytes behind the first.
-/
theorem Wire.Serializer.writeAll_contributions (ts : List Block) :
    (∀ s : Serializer, (s.writeAll ts).1 = (ts.map fun t => t.emit.fault) ∧
      (s.writeAll ts).2.bytes = s.bytes ++ ts.flatMap fun t => t.emit.bytes) ∧
    (∀ t ∈ ts, t.Contributes t.emit.fault t.emit.bytes) ∧
    ∀ t rest, ts = t :: rest → rest ≠ [] → t.Reloads →
      ∃ first, t.serialize = .ok first ∧
        ∀ {σ : Type} (host : Host σ) (s : σ),
          ((Block.load host (writeAll {} ts).2.bytes).run s).1 =
            .error (.trailingBytes ((writeAll {} ts).2.bytes.length - first.length)) := by
  refine ⟨fun s => ⟨s.writeAll_fst ts, s.bytes_writeAll ts⟩, fun t _ => t.contributes_emit, ?_⟩
  rintro t rest rfl hrest hreloads
  have ⟨first, hserialize, _⟩ := hreloads
  refine ⟨first, hserialize, fun {σ} host s => ?_⟩
  have hbuffer : (writeAll {} (t :: rest)).2.bytes =
      t.emit.bytes ++ rest.flatMap fun u => u.emit.bytes := by
    rw [bytes_writeAll, List.flatMap_cons]
    rfl
  have hsuffix : (rest.flatMap fun u => u.emit.bytes) ≠ [] := by
    obtain ⟨u, more, rfl⟩ := List.exists_cons_of_ne_nil hrest
    simp [u.emit_bytes_ne_nil]
  have hfirst : t.emit.bytes = first := by rw [Block.emit_of_serialize hserialize]
  rw [hbuffer, hreloads.load_longer hsuffix, List.length_append, hfirst, Nat.add_sub_cancel_left]

theorem Wire.Serializer.writeAll_contributions_greeting :
    let greeting := Block.greeting {} { name := "A" } none
    let trees := [Block.program, greeting, Block.program]
    Block.program.Persistable ∧ Block.program.Reloads ∧
      (writeAll {} trees).1 = [none, some (.unsupportedConstant "string"), none] ∧
      greeting.Contributes (some (.unsupportedConstant "string")) greeting.emit.bytes ∧
      ∃ first, Block.program.serialize = .ok first ∧
        ((Block.load Host.silent (writeAll {} trees).2.bytes).run ()).1 =
          .error (.trailingBytes ((writeAll {} trees).2.bytes.length - first.length)) := by
  intro greeting trees
  obtain ⟨hwrite, hcontributes, htrailing⟩ := Wire.Serializer.writeAll_contributions trees
  have hreloads := Block.persistable_program.reloads
  obtain ⟨first, hserialize, hload⟩ := htrailing _ _ rfl (by simp) hreloads
  have hgreeting := hcontributes greeting (by simp [trees])
  refine ⟨Block.persistable_program, hreloads, ?_, hgreeting, first, hserialize,
    hload Host.silent ()⟩
  rw [(hwrite {}).1]
  rfl

end Bytecode
