-- SUMMARY: Writers that add to a buffer in place leave there what the emission of a tree holds.
import Bytecode.Proofs.BlockTree
import Bytecode.Wire.Emission

/-!
# Writers

The writer of a block tree adds to any buffer the bytes of the emission of the tree, and fails as the
emission does. So the writing of several trees one after the other appends their emissions.
-/

namespace Bytecode.Wire

theorem ofPieces_append (ps qs : List (Piece Value)) :
    Emission.ofPieces (ps ++ qs) = match (Emission.ofPieces ps).fault with
      | none =>
        { bytes := (Emission.ofPieces ps).bytes ++ (Emission.ofPieces qs).bytes
          fault := (Emission.ofPieces qs).fault }
      | some fault => { bytes := (Emission.ofPieces ps).bytes, fault := some fault } := by
  induction ps with
  | nil => rfl
  | cons p rest ih =>
    cases hp : p.write with
    | ok bytes =>
      simp only [List.cons_append, Emission.ofPieces, hp, ih]
      cases (Emission.ofPieces rest).fault <;> simp
    | error fault => simp [Emission.ofPieces, hp]

theorem ofPieces_bytes_bytes (a b : List UInt8) (rest : List (Piece Value)) :
    Emission.ofPieces (.bytes a :: .bytes b :: rest) = Emission.ofPieces (.bytes (a ++ b) :: rest) := by
  simp [Emission.ofPieces, Piece.write]

theorem append_list_append (buffer : Array UInt8) (a b : List UInt8) :
    buffer ++ (a ++ b) = buffer ++ a ++ b :=
  Array.toList_inj.mp (by simp)

namespace Writer

/-- The writer adds to every buffer what pieces are written as, and fails as they do. -/
def Adds (x : Writer) (ps : List (Piece Value)) : Prop :=
  ∀ buffer, x buffer = match (Emission.ofPieces ps).fault with
    | none => .ok () (buffer ++ (Emission.ofPieces ps).bytes)
    | some fault => .error fault (buffer ++ (Emission.ofPieces ps).bytes)

theorem adds_pure : Adds (pure ()) [] := fun _ => rfl

theorem adds_add (bytes : List UInt8) : Adds (add bytes) [.bytes bytes] := by
  intro buffer
  simp only [Emission.ofPieces, Piece.write, List.append_nil]
  rfl

theorem adds_constant (v : Value) : Adds (constant v) [.const v] := by
  intro buffer
  cases v <;> simp only [Emission.ofPieces, Piece.write, constant, constBytes, List.append_nil] <;> rfl

theorem Adds.bind {x y : Writer} {ps qs : List (Piece Value)} (hx : Adds x ps) (hy : Adds y qs) :
    Adds (x >>= fun _ => y) (ps ++ qs) := by
  intro buffer
  have hxb := hx buffer
  rw [ofPieces_append]
  cases hfault : (Emission.ofPieces ps).fault with
  | none =>
    simp only [hfault] at hxb
    have hyb := hy (buffer ++ (Emission.ofPieces ps).bytes)
    simp only [append_list_append]
    rw [← hyb]
    change EStateM.bind x (fun _ => y) buffer = _
    rw [EStateM.bind, hxb]
  | some fault =>
    simp only [hfault] at hxb
    change EStateM.bind x (fun _ => y) buffer = _
    rw [EStateM.bind, hxb]

theorem adds_forM {α : Type} {f : α → Writer} {g : α → Piece Value}
    (h : ∀ a, Adds (f a) [g a]) (as : List α) : Adds (as.forM f) (as.map g) := by
  induction as with
  | nil => exact adds_pure
  | cons a rest ih => exact (h a).bind ih

theorem Adds.merge {x : Writer} {a b : List UInt8} {ps : List (Piece Value)}
    (h : Adds x (.bytes a :: .bytes b :: ps)) : Adds x (.bytes (a ++ b) :: ps) := by
  intro buffer
  rw [← ofPieces_bytes_bytes]
  exact h buffer

theorem length_entries (decls : List Decl) : (Decl.entries decls).length = decls.length := by
  rw [Decl.entries_eq, List.length_map]

theorem length_members (methods : List (String × Method)) :
    (Method.members methods).length = methods.length := by
  rw [Method.members_eq, List.length_map]

mutual

theorem adds_block : ∀ b : Block, Adds (block b) b.record.pieces
  | ⟨chunk, owner, decls⟩ => by
    have hpieces : (Block.mk chunk owner decls).record.pieces =
        .bytes (blobBytes chunk.code ++ countBytes chunk.consts.length) ::
          (chunk.consts.map .const ++ (.bytes (middleBytes chunk) ::
            .bytes (countBytes decls.length) ::
              (Entry.pieces (Decl.entries decls) ++ [.bytes (wordsBytes chunk.lineMap)]))) := by
      simp [Block.record, Record.pieces, chunkPieces, length_entries]
    rw [hpieces]
    refine Adds.merge ?_
    refine (adds_add _).bind ((adds_add _).bind ?_)
    refine (adds_forM adds_constant chunk.consts).bind ((adds_add _).bind ((adds_add _).bind ?_))
    exact (adds_declarations decls).bind (adds_add _)

theorem adds_declarations :
    ∀ decls : List Decl, Adds (declarations decls) (Entry.pieces (Decl.entries decls))
  | [] => adds_pure
  | .function f :: rest => (adds_add _).bind ((adds_function f).bind (adds_declarations rest))
  | .class c :: rest => by
    have hpieces : Entry.pieces (Decl.entries (.class c :: rest)) =
        .bytes ([Decl.classTag] ++ textBytes c.header.name ++ countBytes c.methods.length) ::
          (Member.pieces (Method.members c.methods) ++ Entry.pieces (Decl.entries rest)) := by
      obtain ⟨header, methods⟩ := c
      rw [Decl.entries, Class.entry, Entry.pieces, length_members]
    rw [hpieces]
    refine Adds.merge (Adds.merge ?_)
    exact (adds_add _).bind ((adds_class c).bind (adds_declarations rest))

theorem adds_function : ∀ f : Function, Adds (function f) (Routine.pieces f.routine)
  | ⟨_, body⟩ => (adds_block body).bind (adds_add _)

theorem adds_class : ∀ c : Class, Adds («class» c) (.bytes (textBytes c.header.name) ::
    .bytes (countBytes c.methods.length) :: Member.pieces (Method.members c.methods))
  | ⟨_, methods⟩ => (adds_add _).bind ((adds_add _).bind (adds_members methods))

theorem adds_members : ∀ methods : List (String × Method),
    Adds (members methods) (Member.pieces (Method.members methods))
  | [] => adds_pure
  | (_, ⟨_, f⟩) :: rest => by
    refine Adds.merge ?_
    exact (adds_add _).bind ((adds_add _).bind ((adds_function f).bind (adds_members rest)))

end

end Writer

namespace Serializer

theorem write_eq (s : Serializer) (t : Block) :
    s.write t = (t.emit.fault, { buffer := s.buffer ++ t.emit.bytes }) := by
  have hadds := Writer.adds_block t s.buffer
  rw [write, hadds, Block.emit]
  cases (Emission.ofPieces t.record.pieces).fault <;> rfl

theorem writeAll_fst (s : Serializer) (ts : List Block) :
    (s.writeAll ts).1 = ts.map fun t => t.emit.fault := by
  induction ts generalizing s with
  | nil => rfl
  | cons t rest ih => simp [writeAll, write_eq, ih]

theorem bytes_writeAll (s : Serializer) (ts : List Block) :
    (s.writeAll ts).2.bytes = s.bytes ++ ts.flatMap fun t => t.emit.bytes := by
  induction ts generalizing s with
  | nil => simp [writeAll]
  | cons t rest ih =>
    simp only [writeAll, write_eq, ih]
    simp [bytes]

end Serializer

end Bytecode.Wire
