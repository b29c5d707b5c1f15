-- SUMMARY: The constants of a record in wire order, and what replacing them one after the other leaves.
import Bytecode.Proofs.Wire.Loading

/-!
# Traversals

The constants of a record are those among its pieces, so that they stand in wire order. A traversal
asks for them one after the other in this order, whatever the machine does with them, and gives a
record of the same shape with what it got.
-/

namespace Bytecode

/-- What a chunk is apart from its constants. -/
def Chunk.shape {κ : Type} (c : Chunk κ) : Chunk Unit := c.mapConsts fun _ => ()

namespace Wire

variable {κ ν : Type}

/-- The constants of a piece: one, or none. -/
def Piece.constants : Piece κ → List κ
  | .bytes _ => []
  | .const k => [k]

/-- The constants of a record, in wire order. -/
def Record.constants (r : Record κ) : List κ := r.pieces.flatMap Piece.constants

def Entry.constants (entries : List (Entry κ)) : List κ :=
  (Entry.pieces entries).flatMap Piece.constants

def Routine.constants (r : Routine κ) : List κ := (Routine.pieces r).flatMap Piece.constants

def Member.constants (members : List (Member κ)) : List κ :=
  (Member.pieces members).flatMap Piece.constants

theorem constants_chunkPieces (c : Chunk κ) :
    (chunkPieces c).flatMap Piece.constants = c.consts := by
  have hconsts : (c.consts.map Piece.const).flatMap Piece.constants = c.consts := by
    rw [List.flatMap_map]
    exact List.flatMap_singleton' c.consts
  simp [chunkPieces, hconsts, Piece.constants]

@[simp] theorem Record.constants_mk (chunk : Chunk κ) (entries : List (Entry κ)) :
    (Record.mk chunk entries).constants = chunk.consts ++ Entry.constants entries := by
  simp [Record.constants, Record.pieces, Entry.constants, constants_chunkPieces, Piece.constants]

@[simp] theorem Routine.constants_mk (body : Record κ) (params : List (String × ParamKind)) :
    (Routine.mk body params).constants = body.constants := by
  simp [Routine.constants, Routine.pieces, Record.constants, Piece.constants]

@[simp] theorem Entry.constants_nil : Entry.constants ([] : List (Entry κ)) = [] := rfl

@[simp] theorem Entry.constants_function (r : Routine κ) (rest : List (Entry κ)) :
    Entry.constants (.function r :: rest) = r.constants ++ Entry.constants rest := by
  simp [Entry.constants, Entry.pieces, Routine.constants, Piece.constants]

@[simp] theorem Entry.constants_class (name : String) (members : List (Member κ))
    (rest : List (Entry κ)) :
    Entry.constants (.class name members :: rest) =
      Member.constants members ++ Entry.constants rest := by
  simp [Entry.constants, Entry.pieces, Member.constants, Piece.constants]

@[simp] theorem Member.constants_nil : Member.constants ([] : List (Member κ)) = [] := rfl

@[simp] theorem Member.constants_cons (m : Member κ) (rest : List (Member κ)) :
    Member.constants (m :: rest) = m.routine.constants ++ Member.constants rest := by
  obtain ⟨_, _, _⟩ := m
  simp [Member.constants, Member.pieces, Routine.constants, Piece.constants]

/-- What a record is apart from its constants. -/
def Record.shape (r : Record κ) : Record Unit := r.mapChunks Chunk.shape

theorem Record.exists_of_shape_eq {r : Record κ} {q p : Record ν} (h : q.shape = r.shape)
    (hp : p ∈ q.records) : ∃ p' ∈ r.records, p.shape = p'.shape := by
  have hmem : p.shape ∈ q.shape.records := by
    rw [Record.shape, Record.records_mapChunks]
    exact List.mem_map_of_mem hp
  rw [h, Record.shape, Record.records_mapChunks] at hmem
  obtain ⟨p', hp', heq⟩ := List.mem_map.mp hmem
  exact ⟨p', hp', heq.symm⟩

theorem Record.code_eq_of_shape_eq {r : Record κ} {q : Record ν} (h : q.shape = r.shape) :
    q.chunk.code = r.chunk.code := by
  have hchunk := congrArg (fun p : Record Unit => p.chunk.code) h
  simpa [Record.shape, Chunk.shape, Chunk.mapConsts, Chunk.withConsts] using hchunk

-- ---------------------------------------------------------------------------
-- Replacing constants
-- ---------------------------------------------------------------------------

section Replaces

variable {σ α β γ : Type} {f : κ → StateM σ ν}

/--
In every state the computation asks for the values of constants one after the other, and gives a
result that has a property and contains these values in order.
-/
def Replaces (f : κ → StateM σ ν) (x : StateM σ α) (ks : List κ) (values : α → List ν)
    (P : α → Prop) : Prop :=
  ∀ s, P (x.run s).1 ∧ (ks.mapM f).run s = (values (x.run s).1, (x.run s).2)

theorem replaces_mapM (ks : List κ) : Replaces f (ks.mapM f) ks id (·.length = ks.length) := by
  intro s
  refine ⟨?_, rfl⟩
  induction ks generalizing s with
  | nil => rfl
  | cons k rest ih =>
    rw [List.mapM_cons]
    exact congrArg Nat.succ (ih ((f k).run s).2)

theorem replaces_pure {values : α → List ν} {P : α → Prop} {a : α} (hP : P a)
    (hvalues : values a = []) : Replaces f (pure a) [] values P := by
  intro s
  refine ⟨hP, ?_⟩
  change ([], s) = (values a, s)
  rw [hvalues]

theorem Replaces.map {x : StateM σ α} {ks : List κ} {values : α → List ν} {P : α → Prop}
    {values' : β → List ν} {Q : β → Prop} {g : α → β} (hx : Replaces f x ks values P)
    (hg : ∀ a, P a → Q (g a) ∧ values' (g a) = values a) :
    Replaces f (x >>= fun a => pure (g a)) ks values' Q := by
  intro s
  obtain ⟨hP, hrun⟩ := hx s
  obtain ⟨hQ, hvalues⟩ := hg _ hP
  refine ⟨hQ, hrun.trans ?_⟩
  rw [← hvalues]
  rfl

theorem Replaces.map₂ {x : StateM σ α} {y : StateM σ β} {ks ls : List κ} {values₁ : α → List ν}
    {values₂ : β → List ν} {P : α → Prop} {Q : β → Prop} {values : γ → List ν} {R : γ → Prop}
    {g : α → β → γ} (hx : Replaces f x ks values₁ P) (hy : Replaces f y ls values₂ Q)
    (hg : ∀ a b, P a → Q b → R (g a b) ∧ values (g a b) = values₁ a ++ values₂ b) :
    Replaces f (x >>= fun a => y >>= fun b => pure (g a b)) (ks ++ ls) values R := by
  intro s
  obtain ⟨hP, hfirst⟩ := hx s
  obtain ⟨hQ, hsecond⟩ := hy (x.run s).2
  obtain ⟨hR, hvalues⟩ := hg _ _ hP hQ
  refine ⟨hR, ?_⟩
  have happend : ((ks ++ ls).mapM f).run s =
      (values₁ (x.run s).1 ++ values₂ (y.run (x.run s).2).1, (y.run (x.run s).2).2) := by
    rw [List.mapM_append]
    simp only [StateT.run_bind, StateT.run_pure, hfirst]
    change ((values₁ _ ++ (((ls.mapM f).run _).1)), ((ls.mapM f).run _).2) = _
    rw [hsecond]
  rw [happend, ← hvalues]
  rfl

mutual

theorem Record.replaces_traverse :
    ∀ r : Record κ, Replaces f (r.traverse f) r.constants Record.constants (·.shape = r.shape)
  | ⟨chunk, entries⟩ => by
    rw [Record.constants_mk]
    refine (replaces_mapM chunk.consts).map₂ (Entry.replaces_traverseAll entries) ?_
    intro consts entries' hlength hentries
    refine ⟨?_, Record.constants_mk _ entries'⟩
    have hchunk : (chunk.withConsts consts).shape = chunk.shape := by
      simp [Chunk.shape, Chunk.mapConsts, Chunk.withConsts, List.map_const', hlength]
    simp only [Record.shape, Record.mapChunks, hchunk, hentries]

theorem Entry.replaces_traverseAll :
    ∀ entries : List (Entry κ),
      Replaces f (Entry.traverseAll f entries) (Entry.constants entries) Entry.constants
        fun es => Entry.mapAll Chunk.shape es = Entry.mapAll Chunk.shape entries
  | [] => replaces_pure rfl rfl
  | .function r :: rest => by
    rw [Entry.constants_function]
    refine (Routine.replaces_traverse r).map₂ (Entry.replaces_traverseAll rest) ?_
    intro r' rest' hr hrest
    exact ⟨by simp [Entry.mapAll, hr, hrest], Entry.constants_function r' rest'⟩
  | .class name members :: rest => by
    rw [Entry.constants_class]
    refine (Member.replaces_traverseAll members).map₂ (Entry.replaces_traverseAll rest) ?_
    intro members' rest' hmembers hrest
    exact ⟨by simp [Entry.mapAll, hmembers, hrest], Entry.constants_class name members' rest'⟩

theorem Routine.replaces_traverse :
    ∀ r : Routine κ, Replaces f (r.traverse f) r.constants Routine.constants
      fun r' => r'.mapChunks Chunk.shape = r.mapChunks Chunk.shape
  | ⟨body, params⟩ => by
    rw [Routine.constants_mk]
    refine (Record.replaces_traverse body).map ?_
    intro body' hbody
    exact ⟨congrArg (Routine.mk · params) hbody, Routine.constants_mk body' params⟩

theorem Member.replaces_traverseAll :
    ∀ members : List (Member κ),
      Replaces f (Member.traverseAll f members) (Member.constants members) Member.constants
        fun ms => Member.mapAll Chunk.shape ms = Member.mapAll Chunk.shape members
  | [] => replaces_pure rfl rfl
  | ⟨name, flags, routine⟩ :: rest => by
    rw [Member.constants_cons]
    refine (Routine.replaces_traverse routine).map₂ (Member.replaces_traverseAll rest) ?_
    intro routine' rest' hroutine hrest
    exact ⟨by simp [Member.mapAll, hroutine, hrest], Member.constants_cons _ rest'⟩

end

end Replaces

end Wire

end Bytecode
