-- SUMMARY: What listings and views show of a block tree, and that it is on the wire.
import Bytecode.Proofs.Persistence
import Bytecode.Render.Text
import Bytecode.Render.View

/-!
# Rendering

Listings and views show the chunk of every block, the names and kinds of parameters, the names of
classes, and the methods with their names and flags. All of this is on the wire. What is stripped from
a tree when it is written is not shown, so a tree that is loaded again looks as it did.
-/

namespace Bytecode

open Render Wire

theorem Render.signatureText_bare (s : Signature) :
    signatureText { params := s.params.map Param.bare } = signatureText s := by
  simp only [signatureText, List.map_map]
  rfl

-- ---------------------------------------------------------------------------
-- Listings
-- ---------------------------------------------------------------------------

mutual

/-- The lines of a block tree are those of what is on the wire. -/
theorem Block.lines_stripped (depth : Nat) (owner : Option String) :
    ∀ b : Block, (b.stripped owner).lines depth = b.lines depth
  | ⟨chunk, _, decls⟩ => by
    rw [Block.stripped, Block.strippedWith, Block.lines, Block.lines, Decl.lines_stripAll depth decls]

theorem Decl.lines_stripAll (depth : Nat) :
    ∀ decls : List Decl, Decl.lines depth (Decl.stripAll (fun c => c) decls) = Decl.lines depth decls
  | [] => rfl
  | .function f :: rest => by
    rw [Decl.stripAll, Decl.lines, Decl.lines, Function.lines_stripped depth none f,
      Decl.lines_stripAll depth rest]
  | .class c :: rest => by
    rw [Decl.stripAll, Decl.lines, Decl.lines, Class.lines_stripped depth c,
      Decl.lines_stripAll depth rest]

theorem Function.lines_stripped (depth : Nat) (owner : Option String) :
    ∀ f : Function, (f.strippedWith (fun c => c) owner).lines depth = f.lines depth
  | ⟨signature, body⟩ => by
    have hbody := Block.lines_stripped (depth + 1) owner body
    rw [Block.stripped] at hbody
    rw [Function.strippedWith, Function.lines, Function.lines, signatureText_bare, hbody,
      Block.chunk_strippedWith]

theorem Class.lines_stripped (depth : Nat) :
    ∀ c : Class, (c.strippedWith fun c => c).lines depth = c.lines depth
  | ⟨header, methods⟩ => by
    rw [Class.strippedWith, Class.lines, Class.lines,
      Method.lines_stripAll depth header.name methods]

theorem Method.lines_stripAll (depth : Nat) (owner : String) :
    ∀ methods : List (String × Method),
      Method.lines depth (Method.stripAll (fun c => c) owner methods) = Method.lines depth methods
  | [] => rfl
  | (name, ⟨flags, ⟨signature, body⟩⟩) :: rest => by
    have hbody := Block.lines_stripped (depth + 2) (some owner) body
    rw [Block.stripped] at hbody
    rw [Method.stripAll, Function.strippedWith, Method.lines, Method.lines, signatureText_bare, hbody,
      Method.lines_stripAll depth owner rest]

end

theorem Block.text_stripped (owner : Option String) (b : Block) :
    (b.stripped owner).text = b.text := by
  rw [Block.text, Block.text, Block.lines_stripped]

-- ---------------------------------------------------------------------------
-- Views
-- ---------------------------------------------------------------------------

/-- A class shows the constructor that it had. -/
theorem Class.constructorView_stripped (c : Class) :
    Json.orNull (fun m : Method => .str m.function.name) (c.strippedWith fun c => c).constructor? =
      Json.orNull (fun m : Method => .str m.function.name) c.constructor? := by
  rw [Class.constructor?_strippedWith]
  cases c.constructor? with
  | none => rfl
  | some m =>
    simp [Json.orNull, Method.strippedWith, Function.strippedWith_eq, Function.name]

mutual

/-- The view of a block tree is that of what is on the wire. -/
theorem Block.view_stripped (owner : Option String) :
    ∀ b : Block, (b.stripped owner).view = b.view
  | ⟨chunk, _, decls⟩ => by
    rw [Block.stripped, Block.strippedWith, Block.view, Block.view, Decl.views_stripAll decls]

theorem Decl.views_stripAll :
    ∀ decls : List Decl, Decl.views (Decl.stripAll (fun c => c) decls) = Decl.views decls
  | [] => rfl
  | .function f :: rest => by
    rw [Decl.stripAll, Decl.views, Decl.views, Function.fields_stripped none f,
      Decl.views_stripAll rest]
  | .class c :: rest => by
    rw [Decl.stripAll, Decl.views, Decl.views, Class.fields_stripped c, Decl.views_stripAll rest]

theorem Function.fields_stripped (owner : Option String) :
    ∀ f : Function, (f.strippedWith (fun c => c) owner).fields = f.fields
  | ⟨signature, body⟩ => by
    have hbody := Block.view_stripped owner body
    rw [Block.stripped] at hbody
    rw [Function.strippedWith, Function.fields, Function.fields, hbody, Block.chunk_strippedWith,
      List.map_map]
    rfl

theorem Class.fields_stripped :
    ∀ c : Class, (c.strippedWith fun c => c).fields = c.fields
  | ⟨header, methods⟩ => by
    have hconstructor := Class.constructorView_stripped ⟨header, methods⟩
    rw [Class.strippedWith] at hconstructor ⊢
    rw [Class.fields, Class.fields, hconstructor, Method.views_stripAll header.name methods]

theorem Method.views_stripAll (owner : String) :
    ∀ methods : List (String × Method),
      Method.views (Method.stripAll (fun c => c) owner methods) = Method.views methods
  | [] => rfl
  | (name, ⟨flags, function⟩) :: rest => by
    rw [Method.stripAll, Method.views, Method.views, Function.fields_stripped (some owner) function,
      Method.views_stripAll owner rest]

end

-- ---------------------------------------------------------------------------
-- Writing and loading
-- ---------------------------------------------------------------------------

/--
A persistable tree can be written, whatever it holds that is not on the wire, and any host that keeps
integers loads what was written. The listing of the tree that is loaded is that of the tree that was
written, and so is the view, as JSON and as text.
-/
theorem Block.rendering_load_serialize {t : Block} (h : t.Persistable) :
    ∃ bytes, t.serialize = .ok bytes ∧
      ∀ (σ : Type) (host : Host σ) (s : σ), KeepsInts host →
        ∃ t', ((Block.load host bytes).run s).1 = .ok t' ∧
          t'.text = t.text ∧ t'.view = t.view ∧ t'.json = t.json := by
  obtain ⟨bytes, hserialize, hload⟩ := Block.load_serialize h
  refine ⟨bytes, hserialize, fun σ host s hhost => ⟨t.stripped none, hload σ host s hhost, ?_⟩⟩
  have hview : (t.stripped none).view = t.view := Block.view_stripped none t
  exact ⟨Block.text_stripped none t, hview, by rw [Block.json, Block.json, hview]⟩

/-- A class with everything that a class can declare. -/
def Class.annotated : Class :=
  Class.ofMethods
    { name := "Point", parent := some "Shape", interfaces := ["Countable"],
      constants := [("LIMIT", .int 10)], properties := [("items", ⟨.isProtected, .null⟩)] }
    [(Class.constructorName,
      { flags := .isPublic
        function :=
          { signature := { params := [{ name := "x", default := some (.str "none") }] }
            body := .returning Class.constructorName (some 0) "Point" } })]

/-- A program with parameters, captures and a class of which much is not on the wire. -/
def Block.annotated : Block where
  chunk := { consts := [.int 7] }
  decls :=
    [.function
      { signature :=
          { params := [{ name := "rest", kind := .variadic, typeHint := some "int" }]
            captures := ["seen"] }
        body := .returning "f" none none },
     .class Class.annotated]

theorem Block.blocks_annotated : Block.annotated.blocks =
    [.annotated, .returning "f" none none, .returning Class.constructorName (some 0) "Point"] := rfl

theorem Block.persistable_annotated : Block.annotated.Persistable where
  built := by
    have hcode : stackDepth [] = .ok 0 := by cbv
    have hannotated : Block.annotated.Built := by
      refine ⟨by simp [Block.annotated, Block.build?, hcode], fun c hc => ?_⟩
      have hclass : c = Class.annotated := by simpa [Block.annotated] using hc
      rw [hclass]
      exact Class.assembled_ofMethods _ _
    simp [Block.blocks_annotated, hannotated, Block.built_returning]
  ints := by
    rw [Block.blocks_annotated]
    simp [Block.annotated, Block.returning]
  words := by
    rw [Block.blocks_annotated]
    simp [Block.annotated, Block.returning, chunkWords]
  lengths := by decide +kernel
  nesting := by decide

theorem Block.rendering_load_serialize_annotated :
    Block.annotated.Persistable ∧ ∃ bytes t', Block.annotated.serialize = .ok bytes ∧
      ((Block.load Host.silent bytes).run ()).1 = .ok t' ∧ t'.text = Block.annotated.text ∧
      t'.json = Block.annotated.json := by
  refine ⟨Block.persistable_annotated, ?_⟩
  obtain ⟨bytes, hserialize, hload⟩ := Block.rendering_load_serialize Block.persistable_annotated
  obtain ⟨t', hloaded, htext, -, hjson⟩ := hload Unit Host.silent () keepsInts_silent
  exact ⟨bytes, t', hserialize, hloaded, htext, hjson⟩

end Bytecode
