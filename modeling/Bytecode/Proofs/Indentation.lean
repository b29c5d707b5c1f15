-- SUMMARY: Listings at a level of indentation: the lines of a tree, moved to the right as a whole.
import Bytecode.Proofs.Dump
import Bytecode.Proofs.Rendering
import Bytecode.Render.Writer

/-!
# Indentation

A listing is written behind whatever has been written, so that the listing of a body is the same text
wherever it stands, but for the blanks in front of its lines. If no name breaks a line, then the rows of
the text are its lines: the header, the tables that hold something, one line for every instruction, and
the rows of what is declared.
-/

namespace Bytecode

-- ---------------------------------------------------------------------------
-- Rows
-- ---------------------------------------------------------------------------

namespace Text

/-- The text of rows, each of them ended by a line feed. -/
def ofRows (rs : List String) : String := String.join (rs.map (· ++ "\n"))

/-- What stands in front of each line feed of a text. -/
def rows (s : String) : List String := (s.toList.splitOn '\n').dropLast.map String.ofList

@[simp] theorem ofRows_nil : ofRows [] = "" := rfl

theorem ofRows_cons (r : String) (rs : List String) : ofRows (r :: rs) = r ++ "\n" ++ ofRows rs := by
  rw [ofRows, List.map_cons, String.join_cons, ofRows]

theorem ofRows_append (rs rs' : List String) : ofRows (rs ++ rs') = ofRows rs ++ ofRows rs' := by
  induction rs with
  | nil => simp
  | cons r rs ih =>
    simp only [List.cons_append, ofRows_cons, ih, String.append_assoc]

theorem rows_append {r : String} (h : Unbroken r) (s : String) :
    rows (r ++ "\n" ++ s) = r :: rows s := by
  have hcut : (r ++ "\n" ++ s).toList.splitOn '\n' = r.toList :: s.toList.splitOn '\n' := by
    have htext : (r ++ "\n" ++ s).toList = r.toList ++ '\n' :: s.toList := by simp
    rw [htext, List.splitOn_append_cons_self_of_not_mem h]
  rw [rows, hcut, List.dropLast_cons_of_ne_nil (List.splitOn_ne_nil _ _), List.map_cons,
    String.ofList_toList, rows]

/-- Rows are cut again from their text. -/
theorem rows_ofRows {rs : List String} (h : ∀ r ∈ rs, Unbroken r) : rows (ofRows rs) = rs := by
  induction rs with
  | nil => rfl
  | cons r rs ih =>
    obtain ⟨hr, hrs⟩ := List.forall_mem_cons.mp h
    rw [ofRows_cons, rows_append hr, ih hrs]

theorem unbroken_toString_int (n : Int) : Unbroken (toString n) := by
  cases n with
  | ofNat n => exact unbroken_toString_nat n
  | negSucc n =>
    have htext : toString (Int.negSucc n) = "-" ++ toString (n + 1) := rfl
    rw [htext, unbroken_append_iff]
    exact ⟨by simp [Unbroken], unbroken_toString_nat (n + 1)⟩

theorem unbroken_intercalate_comma {items : List String} (hitems : ∀ s ∈ items, Unbroken s) :
    Unbroken (", ".intercalate items) := by
  have hcomma : Unbroken ", " := by simp [Unbroken]
  induction items with
  | nil => simp [Unbroken]
  | cons s rest ih =>
    obtain ⟨hs, hrest⟩ := List.forall_mem_cons.mp hitems
    cases rest with
    | nil => simpa using hs
    | cons next more =>
      rw [String.intercalate_cons_cons, unbroken_append_iff, unbroken_append_iff]
      exact ⟨⟨hs, hcomma⟩, ih hrest⟩

end Text

open Text Render

-- ---------------------------------------------------------------------------
-- Writing behind a text
-- ---------------------------------------------------------------------------

namespace Render

theorem indented_indented (d k : Nat) (line : String) :
    indented d (indented k line) = indented (d + k) line := by
  rw [indented, indented, indented, ← String.append_assoc, ← String.ofList_append,
    List.replicate_append_replicate, Nat.mul_add]

theorem writeLine_append_ofRows (depth : Nat) (out line : String) (rs : List String) :
    writeLine depth out line ++ ofRows rs = out ++ ofRows (indented depth line :: rs) := by
  rw [writeLine, ofRows_cons, String.append_assoc, String.append_assoc, String.append_assoc]

theorem writeLine_eq (depth : Nat) (out line : String) :
    writeLine depth out line = out ++ ofRows [indented depth line] := by
  rw [← writeLine_append_ofRows, ofRows_nil, String.append_empty]

theorem foldl_writeLine (depth : Nat) (out : String) (ls : List String) :
    ls.foldl (writeLine depth) out = out ++ ofRows (ls.map (indented depth)) := by
  induction ls generalizing out with
  | nil => simp
  | cons line rest ih => rw [List.foldl_cons, ih, writeLine_append_ofRows, List.map_cons]

theorem writeTable_eq (depth : Nat) (title out : String) (items : List String) :
    writeTable depth title out items = out ++ ofRows ((tableLine title items).map (indented depth)) := by
  unfold writeTable tableLine
  split
  · simp
  · exact writeLine_eq depth out _

/-- The lines that are cut from the dump of a chunk are those of its listing. -/
theorem map_ofList_lines_dump (c : Chunk Value) :
    (Text.lines (Disassembler.dump none c.code).toList).map String.ofList = c.listing.lines none := by
  rw [Disassembler.dump_eq, ← Chunk.listing, Listing.lines_dump_marked, List.map_map]
  exact (List.map_congr_left fun _ _ => String.ofList_toList).trans (List.map_id _)

theorem writeChunk_eq (depth : Nat) (out : String) (c : Chunk Value) :
    writeChunk depth out c = out ++ ofRows ((chunkLines c).map (indented depth)) := by
  simp only [writeChunk, map_ofList_lines_dump, foldl_writeLine, writeTable_eq]
  simp only [writeLine_eq, headerLine, chunkLines, List.map_append, List.map_cons, List.map_nil,
    ofRows_append, String.append_assoc]

end Render

mutual

theorem Block.writeOnto_eq (depth : Nat) (out : String) :
    ∀ b : Block, b.writeOnto depth out = out ++ ofRows (b.lines depth)
  | ⟨chunk, _, decls⟩ => by
    rw [Block.writeOnto, Block.lines, Decl.writeOnto_eq depth _ decls, writeChunk_eq, ofRows_append,
      String.append_assoc]

theorem Decl.writeOnto_eq (depth : Nat) (out : String) :
    ∀ decls : List Decl, Decl.writeOnto depth out decls = out ++ ofRows (Decl.lines depth decls)
  | [] => by rw [Decl.writeOnto, Decl.lines, ofRows_nil, String.append_empty]
  | .function f :: rest => by
    rw [Decl.writeOnto, Decl.lines, Decl.writeOnto_eq depth _ rest, Function.writeOnto_eq depth out f,
      ofRows_append, String.append_assoc]
  | .class c :: rest => by
    rw [Decl.writeOnto, Decl.lines, Decl.writeOnto_eq depth _ rest, Class.writeOnto_eq depth out c,
      ofRows_append, String.append_assoc]

theorem Function.writeOnto_eq (depth : Nat) (out : String) :
    ∀ f : Function, f.writeOnto depth out = out ++ ofRows (f.lines depth)
  | ⟨signature, body⟩ => by
    rw [Function.writeOnto, Function.lines, Block.writeOnto_eq (depth + 1) _ body,
      writeLine_append_ofRows]
    rfl

theorem Class.writeOnto_eq (depth : Nat) (out : String) :
    ∀ c : Class, c.writeOnto depth out = out ++ ofRows (c.lines depth)
  | ⟨header, methods⟩ => by
    rw [Class.writeOnto, Class.lines, Method.writeOnto_eq depth _ methods, writeLine_append_ofRows]
    rfl

theorem Method.writeOnto_eq (depth : Nat) (out : String) :
    ∀ methods : List (String × Method),
      Method.writeOnto depth out methods = out ++ ofRows (Method.lines depth methods)
  | [] => by rw [Method.writeOnto, Method.lines, ofRows_nil, String.append_empty]
  | (name, ⟨flags, ⟨signature, body⟩⟩) :: rest => by
    rw [Method.writeOnto, Method.lines, Method.writeOnto_eq depth _ rest,
      Block.writeOnto_eq (depth + 2) _ body, writeLine_append_ofRows, ofRows_append,
      String.append_assoc]
    rfl

end

theorem Block.textAt_eq (depth : Nat) (b : Block) : b.textAt depth = ofRows (b.lines depth) := by
  rw [Block.textAt, Block.writeOnto_eq, String.empty_append]

-- ---------------------------------------------------------------------------
-- Moving lines
-- ---------------------------------------------------------------------------

/-- The lines of a declaration, for given lines of blocks at a level of indentation. -/
def Decl.linesWith (body : Nat → Block → List String) (depth : Nat) : Decl → List String
  | .function f => indented depth (functionLine f) :: body (depth + 1) f.body
  | .class c =>
    indented depth (classLine c) :: c.methods.flatMap fun m =>
      indented (depth + 1) (methodLine m.1 m.2) :: body (depth + 2) m.2.function.body

theorem Method.lines_eq (depth : Nat) (methods : List (String × Method)) :
    Method.lines depth methods = methods.flatMap fun m =>
      indented (depth + 1) (methodLine m.1 m.2) :: m.2.function.body.lines (depth + 2) := by
  induction methods with
  | nil => rfl
  | cons m rest ih =>
    obtain ⟨_, _, _, _⟩ := m
    rw [Method.lines, ih]
    rfl

theorem Decl.lines_eq (depth : Nat) (decls : List Decl) :
    Decl.lines depth decls = decls.flatMap (Decl.linesWith Block.lines depth) := by
  induction decls with
  | nil => rfl
  | cons d rest ih =>
    cases d with
    | function f =>
      obtain ⟨_, _⟩ := f
      rw [Decl.lines, ih]
      rfl
    | «class» c =>
      obtain ⟨_, _⟩ := c
      rw [Decl.lines, ih, Class.lines, Method.lines_eq]
      rfl

theorem Block.lines_eq (depth : Nat) (b : Block) :
    b.lines depth = (chunkLines b.chunk).map (indented depth) ++
      b.decls.flatMap (Decl.linesWith Block.lines depth) := by
  obtain ⟨_, _, _⟩ := b
  rw [Block.lines, Decl.lines_eq]

theorem Decl.linesWith_congr {body body' : Nat → Block → List String} {d : Decl}
    (h : ∀ c ∈ d.bodies, ∀ depth, body depth c = body' depth c) (depth : Nat) :
    d.linesWith body depth = d.linesWith body' depth := by
  cases d with
  | function f => simp only [Decl.linesWith, h f.body (by simp [Decl.bodies])]
  | «class» c =>
    simp only [Decl.linesWith]
    congr 1
    refine List.flatMap_congr fun m hm => ?_
    rw [h m.2.function.body (List.mem_map_of_mem hm)]

theorem Decl.linesWith_add {body : Nat → Block → List String} {d : Decl} {shift : Nat}
    (h : ∀ c ∈ d.bodies, ∀ depth, body (shift + depth) c = (body depth c).map (indented shift))
    (depth : Nat) :
    d.linesWith body (shift + depth) = (d.linesWith body depth).map (indented shift) := by
  cases d with
  | function f =>
    simp only [Decl.linesWith, List.map_cons, indented_indented, Nat.add_assoc,
      h f.body (by simp [Decl.bodies])]
  | «class» c =>
    simp only [Decl.linesWith, List.map_cons, List.map_flatMap, indented_indented, Nat.add_assoc]
    congr 1
    refine List.flatMap_congr fun m hm => ?_
    rw [h m.2.function.body (List.mem_map_of_mem hm)]

/-- Indenting a block further moves its lines, and those of all bodies, as far to the right. -/
theorem Block.lines_add (shift depth : Nat) (b : Block) :
    b.lines (shift + depth) = (b.lines depth).map (indented shift) := by
  -- Bodies lie one or two levels deeper, so the induction is for every level at once.
  induction b using Block.induction generalizing depth with
  | step b ih =>
    rw [Block.lines_eq, Block.lines_eq, List.map_append, List.map_map, List.map_flatMap]
    congr 1
    · refine List.map_congr_left fun line _ => ?_
      rw [Function.comp_apply, indented_indented]
    · refine List.flatMap_congr fun d hd => Decl.linesWith_add (fun c hc depth => ?_) depth
      exact ih c (List.mem_flatMap.mpr ⟨d, hd, hc⟩) depth

-- ---------------------------------------------------------------------------
-- Lines that no name breaks
-- ---------------------------------------------------------------------------

/-- No name in the chunk has a line feed, and no constant has a text that could have one. -/
structure Chunk.Unbroken (c : Chunk Value) : Prop where
  name : Text.Unbroken c.name
  filename : Text.Unbroken c.filename
  names : ∀ s ∈ c.names, Text.Unbroken s
  varnames : ∀ s ∈ c.varnames, Text.Unbroken s
  consts : ∀ v ∈ c.consts, v = .null ∨ (∃ b, v = .bool b) ∨ ∃ n, v = .int n

/-- No parameter has a name with a line feed. -/
def Signature.Unbroken (s : Signature) : Prop := ∀ p ∈ s.params, Text.Unbroken p.name

/-- No name that stands in front of a body has a line feed. -/
def Decl.Unbroken : Decl → Prop
  | .function f => f.signature.Unbroken
  | .class c => Text.Unbroken c.header.name ∧
      ∀ m ∈ c.methods, Text.Unbroken m.1 ∧ m.2.function.signature.Unbroken

/-- No name in the block has a line feed, those in the bodies apart. -/
structure Block.Unbroken (b : Block) : Prop where
  chunk : b.chunk.Unbroken
  decls : ∀ d ∈ b.decls, d.Unbroken

namespace Render

theorem unbroken_indented {depth : Nat} {line : String} (h : Text.Unbroken line) :
    Text.Unbroken (indented depth line) := by
  rw [indented, unbroken_append_iff]
  exact ⟨by simp [Text.Unbroken], h⟩

theorem unbroken_tableLine {title : String} {items : List String} (htitle : Text.Unbroken title)
    (hitems : ∀ s ∈ items, Text.Unbroken s) : ∀ line ∈ tableLine title items, Text.Unbroken line := by
  unfold tableLine
  split
  · simp
  · have hlist := unbroken_intercalate_comma hitems
    simp only [List.mem_singleton, forall_eq, unbroken_append_iff]
    exact ⟨⟨⟨htitle, by simp [Text.Unbroken]⟩, hlist⟩, by simp [Text.Unbroken]⟩

theorem unbroken_signatureText {s : Signature} (h : s.Unbroken) :
    Text.Unbroken (signatureText s) := by
  have hparam : ∀ s' ∈ s.params.map paramText, Text.Unbroken s' := by
    refine List.forall_mem_map.mpr fun p hp => ?_
    have hname := h p hp
    cases hkind : p.kind <;>
      simp only [paramText, hkind, unbroken_append_iff] <;> exact ⟨by simp [Text.Unbroken], hname⟩
  have hlist := unbroken_intercalate_comma hparam
  rw [signatureText, unbroken_append_iff, unbroken_append_iff]
  exact ⟨⟨by simp [Text.Unbroken], hlist⟩, by simp [Text.Unbroken]⟩

theorem unbroken_text {v : Value} (h : v = .null ∨ (∃ b, v = .bool b) ∨ ∃ n, v = .int n) :
    Text.Unbroken v.text := by
  obtain rfl | ⟨b, rfl⟩ | ⟨n, rfl⟩ := h
  · simp [Value.text, Text.Unbroken]
  · cases b <;> simp [Value.text, Text.Unbroken]
  · exact unbroken_toString_int n.toInt

theorem unbroken_headerLine {c : Chunk Value} (h : c.Unbroken) : Text.Unbroken (headerLine c) := by
  have htext : headerLine c = "<ByteCode " ++ c.name ++ " (" ++ c.filename ++ ":" ++
      toString c.startLine.toNat ++ ")>" ++ " stackdepth=" ++ toString c.stackDepth := rfl
  have hstart := unbroken_toString_nat c.startLine.toNat
  have hdepth := unbroken_toString_nat c.stackDepth
  simp only [htext, unbroken_append_iff, h.name, h.filename, hstart, hdepth, and_true]
  simp [Text.Unbroken]

theorem unbroken_methodLine {name : String} {m : Method} (hname : Text.Unbroken name)
    (h : m.function.signature.Unbroken) : Text.Unbroken (methodLine name m) := by
  have htext : methodLine name m = "method " ++ name ++ signatureText m.function.signature ++
      " flags=" ++ toString m.flags.bits.toInt := rfl
  have hsignature := unbroken_signatureText h
  have hflags := unbroken_toString_int m.flags.bits.toInt
  simp only [htext, unbroken_append_iff, hname, hsignature, hflags, and_true]
  simp [Text.Unbroken]

theorem unbroken_functionLine {f : Function} (hname : Text.Unbroken f.name)
    (h : f.signature.Unbroken) : Text.Unbroken (functionLine f) := by
  have hsignature := unbroken_signatureText h
  simp only [functionLine, unbroken_append_iff, hname, hsignature, and_true]
  simp [Text.Unbroken]

theorem unbroken_classLine {c : Class} (hname : Text.Unbroken c.header.name) :
    Text.Unbroken (classLine c) := by
  simp only [classLine, unbroken_append_iff, hname, and_true]
  simp [Text.Unbroken]

theorem unbroken_listing_lines (marker : Option Nat) (l : Listing) :
    ∀ line ∈ l.lines marker, Text.Unbroken line := by
  rw [Listing.lines_eq, List.forall_mem_append, List.forall_mem_map, List.forall_mem_map]
  exact ⟨fun i _ => (Listing.oneLine_line_marked marker i).no_newline,
    fun e _ => (Listing.oneLine_faultLine e).no_newline⟩

theorem unbroken_chunkLines {c : Chunk Value} (h : c.Unbroken) :
    ∀ line ∈ chunkLines c, Text.Unbroken line := by
  have hconsts : ∀ s ∈ c.consts.map Value.text, Text.Unbroken s :=
    List.forall_mem_map.mpr fun v hv => unbroken_text (h.consts v hv)
  simp only [chunkLines, List.forall_mem_append, List.forall_mem_singleton]
  exact ⟨⟨⟨⟨unbroken_headerLine h, unbroken_tableLine (by simp [Text.Unbroken]) hconsts⟩,
    unbroken_tableLine (by simp [Text.Unbroken]) h.names⟩,
    unbroken_tableLine (by simp [Text.Unbroken]) h.varnames⟩, unbroken_listing_lines none c.listing⟩

end Render

theorem Decl.unbroken_linesWith {body : Nat → Block → List String} {d : Decl} (h : d.Unbroken)
    (hname : ∀ c ∈ d.bodies, Text.Unbroken c.chunk.name)
    (hbody : ∀ c ∈ d.bodies, ∀ depth, ∀ line ∈ body depth c, Text.Unbroken line) (depth : Nat) :
    ∀ line ∈ d.linesWith body depth, Text.Unbroken line := by
  cases d with
  | function f =>
    have hf : f.body ∈ (Decl.function f).bodies := by simp [Decl.bodies]
    have hline := unbroken_functionLine (hname f.body hf) h
    exact List.forall_mem_cons.mpr ⟨unbroken_indented hline, hbody f.body hf (depth + 1)⟩
  | «class» c =>
    obtain ⟨hclass, hmethods⟩ := h
    refine List.forall_mem_cons.mpr ⟨unbroken_indented (unbroken_classLine hclass), ?_⟩
    refine List.forall_mem_flatMap.mpr fun m hm => ?_
    obtain ⟨hmethod, hsignature⟩ := hmethods m hm
    have hline := unbroken_methodLine hmethod hsignature
    exact List.forall_mem_cons.mpr ⟨unbroken_indented hline,
      hbody m.2.function.body (List.mem_map_of_mem hm) (depth + 2)⟩

/-- If no name breaks a line, then the lines of a tree are not broken. -/
theorem Block.unbroken_lines {b : Block} (h : ∀ c ∈ b.blocks, c.Unbroken) (depth : Nat) :
    ∀ line ∈ b.lines depth, Text.Unbroken line := by
  induction b using Block.induction generalizing depth with
  | step b ih =>
    have hb := h b b.mem_blocks_self
    rw [Block.lines_eq, List.forall_mem_append, List.forall_mem_map, List.forall_mem_flatMap]
    refine ⟨fun line hline => unbroken_indented (unbroken_chunkLines hb.chunk line hline),
      fun d hd => ?_⟩
    have hmem : ∀ c ∈ d.bodies, c ∈ b.bodies := fun c hc => List.mem_flatMap.mpr ⟨d, hd, hc⟩
    refine Decl.unbroken_linesWith (hb.decls d hd) (fun c hc => ?_) (fun c hc depth => ?_) depth
    · exact (h c (Block.mem_blocks_of_body (hmem c hc) c.mem_blocks_self)).chunk.name
    · exact ih c (hmem c hc) (fun e he => h e (Block.mem_blocks_of_body (hmem c hc) he)) depth

theorem Block.rows_textAt {b : Block} (h : ∀ c ∈ b.blocks, c.Unbroken) (depth : Nat) :
    rows (b.textAt depth) = b.lines depth := by
  rw [Block.textAt_eq, rows_ofRows (Block.unbroken_lines h depth)]

-- ---------------------------------------------------------------------------
-- Texts at a level of indentation
-- ---------------------------------------------------------------------------

/--
The listing of a tree in which no name breaks a line is written behind any text in the same way, and
further to the right it is the listing with blanks in front of every row. Its rows are the header, the
tables that hold something, and one for every instruction; then, for what is declared, a row in front
of the text of a body one level deeper, or a row for a class, and for each of its methods a row in
front of the text of a body two levels deeper.
-/
theorem Block.textAt_eq_indented {t : Block} (hbuilt : ∀ b ∈ t.blocks, b.Built)
    (h : ∀ b ∈ t.blocks, b.Unbroken) (depth : Nat) :
    t.text = t.textAt 0 ∧
    (∀ out, t.writeOnto depth out = out ++ t.textAt depth) ∧
    t.textAt depth = ofRows (rows (t.textAt depth)) ∧
    rows (t.textAt depth) = (rows (t.textAt 0)).map (indented depth) ∧
    rows (t.textAt depth) =
      (headerLine t.chunk :: tableLine "consts" (t.chunk.consts.map Value.text) ++
        tableLine "names" t.chunk.names ++ tableLine "varnames" t.chunk.varnames ++
        t.chunk.listing.instructions.map (Listing.line none)).map (indented depth) ++
      t.decls.flatMap (Decl.linesWith (fun depth b => rows (b.textAt depth)) depth) := by
  have hrows := Block.rows_textAt h
  refine ⟨?_, fun out => ?_, ?_, ?_, ?_⟩
  · rw [Block.textAt_eq, Block.text, ofRows]
  · rw [Block.textAt_eq, Block.writeOnto_eq]
  · rw [hrows, Block.textAt_eq]
  · rw [hrows, hrows, ← Block.lines_add, Nat.add_zero]
  · obtain ⟨height, hheight⟩ := (hbuilt t t.mem_blocks_self).exists_stackDepth
    have hfault : t.chunk.listing.fault = none := Listing.fault_of_stackDepth_eq_ok hheight
    have hchunk : chunkLines t.chunk = headerLine t.chunk ::
        tableLine "consts" (t.chunk.consts.map Value.text) ++ tableLine "names" t.chunk.names ++
        tableLine "varnames" t.chunk.varnames ++
        t.chunk.listing.instructions.map (Listing.line none) := by
      simp [chunkLines, headerLine, Listing.lines, hfault]
    rw [hrows, Block.lines_eq, hchunk]
    congr 1
    refine List.flatMap_congr fun d hd => Decl.linesWith_congr (fun c hc depth => ?_) depth
    have hmem : c ∈ t.bodies := List.mem_flatMap.mpr ⟨d, hd, hc⟩
    rw [Block.rows_textAt fun e he => h e (Block.mem_blocks_of_body hmem he)]

theorem Block.unbroken_returning {name : String} (h : Text.Unbroken name) (slot : Option UInt64)
    (owner : Option String) : (Block.returning name slot owner).Unbroken where
  chunk :=
    { name := h
      filename := by simp [Block.returning, Text.Unbroken]
      names := by simp [Block.returning]
      varnames := by simp [Block.returning]
      consts := by simp [Block.returning] }
  decls := by simp [Block.returning]

theorem Block.unbroken_annotated : ∀ b ∈ Block.annotated.blocks, b.Unbroken := by
  have hname : Class.annotated.header.name = "Point" := rfl
  have hmethods : Class.annotated.methods = [(Class.constructorName,
      { flags := .isPublic
        function :=
          { signature := { params := [{ name := "x", default := some (.str "none") }] }
            body := .returning Class.constructorName (some 0) "Point" } })] := rfl
  have hannotated : Block.annotated.Unbroken :=
    { chunk :=
        { name := by simp [Block.annotated, Text.Unbroken]
          filename := by simp [Block.annotated, Text.Unbroken]
          names := by simp [Block.annotated]
          varnames := by simp [Block.annotated]
          consts := by simp [Block.annotated] }
      decls := by
        simp [Block.annotated, Decl.Unbroken, Signature.Unbroken, hname, hmethods,
          Class.constructorName, Text.Unbroken] }
  have hf : Text.Unbroken "f" := by simp [Text.Unbroken]
  have hconstructor : Text.Unbroken Class.constructorName := by
    simp [Class.constructorName, Text.Unbroken]
  rw [Block.blocks_annotated]
  simp [hannotated, Block.unbroken_returning hf, Block.unbroken_returning hconstructor]

theorem Block.textAt_eq_indented_annotated :
    (∀ b ∈ Block.annotated.blocks, b.Built) ∧ (∀ b ∈ Block.annotated.blocks, b.Unbroken) ∧
    rows (Block.annotated.textAt 1) =
      ["    <ByteCode <main> (:0)> stackdepth=0",
       "    consts: [7]",
       "    function f(...$rest)",
       "        <ByteCode f (:0)> stackdepth=1",
       "           0  LOAD_NULL",
       "           1  RETURN",
       "    class Point",
       "        method __construct($x) flags=1",
       "            <ByteCode __construct (:0)> stackdepth=1",
       "               0  LOAD_NULL",
       "               1  RETURN"] := by
  have hbuilt := Block.persistable_annotated.built
  have hunbroken := Block.unbroken_annotated
  obtain ⟨-, -, -, hindented, -⟩ := Block.textAt_eq_indented hbuilt hunbroken 1
  refine ⟨hbuilt, hunbroken, ?_⟩
  rw [hindented, Block.rows_textAt hunbroken]
  cbv

end Bytecode
