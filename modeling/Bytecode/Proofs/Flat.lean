-- SUMMARY: Blocks that declare nothing: what listings and JSON show of them, spelled out in full.
import Bytecode.Proofs.Disassembler
import Bytecode.Render.Text
import Bytecode.Render.View

/-!
# Flat blocks

A block that declares nothing and has integers for constants is shown by a text that can be written
down at once: the fields in their order, with what stands between them. The texts here are put together
from the fields alone, without views, levels of indentation or brackets that are closed elsewhere, and
the listing and the JSON of the block are these texts.
-/

namespace Bytecode

-- ---------------------------------------------------------------------------
-- Listings
-- ---------------------------------------------------------------------------

/-- The row of an instruction: its offset in at least four columns, two blanks, and what it does. -/
def Instruction.row (i : Instruction) : String :=
  String.ofList (List.replicate (4 - (toString i.offset).length) ' ') ++ toString i.offset ++ "  " ++
    i.opcode.mnemonic ++
    match i.operand with
    | none => ""
    | some operand => " " ++ toString operand

/-- The row of a table, which is there only if the table holds something. -/
def Flat.tableRows (title : String) (items : List String) : List String :=
  match items with
  | [] => []
  | items => [title ++ ": [" ++ ", ".intercalate items ++ "]"]

/-- The listing of a flat block, every row with a line feed behind it. -/
def Chunk.flatText (c : Chunk Value) (depth : Nat) (ints : List Int64) (is : List Instruction) :
    String :=
  String.join <|
    (("<ByteCode " ++ c.name ++ " (" ++ c.filename ++ ":" ++ toString c.startLine.toNat ++
        ")> stackdepth=" ++ toString depth) ::
      Flat.tableRows "consts" (ints.map fun n => toString n.toInt) ++ Flat.tableRows "names" c.names ++
        Flat.tableRows "varnames" c.varnames ++ is.map Instruction.row).map (· ++ "\n")

theorem Listing.line_none_eq_row (i : Instruction) : line none i = i.row := by
  obtain ⟨offset, op, operand⟩ := i
  cases operand with
  | none => simp [line, gutter, Instruction.row, Instruction.text]
  | some n =>
    have htext : Instruction.text ⟨offset, op, some n⟩ = op.mnemonic ++ " " ++ toString n := rfl
    simp [line, gutter, Instruction.row, htext, String.append_assoc]

theorem Render.tableLine_eq_tableRows (title : String) (items : List String) :
    tableLine title items = Flat.tableRows title items := by
  cases items <;> rfl

theorem Render.indented_zero (line : String) : indented 0 line = line := by
  simp [indented]

-- ---------------------------------------------------------------------------
-- JSON
-- ---------------------------------------------------------------------------

namespace Json

/-- How a character of a text is written between quotes. -/
inductive Spells : Char → List Char → Prop
  | plain {c : Char} (hquote : c ≠ '"') (hbackslash : c ≠ '\\') (hlow : 0x20 ≤ c.toNat) : Spells c [c]
  | quote : Spells '"' ['\\', '"']
  | backslash : Spells '\\' ['\\', '\\']
  | backspace : Spells '\x08' ['\\', 'b']
  | formFeed : Spells '\x0c' ['\\', 'f']
  | lineFeed : Spells '\n' ['\\', 'n']
  | carriageReturn : Spells '\r' ['\\', 'r']
  | tab : Spells '\t' ['\\', 't']
  | control {c : Char} (hlow : c.toNat < 0x20) (hnamed : c ∉ ['\x08', '\x0c', '\n', '\r', '\t']) :
      Spells c ['\\', 'u', '0', '0', Nat.digitChar (c.toNat / 16), Nat.digitChar (c.toNat % 16)]

/-- The second text is the first one in quotes, spelled character by character. -/
def Quotes (s text : String) : Prop :=
  ∃ spellings, List.Forall₂ Spells s.toList spellings ∧
    text = "\"" ++ String.ofList spellings.flatten ++ "\""

theorem hexPadded_four {n : Nat} (h : n < 0x20) :
    (hexPadded 4 n).toList = ['0', '0', Nat.digitChar (n / 16), Nat.digitChar (n % 16)] := by
  have hall : ∀ n < 0x20,
      (hexPadded 4 n).toList = ['0', '0', Nat.digitChar (n / 16), Nat.digitChar (n % 16)] := by decide
  exact hall n h

theorem spells_escape (c : Char) : Spells c (escape c) := by
  unfold escape
  split_ifs with hsyntax hbackspace hform hline hreturn htab hlow
  · rcases hsyntax with rfl | rfl
    · exact .quote
    · exact .backslash
  · exact hbackspace ▸ .backspace
  · exact hform ▸ .formFeed
  · exact hline ▸ .lineFeed
  · exact hreturn ▸ .carriageReturn
  · exact htab ▸ .tab
  · rw [hexPadded_four hlow]
    exact .control hlow (by simp [hbackspace, hform, hline, hreturn, htab])
  · rw [not_or] at hsyntax
    exact .plain hsyntax.1 hsyntax.2 (Nat.not_lt.mp hlow)

theorem quotes_quoted (s : String) : Quotes s (quoted s) := by
  refine ⟨s.toList.map escape, ?_, ?_⟩
  · rw [List.forall₂_map_right_iff, List.forall₂_same]
    exact fun c _ => spells_escape c
  · rw [← String.toList_inj]
    simp [quoted, List.flatMap_def]

end Json

/-- The entries of a list, one a line. -/
def Flat.entries (items : List String) : String :=
  match items with
  | [] => "[]"
  | items => "[\n    " ++ ",\n    ".intercalate items ++ "\n  ]"

/-- The entry of an instruction; what is not known is left out. -/
def Chunk.flatEntry (c : Chunk Value) (i : Instruction) : String :=
  let operand := i.operand.toList.map fun n => "\"arg\": " ++ toString n
  let line := c.lineMap[i.offset]?.toList.map fun w => "\"line\": " ++ toString w.toNat
  "\x7b\n      " ++ ",\n      ".intercalate
    (["\"offset\": " ++ toString i.offset, "\"opcode\": " ++ Json.quoted i.opcode.mnemonic] ++
      operand ++ line) ++
  "\n    \x7d"

/-- The JSON of a flat block. -/
def Chunk.flatJson (c : Chunk Value) (depth : Nat) (ints : List Int64) (is : List Instruction) :
    String :=
  "\x7b\n  " ++ ",\n  ".intercalate
    ["\"name\": " ++ Json.quoted c.name,
     "\"filename\": " ++ Json.quoted c.filename,
     "\"startlineno\": " ++ toString c.startLine.toNat,
     "\"stackdepth\": " ++ toString depth,
     "\"consts\": " ++ Flat.entries (ints.map fun n => toString n.toInt),
     "\"names\": " ++ Flat.entries (c.names.map Json.quoted),
     "\"varnames\": " ++ Flat.entries (c.varnames.map Json.quoted),
     "\"superglobals\": " ++ Flat.entries (c.superglobals.map fun w => toString w.toNat),
     "\"this_var_num\": " ++ (c.thisSlot.map fun w => toString w.toNat).getD "null",
     "\"instructions\": " ++ Flat.entries (is.map c.flatEntry),
     "\"declarations\": []"] ++
  "\n\x7d"

namespace Json

theorem prettyItems_eq_map (level : Nat) (items : List Json) :
    prettyItems level items = items.map (pretty level) := by
  induction items with
  | nil => rfl
  | cons item rest ih => rw [prettyItems, ih, List.map_cons]

theorem prettyFields_eq_map (level : Nat) (fields : List (String × Json)) :
    prettyFields level fields =
      fields.map fun field => quoted field.1 ++ ": " ++ pretty level field.2 := by
  induction fields with
  | nil => rfl
  | cons field rest ih =>
    obtain ⟨key, value⟩ := field
    rw [prettyFields, ih, List.map_cons]

theorem pretty_int_natCast (level n : Nat) : pretty level (.int n) = toString n := rfl

theorem pretty_str (level : Nat) (s : String) : pretty level (.str s) = quoted s := rfl

/-- A list that is the value of a field on the first level. -/
theorem pretty_array_one (items : List Json) :
    pretty 1 (.array items) = Flat.entries (items.map (pretty 2)) := by
  have hopening : "[" ++ lineBreak (1 + 1) = "[\n    " := rfl
  have hbetween : "," ++ lineBreak (1 + 1) = ",\n    " := rfl
  have hclosing : lineBreak 1 ++ "]" = "\n  ]" := rfl
  rw [pretty, prettyItems_eq_map, bracketed, hopening, hbetween, String.append_assoc, hclosing]
  cases items <;> rfl

/-- An object that is an entry of such a list. -/
theorem pretty_object_two {fields : List (String × Json)} (h : fields ≠ []) :
    pretty 2 (.object fields) =
      "\x7b\n      " ++ ",\n      ".intercalate (fields.map fun field =>
        quoted field.1 ++ ": " ++ pretty 3 field.2) ++ "\n    \x7d" := by
  have hopening : "\x7b" ++ lineBreak (2 + 1) = "\x7b\n      " := rfl
  have hbetween : "," ++ lineBreak (2 + 1) = ",\n      " := rfl
  have hclosing : lineBreak 2 ++ "\x7d" = "\n    \x7d" := rfl
  rw [pretty, prettyFields_eq_map, bracketed, if_neg (by simpa using h), hopening, hbetween,
    String.append_assoc, hclosing]

theorem pretty_entry (c : Chunk Value) (i : Instruction) : pretty 2 (c.entry i) = c.flatEntry i := by
  have hoffset : quoted "offset" ++ ": " = "\"offset\": " := rfl
  have hopcode : quoted "opcode" ++ ": " = "\"opcode\": " := rfl
  have harg : quoted "arg" ++ ": " = "\"arg\": " := rfl
  have hline : quoted "line" ++ ": " = "\"line\": " := rfl
  unfold Chunk.entry Chunk.flatEntry
  cases i.operand <;> cases c.lineMap[i.offset]? <;>
    simp only [pretty_object_two (List.cons_ne_nil _ _), pretty_int_natCast, pretty_str, hoffset,
      hopcode, harg, hline, List.map_cons, List.map_nil, Option.toList_none, Option.toList_some,
      List.append_nil, List.cons_append, List.nil_append]

/-- An object that is not inside anything. -/
theorem pretty_object_zero {fields : List (String × Json)} (h : fields ≠ []) :
    pretty 0 (.object fields) =
      "\x7b\n  " ++ ",\n  ".intercalate (fields.map fun field =>
        quoted field.1 ++ ": " ++ pretty 1 field.2) ++ "\n\x7d" := by
  have hopening : "\x7b" ++ lineBreak (0 + 1) = "\x7b\n  " := rfl
  have hbetween : "," ++ lineBreak (0 + 1) = ",\n  " := rfl
  have hclosing : lineBreak 0 ++ "\x7d" = "\n\x7d" := rfl
  rw [pretty, prettyFields_eq_map, bracketed, if_neg (by simpa using h), hopening, hbetween,
    String.append_assoc, hclosing]

end Json

section Flat

open Render

variable {b : Block} {c : Chunk Value} {depth : Nat} {ints : List Int64} {is : List Instruction}

theorem Chunk.stackDepth_eq (h : Bytecode.stackDepth c.code = .ok depth) : c.stackDepth = depth := by
  rw [stackDepth, h]

theorem Render.chunkLines_eq_rows (hconsts : c.consts = ints.map .int)
    (hdepth : stackDepth c.code = .ok depth) :
    chunkLines c =
      ("<ByteCode " ++ c.name ++ " (" ++ c.filename ++ ":" ++ toString c.startLine.toNat ++
          ")> stackdepth=" ++ toString depth) ::
        Flat.tableRows "consts" (ints.map fun n => toString n.toInt) ++ Flat.tableRows "names" c.names ++
          Flat.tableRows "varnames" c.varnames ++ c.listing.instructions.map Instruction.row := by
  have hfault : c.listing.fault = none := Listing.fault_of_stackDepth_eq_ok hdepth
  have hlines : c.listing.lines none = c.listing.instructions.map Instruction.row := by
    simp [Listing.lines, hfault, Listing.line_none_eq_row]
  have htexts : c.consts.map Value.text = ints.map fun n => toString n.toInt := by
    rw [hconsts, List.map_map]
    rfl
  have hheader : s!"{c.label} stackdepth={c.stackDepth}" =
      "<ByteCode " ++ c.name ++ " (" ++ c.filename ++ ":" ++ toString c.startLine.toNat ++
        (")>" ++ " stackdepth=") ++ toString depth := by
    rw [Chunk.stackDepth_eq hdepth, ← String.append_assoc]
    rfl
  rw [chunkLines, hlines, htexts, hheader]
  simp only [tableLine_eq_tableRows]
  rfl

theorem Block.text_eq_flatText (hdecls : b.decls = []) (hconsts : b.chunk.consts = ints.map .int)
    (hdepth : stackDepth b.chunk.code = .ok depth) :
    b.text = b.chunk.flatText depth ints b.chunk.listing.instructions := by
  obtain ⟨chunk, owner, decls⟩ := b
  obtain rfl : decls = [] := hdecls
  have hlines : Block.lines 0 ⟨chunk, owner, []⟩ = chunkLines chunk := by
    rw [Block.lines, Decl.lines, List.append_nil]
    exact (List.map_congr_left fun line _ => indented_zero line).trans (List.map_id _)
  rw [Block.text, hlines, chunkLines_eq_rows hconsts hdepth, Chunk.flatText]

theorem Block.json_eq_flatJson (hdecls : b.decls = []) (hconsts : b.chunk.consts = ints.map .int)
    (hdepth : stackDepth b.chunk.code = .ok depth) :
    b.json = b.chunk.flatJson depth ints b.chunk.listing.instructions := by
  obtain ⟨chunk, owner, decls⟩ := b
  obtain rfl : decls = [] := hdecls
  have hints : Json.pretty 1 (.array (chunk.consts.map Value.view)) =
      Flat.entries (ints.map fun n => toString n.toInt) := by
    rw [Json.pretty_array_one, hconsts, List.map_map, List.map_map]
    rfl
  have htexts : ∀ items, Json.pretty 1 (textsView items) = Flat.entries (items.map Json.quoted) := by
    intro items
    rw [textsView, Json.pretty_array_one, List.map_map]
    rfl
  have hwords : Json.pretty 1 (.array (chunk.superglobals.map wordView)) =
      Flat.entries (chunk.superglobals.map fun w => toString w.toNat) := by
    rw [Json.pretty_array_one, List.map_map]
    rfl
  have hslot : Json.pretty 1 (Json.orNull wordView chunk.thisSlot) =
      (chunk.thisSlot.map fun w => toString w.toNat).getD "null" := by
    cases chunk.thisSlot <;> rfl
  have hentries : Json.pretty 1 (.array (chunk.listing.instructions.map (instructionView chunk))) =
      Flat.entries (chunk.listing.instructions.map chunk.flatEntry) := by
    rw [Json.pretty_array_one, List.map_map]
    refine congrArg Flat.entries (List.map_congr_left fun i _ => ?_)
    rw [Function.comp_apply, instructionView_eq, Json.pretty_entry]
  rw [Block.json, Block.view, Decl.views, chunkFields, Json.pretty_object_zero (by simp),
    Chunk.flatJson, Chunk.stackDepth_eq hdepth]
  simp only [List.cons_append, List.nil_append, List.map_cons, List.map_nil, hints, htexts, hwords,
    hslot, hentries]
  rfl

/--
What is shown of a block that declares nothing: the stack slots that its code needs, its integers and
its instructions, and the two texts that are made of them and of its other fields.
-/
structure Block.Flat (b : Block) (depth : Nat) (ints : List Int64) (is : List Instruction) : Prop where
  decls : b.decls = []
  checked : stackDepth b.chunk.code = .ok depth
  consts : b.chunk.consts = ints.map .int
  items : Disassembler.items { code := b.chunk.code } = is.map .ok
  text : b.text = b.chunk.flatText depth ints is
  json : b.json = b.chunk.flatJson depth ints is
  quoted : ∀ s ∈ b.chunk.name :: b.chunk.filename :: b.chunk.names ++ b.chunk.varnames ++
    is.map (·.opcode.mnemonic), Json.Quotes s (Json.quoted s)

theorem Block.flat_of_decls_eq_nil (hdecls : b.decls = []) (hconsts : b.chunk.consts = ints.map .int)
    (hdepth : stackDepth b.chunk.code = .ok depth) :
    b.Flat depth ints b.chunk.listing.instructions where
  decls := hdecls
  checked := hdepth
  consts := hconsts
  items := (Block.listedInFull hdepth).items
  text := Block.text_eq_flatText hdecls hconsts hdepth
  json := Block.json_eq_flatJson hdecls hconsts hdepth
  quoted s _ := Json.quotes_quoted s

end Flat

end Bytecode
