-- SUMMARY: Blocks that are listed as assembly text and assembled again.
import Bytecode.Proofs.Assembly.Grammar
import Bytecode.Proofs.Assembly.Storing

/-!
# Reassembling

A block whose constants are integers can be written as assembly text: directives for its name, file,
constants and tables, and one line for each of its instructions. Assembling the text gives a block with
the same tables, the same instructions and the same stack depth. The text tells the values of operands
and not how they are spelled, so the code is the same if and only if no operand has a redundant byte.
-/

namespace Bytecode

namespace Assembly

-- ---------------------------------------------------------------------------
-- Sources line by line
-- ---------------------------------------------------------------------------

theorem itemsFrom_of_spells {ls : List String} {its : List Item} (h : List.Forall₂ Spells ls its)
    (number : Nat) : itemsFrom number (ls.map String.toList) = .ok its := by
  have hlines : List.Forall₂ (fun line item? => Item.ofLine line = .ok item?)
      (ls.map String.toList) (its.map some) :=
    List.forall₂_map_left_iff.mpr (List.forall₂_map_right_iff.mpr (h.imp fun _ _ hs => hs.ofLine_eq))
  rw [itemsFrom_of_forall₂ hlines, List.reduceOption, List.filterMap_map, Function.id_comp,
    List.filterMap_some]

/-- A text has the items that its lines spell. -/
theorem items_of_spells {ls : List String} {its : List Item} {ending : String}
    (h : List.Forall₂ Spells ls its) (hne : ls ≠ []) (hending : ending = "" ∨ ending = "\n") :
    items ("\n".intercalate ls ++ ending).toList = .ok its := by
  have hboth : List.Forall₂ (fun line item => Uncut line ∧ Spells line item) ls its :=
    h.imp fun _ _ hspells => ⟨hspells.uncut, hspells⟩
  have huncut : ∀ line ∈ ls, Uncut line := ((List.forall₂_and_left ls its).mp hboth).1
  have hplain : ∀ line ∈ ls.map String.toList, Text.Plain line :=
    List.forall_mem_map.mpr fun line hline => (huncut line hline).plain
  have hends : ending.toList = [] ∨ ending.toList = ['\n'] := by
    rcases hending with rfl | rfl
    · exact .inl rfl
    · exact .inr rfl
  have hlines : Text.lines ("\n".intercalate ls ++ ending).toList = ls.map String.toList := by
    rw [String.toList_append, String.toList_intercalate]
    exact Text.lines_intercalate (fun line hline => (hplain line hline).oneLine)
      (mt List.map_eq_nil_iff.mp hne) hends
  rw [items, hlines, itemsFrom_of_spells h]

theorem spells_map {α : Type} {line : α → String} {item : α → Item} {l : List α}
    (h : ∀ a ∈ l, Spells (line a) (item a)) : List.Forall₂ Spells (l.map line) (l.map item) :=
  List.forall₂_map_left_iff.mpr (List.forall₂_map_right_iff.mpr (List.forall₂_same.mpr h))

/-- Items of a kind that adds no code add no code together. -/
theorem flatMap_code_map_eq_nil {α : Type} (make : α → Item) (h : ∀ a, (make a).code = [])
    (l : List α) : (l.map make).flatMap Item.code = [] := by
  simp [List.flatMap_map, List.flatMap_eq_nil_iff, h]

section Items

variable (name file : String) (ints : List Int64) (globals vars : List String)
  (encodings : List (List UInt8))

/-- The items of a chunk with integer constants, and with the code of some instructions. -/
def itemsOf : List Item :=
  [.name name, .file file] ++ ints.map .const ++ globals.map .global ++ vars.map .var ++
    encodings.map .instruction

theorem chunk_itemsOf (defaultFile : String) :
    chunk defaultFile (itemsOf name file ints globals vars encodings) =
      { code := encodings.flatten
        consts := ints.map .int
        names := globals
        varnames := vars
        name := name
        filename := file
        startLine := 1 } := by
  have hcode : (itemsOf name file ints globals vars encodings).flatMap Item.code =
      encodings.flatten := by
    simp [itemsOf, flatMap_code_map_eq_nil .const fun _ => rfl,
      flatMap_code_map_eq_nil .global fun _ => rfl, flatMap_code_map_eq_nil .var fun _ => rfl,
      List.flatMap_map, Item.code]
  have hname : (itemsOf name file ints globals vars encodings).filterMap Item.name? = [name] := by
    simp [itemsOf, List.filterMap_cons, List.filterMap_map, Function.comp_def, Item.name?]
  have hfile : (itemsOf name file ints globals vars encodings).filterMap Item.file? = [file] := by
    simp [itemsOf, List.filterMap_cons, List.filterMap_map, Function.comp_def, Item.file?]
  have hints : (itemsOf name file ints globals vars encodings).filterMap Item.const? = ints := by
    simp [itemsOf, List.filterMap_cons, List.filterMap_map, Function.comp_def, Item.const?]
  have hglobals :
      (itemsOf name file ints globals vars encodings).filterMap Item.global? = globals := by
    simp [itemsOf, List.filterMap_cons, List.filterMap_map, Function.comp_def, Item.global?]
  have hvars : (itemsOf name file ints globals vars encodings).filterMap Item.var? = vars := by
    simp [itemsOf, List.filterMap_cons, List.filterMap_map, Function.comp_def, Item.var?]
  rw [chunk, hcode, hname, hfile, hints, hglobals, hvars]
  rfl

end Items

end Assembly

open Assembly

-- ---------------------------------------------------------------------------
-- Blocks as sources
-- ---------------------------------------------------------------------------

/-- The lines of assembly text that stand for a block with integer constants. -/
def Block.sourceLines (b : Block) : List String :=
  [directiveLine "name" b.chunk.name, directiveLine "file" b.chunk.filename] ++
    b.chunk.consts.map (fun v => directiveLine "const" v.text) ++
    b.chunk.names.map (directiveLine "global") ++ b.chunk.varnames.map (directiveLine "var") ++
    b.chunk.listing.instructions.map Instruction.text

/-- The block was built, and assembly text can name all that is in its tables. -/
structure Block.Listable (b : Block) : Prop where
  checked : Block.build? b.chunk b.owner b.decls = .ok b
  name : Uncut b.chunk.name
  filename : Uncut b.chunk.filename
  names : ∀ s ∈ b.chunk.names, Uncut s
  varnames : ∀ s ∈ b.chunk.varnames, Uncut s
  ints : ∀ v ∈ b.chunk.consts, ∃ n, v = .int n

namespace Block.Listable

variable {b : Block}

theorem exists_ints (h : b.Listable) : ∃ ints : List Int64, ints.map .int = b.chunk.consts := by
  have hrange : b.chunk.consts ∈ Set.range (List.map Value.int) := by
    rw [Set.range_list_map]
    exact fun v hv => (h.ints v hv).imp fun n heq => heq.symm
  exact hrange

theorem spells_sourceLines (h : b.Listable) {ints : List Int64}
    (hints : ints.map .int = b.chunk.consts) :
    List.Forall₂ Spells b.sourceLines
      (itemsOf b.chunk.name b.chunk.filename ints b.chunk.names b.chunk.varnames
        (b.chunk.listing.instructions.map fun i => i.step.bytes)) := by
  have hname : Spells (directiveLine "name" b.chunk.name) (.name b.chunk.name) :=
    spells_uncut (by simp) h.name fun cs hcs => by simp [Item.ofDirective, hcs]
  have hfile : Spells (directiveLine "file" b.chunk.filename) (.file b.chunk.filename) :=
    spells_uncut (by simp) h.filename fun cs hcs => by simp [Item.ofDirective, hcs]
  have hconsts : List.Forall₂ Spells (b.chunk.consts.map fun v => directiveLine "const" v.text)
      (ints.map .const) := by
    rw [← hints, List.map_map]
    exact spells_map fun n _ => spells_const n
  have hnames : List.Forall₂ Spells (b.chunk.names.map (directiveLine "global"))
      (b.chunk.names.map .global) :=
    spells_map fun s hs =>
      spells_uncut (by simp) (h.names s hs) fun cs hcs => by simp [Item.ofDirective, hcs]
  have hvarnames : List.Forall₂ Spells (b.chunk.varnames.map (directiveLine "var"))
      (b.chunk.varnames.map .var) :=
    spells_map fun s hs =>
      spells_uncut (by simp) (h.varnames s hs) fun cs hcs => by simp [Item.ofDirective, hcs]
  have hinstructions : List.Forall₂ Spells (b.chunk.listing.instructions.map Instruction.text)
      ((b.chunk.listing.instructions.map fun i => i.step.bytes).map .instruction) := by
    rw [List.map_map]
    refine spells_map fun i hi => ?_
    obtain ⟨hwf, hfits⟩ := Listing.wellFormed_and_fits_of_mem hi
    exact spells_text hwf hfits
  have hheader := List.Forall₂.cons hname (.cons hfile .nil)
  exact List.rel_append (List.rel_append (List.rel_append (List.rel_append hheader hconsts) hnames)
    hvarnames) hinstructions

end Block.Listable

/--
The source of a block is assembled, whatever the default file is, as a block with the same name, file,
tables, instructions and stack depth. Its code is that of the block if and only if no operand of
several bytes ends in the byte one.
-/
theorem Block.assemble_sourceLines {b : Block} (h : b.Listable) {ending : String}
    (hending : ending = "" ∨ ending = "\n") (defaultFile : String) :
    ∃ b', assemble ("\n".intercalate b.sourceLines ++ ending) defaultFile = .ok b' ∧
      b'.chunk.name = b.chunk.name ∧ b'.chunk.filename = b.chunk.filename ∧
      b'.chunk.consts = b.chunk.consts ∧ b'.chunk.names = b.chunk.names ∧
      b'.chunk.varnames = b.chunk.varnames ∧ b'.chunk.stackDepth = b.chunk.stackDepth ∧
      b'.chunk.listing.instructions.map Instruction.step =
        b.chunk.listing.instructions.map Instruction.step ∧
      b'.chunk.listing.fault = none ∧
      (b'.chunk.code = b.chunk.code ↔ ∀ i ∈ b.chunk.listing.instructions,
        1 < (i.spelling b.chunk.code).length →
          (i.spelling b.chunk.code).getLast? ≠ some 0x01) := by
  obtain ⟨ints, hints⟩ := h.exists_ints
  obtain ⟨depth, hdepth⟩ := Block.exists_stackDepth_of_build? h.checked
  have hfault : b.chunk.listing.fault = none := Listing.fault_of_stackDepth_eq_ok hdepth
  have hdepth' : stackDepth b.chunk.listing.bytes = .ok depth := stackDepth_bytes hdepth
  have hitems := items_of_spells (h.spells_sourceLines hints) (by simp [sourceLines]) hending
  have hchunk := chunk_itemsOf b.chunk.name b.chunk.filename ints b.chunk.names b.chunk.varnames
    (b.chunk.listing.instructions.map fun i => i.step.bytes) defaultFile
  rw [← List.flatMap_def, ← Listing.bytes, hints] at hchunk
  refine ⟨_, assemble_eq_ok_iff.mpr ⟨_, hitems, ⟨depth, ?_⟩, rfl⟩, ?_⟩
  · rw [hchunk]
    exact hdepth'
  · obtain ⟨hsteps, hfault'⟩ := Listing.ofBytes_bytes b.chunk.code
    rw [hchunk]
    refine ⟨rfl, rfl, rfl, rfl, rfl, ?_, hsteps, hfault', Listing.bytes_ofBytes_eq_iff hfault⟩
    simp only [Chunk.stackDepth, hdepth, hdepth']

/-- A block whose one operand is spelled in a byte more than it takes. -/
def Block.wordy : Block where
  chunk := { code := [0x40, 0x80, 0x01, 0x04]
             consts := [.int (-2 ^ 63)]
             names := ["a b"]
             varnames := ["x"]
             name := "main"
             filename := "f.php" }

theorem Block.uncut_wordy : ∀ s ∈ ["main", "f.php", "a b", "x"], Uncut s := by
  simp [uncut_iff, Text.plain_iff, Text.isBlank]

theorem Block.listable_wordy : Block.wordy.Listable where
  checked := by
    have hdepth : stackDepth Block.wordy.chunk.code = .ok 1 := by cbv
    rw [Block.build?, hdepth]
    rfl
  name := uncut_wordy "main" (by simp)
  filename := uncut_wordy "f.php" (by simp)
  names := List.forall_mem_singleton.mpr (uncut_wordy "a b" (by simp))
  varnames := List.forall_mem_singleton.mpr (uncut_wordy "x" (by simp))
  ints := List.forall_mem_singleton.mpr ⟨_, rfl⟩

theorem Block.assemble_sourceLines_wordy :
    Block.wordy.Listable ∧
    "\n".intercalate Block.wordy.sourceLines ++ "\n" =
      ".name main\n.file f.php\n.const -9223372036854775808\n.global a b\n.var x\n" ++
        "LOAD_CONST 0\nRETURN\n" ∧
    ∃ b', assemble ("\n".intercalate Block.wordy.sourceLines ++ "\n") "other.php" = .ok b' ∧
      b'.chunk.filename = "f.php" ∧ b'.chunk.consts = [.int (-2 ^ 63)] ∧
      b'.chunk.stackDepth = 1 ∧ b'.chunk.code ≠ Block.wordy.chunk.code := by
  have hdepth : Block.wordy.chunk.stackDepth = 1 := by cbv
  have hlisting : Block.wordy.chunk.listing.instructions =
      [⟨0, .loadConst, some 0⟩, ⟨3, .ret, none⟩] := by cbv
  have hspelling : (Instruction.mk 0 .loadConst (some 0)).spelling Block.wordy.chunk.code =
      [0x80, 0x01] := by cbv
  refine ⟨listable_wordy, by cbv, ?_⟩
  obtain ⟨b', hassemble, -, hfile, hconsts, -, -, hstack, -, -, hcode⟩ :=
    Block.assemble_sourceLines listable_wordy (.inr rfl) "other.php"
  refine ⟨b', hassemble, hfile, hconsts, hstack.trans hdepth, fun heq => ?_⟩
  have hlast := hcode.mp heq ⟨0, .loadConst, some 0⟩ (by simp [hlisting])
  rw [hspelling] at hlast
  exact hlast (by decide) rfl

end Bytecode
