-- SUMMARY: What of a source does not matter: comments, blanks, line ends and the case of mnemonics.
import Bytecode.Proofs.Assembly.Grammar

/-!
# Layout

Two lines can look different and mean the same: comments are cut off, blanks at the ends are trimmed, any
blanks stand between a head and its value, and a mnemonic may be in any case. All of this is gone from
the canonical form of a line. What a line is read as, and what is wrong with it, depends on this form
alone, and so does what a text is assembled as.
-/

namespace Bytecode

open Text

namespace Assembly

-- ---------------------------------------------------------------------------
-- Canonical forms
-- ---------------------------------------------------------------------------

/-- A head, in capitals if it is the mnemonic of an opcode. -/
def canonicalHead (head : List Char) : List Char :=
  if (Opcode.ofMnemonic? (String.ofList head)).isSome then head.map Char.toUpper else head

/-- The content of a line, with one space behind its head and with its mnemonic in capitals. -/
def canonicalLine (line : List Char) : List Char :=
  let text := Item.content line
  let value := trimLeft (text.dropWhile (!isBlank ·))
  canonicalHead (text.takeWhile (!isBlank ·)) ++ if value.isEmpty then [] else ' ' :: value

section Head

variable {head : List Char} {op : Opcode}

theorem canonicalHead_of_some (h : Opcode.ofMnemonic? (String.ofList head) = some op) :
    canonicalHead head = op.mnemonic.toList := by
  have hupper := Opcode.map_toUpper_eq (Opcode.ofMnemonic?_eq_some_iff.mp h)
  rw [String.toList_ofList] at hupper
  rw [canonicalHead, h, ← hupper]
  rfl

theorem canonicalHead_of_none (h : Opcode.ofMnemonic? (String.ofList head) = none) :
    canonicalHead head = head := by
  rw [canonicalHead, h]
  rfl

theorem canonicalHead_eq_nil_iff : canonicalHead head = [] ↔ head = [] := by
  unfold canonicalHead
  split
  · exact List.map_eq_nil_iff
  · rfl

theorem isBlank_eq_false_of_mem_canonicalHead (h : ∀ c ∈ head, isBlank c = false) :
    ∀ c ∈ canonicalHead head, isBlank c = false := by
  cases hop : Opcode.ofMnemonic? (String.ofList head) with
  | none => rwa [canonicalHead_of_none hop]
  | some op =>
    rw [canonicalHead_of_some hop]
    exact op.word_mnemonic.no_blank

/-- The canonical form of a head is read as the head is, and found wrong as the head is. -/
theorem Item.ofWords_canonicalHead (head value : List Char) :
    ofWords (canonicalHead head) value = ofWords head value := by
  cases hop : Opcode.ofMnemonic? (String.ofList head) with
  | none => rw [canonicalHead_of_none hop]
  | some op =>
    have hsame := foldCase_eq_foldCase_iff.mp (Opcode.ofMnemonic?_eq_some_iff.mp hop)
    rw [canonicalHead_of_some hop, ofWords_of_ne_dot (head_ne_dot hsame),
      ofWords_of_ne_dot (Opcode.toList_ne_dot rfl), String.ofList_toList]
    simp only [ofInstruction, hop, Opcode.ofMnemonic?_mnemonic]

end Head

-- ---------------------------------------------------------------------------
-- Lines
-- ---------------------------------------------------------------------------

section Line

variable {line line' head value : List Char}

theorem canonicalLine_eq (h : Splits (Item.content line) head value) :
    canonicalLine line = canonicalHead head ++ if value.isEmpty then [] else ' ' :: value := by
  have hhead : (Item.content line).takeWhile (!isBlank ·) = head := h.splitWord_eq.1
  simp only [canonicalLine, hhead, h.trimLeft_dropWhile_eq]

theorem splits_canonicalLine (h : Splits (Item.content line) head value) :
    Splits (canonicalLine line) (canonicalHead head) value where
  no_blank := isBlank_eq_false_of_mem_canonicalHead h.no_blank
  trimmed := h.trimmed
  exists_gap := by
    rw [canonicalLine_eq h]
    cases value with
    | nil => exact ⟨[], by simp⟩
    | cons c value => exact ⟨[' '], by simp [isBlank]⟩

theorem Item.ofLine_eq_canonical (h : Splits (content line) head value) :
    ofLine line =
      if canonicalHead head = [] then .ok none else (ofWords (canonicalHead head) value).map some := by
  have hnil : content line = [] ↔ canonicalHead head = [] :=
    (h.eq_nil_iff (trimmed_trim _)).trans canonicalHead_eq_nil_iff.symm
  simp only [ofLine_eq_ofWords h, hnil, ofWords_canonicalHead]

/-- What a line is read as, or what is wrong with it, depends on its canonical form alone. -/
theorem Item.ofLine_eq_of_canonicalLine_eq (h : canonicalLine line = canonicalLine line') :
    ofLine line = ofLine line' := by
  obtain ⟨hhead, hvalue⟩ := (splits_canonicalLine (splits_content line)).splitWord_eq
  obtain ⟨hhead', hvalue'⟩ := (splits_canonicalLine (splits_content line')).splitWord_eq
  rw [h] at hhead hvalue
  rw [ofLine_eq_canonical (splits_content line), ofLine_eq_canonical (splits_content line'),
    ← hhead, ← hhead', ← hvalue, ← hvalue']

end Line

-- ---------------------------------------------------------------------------
-- Texts
-- ---------------------------------------------------------------------------

theorem itemsFrom_congr {ls ls' : List (List Char)}
    (h : List.Forall₂ (fun line line' => Item.ofLine line = Item.ofLine line') ls ls') (number : Nat) :
    itemsFrom number ls = itemsFrom number ls' := by
  induction h generalizing number with
  | nil => rfl
  | cons hline _ ih => simp only [itemsFrom, hline, ih]

/--
Texts whose lines have the same canonical forms, one by one, are assembled as the same block, or refused
for the same reason at the same line.
-/
theorem assemble_eq_of_layout {source source' : String}
    (h : (lines source.toList).map canonicalLine = (lines source'.toList).map canonicalLine)
    (file : String) : assemble source file = assemble source' file := by
  rw [← List.forall₂_eq_eq_eq, List.forall₂_map_left_iff, List.forall₂_map_right_iff] at h
  have hitems : items source.toList = items source'.toList :=
    itemsFrom_congr (h.imp fun _ _ => Item.ofLine_eq_of_canonicalLine_eq) 1
  simp only [assemble, hitems]

theorem assemble_eq_of_layout_crlf :
    let source := "\treturn ; first\r\n.const \t 7"
    let source' := "RETURN\n  .const 7;\n"
    (lines source.toList).map canonicalLine = (lines source'.toList).map canonicalLine ∧
      assemble source "a.hasm" = assemble source' "a.hasm" := by
  intro source source'
  have hlines : lines source.toList = ["\treturn ; first".toList, ".const \t 7".toList] := by cbv
  have hlines' : lines source'.toList = ["RETURN".toList, "  .const 7;".toList] := by cbv
  have hform (line head value : List Char) (hhead : (splitWord (Item.content line)).1 = head)
      (hvalue : trim (splitWord (Item.content line)).2 = value) :
      canonicalLine line = canonicalHead head ++ if value.isEmpty then [] else ' ' :: value := by
    rw [← hhead, ← hvalue]
    exact canonicalLine_eq (Item.splits_content line)
  have hreturn : canonicalHead "return".toList = canonicalHead "RETURN".toList := by
    have hsmall : Opcode.ofMnemonic? (String.ofList "return".toList) = some .ret :=
      Opcode.ofMnemonic?_eq_some_iff.mpr (by cbv)
    have hcapitals : Opcode.ofMnemonic? (String.ofList "RETURN".toList) = some .ret :=
      Opcode.ofMnemonic?_eq_some_iff.mpr (by cbv)
    rw [canonicalHead_of_some hsmall, canonicalHead_of_some hcapitals]
  have hfirst : canonicalLine "\treturn ; first".toList = canonicalLine "RETURN".toList := by
    rw [hform "\treturn ; first".toList "return".toList [] (by cbv) (by cbv),
      hform "RETURN".toList "RETURN".toList [] (by cbv) (by cbv), hreturn]
  have hsecond : canonicalLine ".const \t 7".toList = canonicalLine "  .const 7;".toList := by
    rw [hform ".const \t 7".toList ".const".toList ['7'] (by cbv) (by cbv),
      hform "  .const 7;".toList ".const".toList ['7'] (by cbv) (by cbv)]
  have hlayout : (lines source.toList).map canonicalLine =
      (lines source'.toList).map canonicalLine := by
    simp only [hlines, hlines', List.map_cons, hfirst, hsecond]
  exact ⟨hlayout, assemble_eq_of_layout hlayout "a.hasm"⟩

end Assembly

end Bytecode
