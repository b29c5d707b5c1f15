-- SUMMARY: The grammar of assembly lines: what is accepted, and which line is reported.
import Bytecode.Assembly.Source
import Bytecode.Proofs.Assembly.Item

/-!
# The grammar of lines

A line is cut to its content, and the content splits into a head and a value. Which heads and values
are accepted, and what they contribute, is said by an inductive relation, and a line is read as what
the relation says, or not at all. A text of such lines makes up the chunk that the lines contribute to
one by one; any other text is refused for its first line that is not in the grammar.
-/

namespace Bytecode

open Text

namespace Assembly

-- ---------------------------------------------------------------------------
-- The grammar
-- ---------------------------------------------------------------------------

/-- The directives that take any text, if there is one. -/
def textDirectives : List (String × (String → Item)) :=
  [("name", .name), ("file", .file), ("global", .global), ("var", .var)]

/-- The head and the value of a line, and what a line of these contributes. -/
inductive Means : List Char → List Char → Item → Prop
  | text {directive : String} {make : String → Item} {value : List Char}
      (hmem : (directive, make) ∈ textDirectives) (hvalue : value ≠ []) :
      Means ('.' :: directive.toList) value (make (String.ofList value))
  | const {value : List Char} {n : Int64} (hvalue : Signed value n.toInt) :
      Means ('.' :: "const".toList) value (.const n)
  | bare {head : List Char} {op : Opcode} (hhead : EqualButCase op.mnemonic (String.ofList head))
      (htakes : op.takesOperand = false) :
      Means head [] (.instruction (Step.bytes ⟨op, none⟩))
  | operand {head value : List Char} {op : Opcode} {n : Nat}
      (hhead : EqualButCase op.mnemonic (String.ofList head)) (htakes : op.takesOperand = true)
      (hvalue : Unsigned value n) (hn : n < 2 ^ 35) :
      Means head value (.instruction (Step.bytes ⟨op, some n⟩))

/-- A line of the grammar, and what it contributes, if anything. -/
inductive InGrammar (line : List Char) : Option Item → Prop
  | blank (h : Item.content line = []) : InGrammar line none
  | item {head value : List Char} {item : Item} (hsplit : Splits (Item.content line) head value)
      (hmeans : Means head value item) : InGrammar line (some item)

-- ---------------------------------------------------------------------------
-- Directives
-- ---------------------------------------------------------------------------

namespace Item

variable {head value : List Char} {item : Item}

theorem ofDirective_text {directive : String} {make : String → Item}
    (hmem : (directive, make) ∈ textDirectives) (hvalue : value ≠ []) :
    ofDirective directive value = .ok (make (String.ofList value)) := by
  simp only [textDirectives, List.mem_cons, Prod.mk.injEq, List.not_mem_nil, or_false] at hmem
  rcases hmem with ⟨rfl, rfl⟩ | ⟨rfl, rfl⟩ | ⟨rfl, rfl⟩ | ⟨rfl, rfl⟩ <;> simp [ofDirective, hvalue]

theorem means_of_ofDirective {directive : String} (h : ofDirective directive value = .ok item) :
    Means ('.' :: directive.toList) value item := by
  have htext (make : String → Item) (hmem : (directive, make) ∈ textDirectives)
      (hempty : ¬ value.isEmpty) : Means ('.' :: directive.toList) value (make (String.ofList value)) :=
    .text hmem (mt List.isEmpty_iff.mpr hempty)
  unfold ofDirective at h
  split_ifs at h with hempty hname hfile hconst hglobal hvar
  · cases h
    exact htext .name (by simp [textDirectives, hname]) hempty
  · cases h
    exact htext .file (by simp [textDirectives, hfile]) hempty
  · subst hconst
    cases hsigned : Literal.signed value with
    | error cause => simp [hsigned] at h
    | ok n =>
      rw [hsigned] at h
      cases h
      exact .const (Literal.signed_eq_ok_iff.mp hsigned)
  · cases h
    exact htext .global (by simp [textDirectives, hglobal]) hempty
  · cases h
    exact htext .var (by simp [textDirectives, hvar]) hempty

theorem ne_nil_of_unsigned {n : Nat} (h : Unsigned value n) : value ≠ [] := by
  cases h with
  | bare h => exact h.ne_nil
  | plus h => exact List.cons_ne_nil _ _

theorem ne_nil_of_signed {z : Int} (h : Signed value z) : value ≠ [] := by
  cases h with
  | unsigned h => exact ne_nil_of_unsigned h
  | minus h => exact List.cons_ne_nil _ _

-- ---------------------------------------------------------------------------
-- Instructions
-- ---------------------------------------------------------------------------

theorem ofStep_eq_ok_iff {s : Step} :
    ofStep s = .ok item ↔ s.Fits ∧ item = .instruction s.bytes := by
  constructor
  · intro h
    have hfits : s.Fits := by
      intro operand hoperand
      by_contra hle
      have hencode := Step.encode_eq_error_iff.mpr ⟨operand, hoperand, Nat.not_lt.mp hle, rfl⟩
      simp [ofStep, hencode] at h
    rw [ofStep_eq hfits] at h
    exact ⟨hfits, (Except.ok.inj h).symm⟩
  · rintro ⟨hfits, rfl⟩
    exact ofStep_eq hfits

section Instruction

variable {op : Opcode}

theorem means_of_ofInstruction (h : ofInstruction (String.ofList head) value = .ok item) :
    Means head value item := by
  unfold ofInstruction at h
  cases hop : Opcode.ofMnemonic? (String.ofList head) with
  | none => simp [hop] at h
  | some op =>
    have hhead := foldCase_eq_foldCase_iff.mp (Opcode.ofMnemonic?_eq_some_iff.mp hop)
    simp only [hop] at h
    split_ifs at h with htakes hempty hempty
    · cases hvalue : Literal.unsigned value with
      | error cause => simp [hvalue] at h
      | ok n =>
        rw [hvalue] at h
        obtain ⟨hfits, rfl⟩ := ofStep_eq_ok_iff.mp h
        exact .operand hhead htakes (Literal.unsigned_eq_ok_iff.mp hvalue).1 (hfits n rfl)
    · obtain ⟨-, rfl⟩ := ofStep_eq_ok_iff.mp h
      rw [List.isEmpty_iff.mp hempty]
      exact .bare hhead (by simpa using htakes)

theorem ofInstruction_bare (hhead : EqualButCase op.mnemonic (String.ofList head))
    (htakes : op.takesOperand = false) :
    ofInstruction (String.ofList head) [] = .ok (.instruction (Step.bytes ⟨op, none⟩)) := by
  have hop := Opcode.ofMnemonic?_eq_some_iff.mpr (foldCase_eq_foldCase_iff.mpr hhead)
  have hstep := ofStep_eq (s := ⟨op, none⟩) nofun
  simp only [ofInstruction, hop, htakes, hstep, List.isEmpty_nil, Bool.false_eq_true, if_false, if_true]

theorem ofInstruction_operand {n : Nat} (hhead : EqualButCase op.mnemonic (String.ofList head))
    (htakes : op.takesOperand = true) (hvalue : Unsigned value n) (hn : n < 2 ^ 35) :
    ofInstruction (String.ofList head) value = .ok (.instruction (Step.bytes ⟨op, some n⟩)) := by
  have hop := Opcode.ofMnemonic?_eq_some_iff.mpr (foldCase_eq_foldCase_iff.mpr hhead)
  have hliteral : Literal.unsigned value = .ok n :=
    Literal.unsigned_eq_ok_iff.mpr ⟨hvalue, hn.trans (by decide)⟩
  have hstep : ofStep ⟨op, some n⟩ = .ok (.instruction (Step.bytes ⟨op, some n⟩)) :=
    ofStep_eq fun operand hoperand => Option.some.inj hoperand ▸ hn
  simp only [ofInstruction, hop, htakes, hliteral, hstep,
    List.isEmpty_eq_false_iff.mpr (ne_nil_of_unsigned hvalue), Bool.false_eq_true, if_false, if_true]

theorem head_ne_dot (h : EqualButCase op.mnemonic (String.ofList head)) (directive : List Char) :
    head ≠ '.' :: directive := by
  rw [← String.toList_ofList (l := head)]
  exact Opcode.toList_ne_dot (foldCase_eq_foldCase_iff.mpr h) directive

theorem head_ne_nil (h : EqualButCase op.mnemonic (String.ofList head)) : head ≠ [] := by
  rintro rfl
  have hupper := Opcode.map_toUpper_eq (foldCase_eq_foldCase_iff.mpr h)
  exact op.word_mnemonic.ne_nil hupper.symm

end Instruction

-- ---------------------------------------------------------------------------
-- Lines
-- ---------------------------------------------------------------------------

theorem ofWords_eq_ok_iff : ofWords head value = .ok item ↔ Means head value item := by
  constructor
  · intro h
    unfold ofWords at h
    split at h
    · rename_i directive
      rw [← String.toList_ofList (l := directive)]
      exact means_of_ofDirective h
    · exact means_of_ofInstruction h
  · intro h
    cases h with
    | text hmem hvalue => rw [ofWords_dot, ofDirective_text hmem hvalue]
    | const hvalue =>
      rw [ofWords_dot]
      exact ofDirective_const (Literal.signed_eq_ok_iff.mpr hvalue) (ne_nil_of_signed hvalue)
    | bare hhead htakes => rw [ofWords_of_ne_dot (head_ne_dot hhead), ofInstruction_bare hhead htakes]
    | operand hhead htakes hvalue hn =>
      rw [ofWords_of_ne_dot (head_ne_dot hhead), ofInstruction_operand hhead htakes hvalue hn]

/-- A line without content has an empty head, which no item has. -/
theorem content_ne_nil {line : List Char} (h : Splits (content line) head value)
    (hmeans : Means head value item) : content line ≠ [] := by
  intro hnil
  obtain ⟨hhead, -⟩ := h.splitWord_eq
  rw [hnil] at hhead
  cases hmeans with
  | text => cases hhead
  | const => cases hhead
  | bare hop => exact head_ne_nil hop hhead.symm
  | operand hop => exact head_ne_nil hop hhead.symm

/-- A line is read as what the grammar says that it contributes, and not at all if it says nothing. -/
theorem ofLine_eq_ok_iff {line : List Char} {item? : Option Item} :
    ofLine line = .ok item? ↔ InGrammar line item? := by
  constructor
  · intro h
    rw [ofLine_eq_ofWords (splits_content line)] at h
    split_ifs at h with hnil
    · cases h
      exact .blank hnil
    · cases hwords : ofWords (splitWord (content line)).1 (trim (splitWord (content line)).2) with
      | error cause => simp [hwords, Except.map] at h
      | ok item =>
        rw [hwords] at h
        cases h
        exact .item (splits_content line) (ofWords_eq_ok_iff.mp hwords)
  · intro h
    cases h with
    | blank hnil => rw [ofLine_eq_ofWords (splits_content line), if_pos hnil]
    | item hsplit hmeans =>
      rw [ofLine_eq_ofWords hsplit, if_neg (content_ne_nil hsplit hmeans),
        ofWords_eq_ok_iff.mpr hmeans]
      rfl

end Item

-- ---------------------------------------------------------------------------
-- Texts
-- ---------------------------------------------------------------------------

/-- Lines that are right one by one are right together. -/
theorem itemsFrom_of_forall₂ {ls : List (List Char)} {items? : List (Option Item)}
    (h : List.Forall₂ (fun line item? => Item.ofLine line = .ok item?) ls items?) (number : Nat) :
    itemsFrom number ls = .ok items?.reduceOption := by
  induction h generalizing number with
  | nil => rfl
  | @cons line item? ls items? hline _ ih =>
    simp only [itemsFrom, hline, ih]
    cases item? <;> rfl

/-- A line that is wrong is reported if those in front of it are right, whatever stands behind it. -/
theorem itemsFrom_append_of_error {before : List (List Char)}
    (h : ∀ line ∈ before, ∃ item?, Item.ofLine line = .ok item?) {line : List Char}
    {cause : LineError} (hline : Item.ofLine line = .error cause) (after : List (List Char))
    (number : Nat) :
    itemsFrom number (before ++ line :: after) = .error (.line (number + before.length) cause) := by
  induction before generalizing number with
  | nil => simp only [List.nil_append, itemsFrom, hline, List.length_nil, Nat.add_zero]
  | cons first before ih =>
    obtain ⟨⟨item?, hfirst⟩, hrest⟩ := List.forall_mem_cons.mp h
    simp only [List.cons_append, itemsFrom, hfirst, ih hrest, List.length_cons]
    rw [Nat.add_assoc, Nat.add_comm 1]

/-- What an item adds to a chunk. -/
def Item.addTo (c : Chunk Value) : Item → Chunk Value
  | .name s => { c with name := s }
  | .file s => { c with filename := s }
  | .const n => { c with consts := c.consts ++ [.int n] }
  | .global s => { c with names := c.names ++ [s] }
  | .var s => { c with varnames := c.varnames ++ [s] }
  | .instruction encoding => { c with code := c.code ++ encoding }

/-- Collecting items by kind is adding them one by one. -/
theorem chunk_eq_foldl (file : String) (items : List Item) :
    chunk file items = items.foldl Item.addTo { filename := file, startLine := 1 } := by
  induction items using List.reverseRecOn with
  | nil => rfl
  | append_singleton items item ih =>
    rw [List.foldl_append, ← ih]
    cases item <;>
      simp [chunk, Item.addTo, Item.code, Item.const?, Item.global?, Item.var?, Item.name?, Item.file?]

/--
A text all of whose lines are in the grammar is assembled as the chunk that the lines contribute to one
by one, and refused only if the stack check refuses this chunk. Any other text is refused for the first
of its lines that is not in the grammar.
-/
theorem assemble_of_grammar (source file : String) :
    (∀ items?, List.Forall₂ InGrammar (lines source.toList) items? →
      assemble source file =
        (Block.build? (items?.reduceOption.foldl Item.addTo { filename := file, startLine := 1 })
          none []).mapError .verification) ∧
    (∀ before line after, lines source.toList = before ++ line :: after →
      (∀ l ∈ before, ∃ item?, InGrammar l item?) → (¬ ∃ item?, InGrammar line item?) →
      ∃ cause, assemble source file = .error (.line (before.length + 1) cause)) := by
  constructor
  · intro items? h
    have hitems : items source.toList = .ok items?.reduceOption :=
      itemsFrom_of_forall₂ (h.imp fun _ _ => Item.ofLine_eq_ok_iff.mpr) 1
    simp only [assemble, hitems, ← chunk_eq_foldl]
    cases Block.build? (chunk file items?.reduceOption) none [] <;> rfl
  · intro before line after hlines hbefore hline
    simp only [← Item.ofLine_eq_ok_iff] at hbefore hline
    cases hread : Item.ofLine line with
    | ok item? => exact absurd ⟨item?, hread⟩ hline
    | error cause =>
      have hitems : items source.toList = .error (.line (before.length + 1) cause) := by
        rw [items, hlines, itemsFrom_append_of_error hbefore hread, Nat.add_comm]
      simp only [assemble, hitems]
      exact ⟨cause, rfl⟩

theorem assemble_of_grammar_signed_constant :
    let good := "; first\n.const -7\r\n\tload_const +0 ; the constant\nRETURN"
    let bad := "; first\nRETURN 1\n.const none"
    (List.Forall₂ InGrammar (lines good.toList)
        [none, some (.const (-7)), some (.instruction [0x40, 0x00]), some (.instruction [0x04])] ∧
      assemble good "a.hasm" = .ok
        { chunk := { code := [0x40, 0x00, 0x04], consts := [.int (-7)], filename := "a.hasm",
                     startLine := 1 }
          owner := none
          decls := [] }) ∧
    (¬ ∃ item?, InGrammar "RETURN 1".toList item?) ∧
    ∃ cause, assemble bad "a.hasm" = .error (.line 2 cause) := by
  intro good bad
  have hload : InGrammar "\tload_const +0 ; the constant".toList
      (some (.instruction [0x40, 0x00])) := by
    have hsplit := Item.splits_content "\tload_const +0 ; the constant".toList
    have hhead : (splitWord (Item.content "\tload_const +0 ; the constant".toList)).1 =
        "load_const".toList := by cbv
    have hvalue : trim (splitWord (Item.content "\tload_const +0 ; the constant".toList)).2 =
        "+0".toList := by cbv
    have hop : foldCase Opcode.loadConst.mnemonic = foldCase (String.ofList "load_const".toList) := by
      cbv
    have hoperand : Unsigned "+0".toList 0 := (Literal.unsigned_eq_ok_iff.mp (by cbv)).1
    have hbytes : Step.bytes ⟨.loadConst, some 0⟩ = [0x40, 0x00] := by cbv
    rw [hhead, hvalue] at hsplit
    rw [← hbytes]
    exact .item hsplit
      (.operand (foldCase_eq_foldCase_iff.mp hop) (by decide) hoperand (by decide))
  have hgood : List.Forall₂ InGrammar (lines good.toList)
      [none, some (.const (-7)), some (.instruction [0x40, 0x00]), some (.instruction [0x04])] := by
    have hlines : lines good.toList = ["; first".toList, ".const -7".toList,
        "\tload_const +0 ; the constant".toList, "RETURN".toList] := by cbv
    rw [hlines]
    exact .cons (Item.ofLine_eq_ok_iff.mp (by cbv)) <| .cons (Item.ofLine_eq_ok_iff.mp (by cbv)) <|
      .cons hload <| .cons (Item.ofLine_eq_ok_iff.mp (by cbv)) .nil
  have hbad : ¬ ∃ item?, InGrammar "RETURN 1".toList item? := by
    rintro ⟨item?, hline⟩
    have hread : Item.ofLine "RETURN 1".toList = .error (.unexpectedOperand .ret) := by cbv
    rw [← Item.ofLine_eq_ok_iff, hread] at hline
    cases hline
  refine ⟨⟨hgood, ?_⟩, hbad, ?_⟩
  · rw [(assemble_of_grammar good "a.hasm").1 _ hgood]
    cbv
  · refine (assemble_of_grammar bad "a.hasm").2 ["; first".toList] "RETURN 1".toList
      [".const none".toList] (by cbv) ?_ hbad
    rintro line hline
    rw [List.mem_singleton.mp hline]
    exact ⟨none, Item.ofLine_eq_ok_iff.mp (by cbv)⟩

end Assembly

end Bytecode
