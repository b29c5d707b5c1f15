-- SUMMARY: The lines of directives and instructions, and the items that they are read as.
import Bytecode.Assembly.Item
import Bytecode.Proofs.Assembly.Literal
import Bytecode.Proofs.SameSteps
import Bytecode.Proofs.Text

/-!
# Lines and items

A line is read by the head and the value that its content splits into. A text without a semicolon and
without blanks at its ends is left uncut, as a line and as the value of a directive. A mnemonic is one
word of capitals and underscores, and names one opcode. So the text of an instruction spells the bytes
of this instruction, and the line of a directive with an uncut value spells this value.
-/

namespace Bytecode

open Text

-- ---------------------------------------------------------------------------
-- Mnemonics
-- ---------------------------------------------------------------------------

namespace Opcode

theorem mnemonic_ne_empty (op : Opcode) : op.mnemonic ≠ "" := by
  cases op <;> simp [mnemonic, row]

theorem eq_underscore_or_isUpper (op : Opcode) :
    ∀ c ∈ op.mnemonic.toList, c = '_' ∨ c.isUpper := by
  cases op <;> simp [mnemonic, row]

theorem mnemonic_injective : Function.Injective mnemonic := by
  intro op op' h
  have hnodup : (all.map mnemonic).Nodup := by simp [all, mnemonic, row]
  exact List.inj_on_of_nodup_map hnodup op.mem_all op'.mem_all h

theorem map_toUpper_mnemonic (op : Opcode) :
    op.mnemonic.toList.map Char.toUpper = op.mnemonic.toList := by
  refine (List.map_congr_left fun c hc => ?_).trans (List.map_id _)
  apply Char.toUpper_eq_of_not_isLower
  rcases op.eq_underscore_or_isUpper c hc with rfl | hupper
  · decide
  · exact Char.not_isLower_of_isUpper hupper

/-- A name that is a mnemonic but for the case is this mnemonic in capitals. -/
theorem map_toUpper_eq {op : Opcode} {name : String} (h : foldCase op.mnemonic = foldCase name) :
    name.toList.map Char.toUpper = op.mnemonic.toList := by
  have hlower : op.mnemonic.toList.map Char.toLower = name.toList.map Char.toLower := by
    rw [← toList_foldCase, ← toList_foldCase, h]
  have hupper := congrArg (List.map Char.toUpper) hlower
  simp only [List.map_map, Function.comp_def, Char.toUpper_toLower_eq_toUpper] at hupper
  rw [← hupper, map_toUpper_mnemonic]

theorem eq_of_foldCase_mnemonic_eq {op op' : Opcode}
    (h : foldCase op.mnemonic = foldCase op'.mnemonic) : op = op' := by
  apply mnemonic_injective
  rw [← String.toList_inj, ← map_toUpper_eq h, map_toUpper_mnemonic]

/-- A name means an opcode if it is its mnemonic but for the case. -/
theorem ofMnemonic?_eq_some_iff {name : String} {op : Opcode} :
    ofMnemonic? name = some op ↔ foldCase op.mnemonic = foldCase name := by
  constructor
  · intro h
    simpa using List.find?_some h
  · intro h
    cases hfind : ofMnemonic? name with
    | none => exact absurd h (by simpa using List.find?_eq_none.mp hfind op op.mem_all)
    | some op' =>
      have hfold : foldCase op'.mnemonic = foldCase name := by simpa using List.find?_some hfind
      rw [eq_of_foldCase_mnemonic_eq (hfold.trans h.symm)]

theorem ofMnemonic?_mnemonic (op : Opcode) : ofMnemonic? op.mnemonic = some op :=
  ofMnemonic?_eq_some_iff.mpr rfl

theorem word_mnemonic (op : Opcode) : Word op.mnemonic.toList where
  ne_nil := by simpa using op.mnemonic_ne_empty
  no_blank c hc := by
    rcases op.eq_underscore_or_isUpper c hc with rfl | hupper
    · decide
    · obtain ⟨hlow, hhigh⟩ := isUpper_iff.mp hupper
      exact isBlank_eq_false (by omega) (by omega)

theorem not_mem_mnemonic {c : Char} (op : Opcode) (hc : c ≠ '_') (hupper : ¬ c.isUpper) :
    c ∉ op.mnemonic.toList := fun hmem =>
  (op.eq_underscore_or_isUpper c hmem).elim hc hupper

/-- No name of an opcode starts with a dot. -/
theorem toList_ne_dot {op : Opcode} {name : String} (h : foldCase op.mnemonic = foldCase name)
    (cs : List Char) : name.toList ≠ '.' :: cs := by
  intro hname
  have hupper := map_toUpper_eq h
  rw [hname, List.map_cons] at hupper
  have hdot : '.'.toUpper ∈ op.mnemonic.toList := hupper ▸ List.mem_cons_self
  exact op.not_mem_mnemonic (by decide) (by decide) hdot

end Opcode

namespace Assembly

-- ---------------------------------------------------------------------------
-- Uncut texts
-- ---------------------------------------------------------------------------

/-- The text stays as it is where comments and the blanks around texts are cut off. -/
@[mk_iff]
structure Uncut (s : String) : Prop where
  plain : Plain s.toList
  no_comment : ';' ∉ s.toList

theorem toList_append_space (s s' : String) :
    (s ++ " " ++ s').toList = s.toList ++ ' ' :: s'.toList := by
  simp

theorem Uncut.append {s s' : String} (h : Uncut s) (h' : Uncut s') : Uncut (s ++ " " ++ s') where
  plain := toList_append_space s s' ▸ h.plain.append h'.plain
  no_comment := by simp [h.no_comment, h'.no_comment]

theorem uncut_mnemonic (op : Opcode) : Uncut op.mnemonic where
  plain := op.word_mnemonic.plain
  no_comment := op.not_mem_mnemonic (by decide) (by decide)

theorem eq_minus_or_isDigit {n : Int} {c : Char} (h : c ∈ (toString n).toList) :
    c = '-' ∨ c.isDigit := by
  cases n with
  | ofNat n =>
    rw [Literal.toList_toString_ofNat] at h
    exact .inr (Literal.isDigit_of_mem_toDigits h)
  | negSucc n =>
    rw [Literal.toList_toString_negSucc, List.mem_cons] at h
    exact h.imp_right Literal.isDigit_of_mem_toDigits

theorem word_toString (n : Int) : Word (toString n).toList where
  ne_nil := by
    cases n with
    | ofNat n => exact Literal.toList_toString_ofNat n ▸ Nat.toDigits_ne_nil
    | negSucc n => exact Literal.toList_toString_negSucc n ▸ List.cons_ne_nil _ _
  no_blank c hc := by
    rcases eq_minus_or_isDigit hc with rfl | hdigit
    · decide
    · have hlow : 48 ≤ c.toNat := (Char.isDigit_iff_toNat.mp hdigit).1
      have hhigh : c.toNat ≤ 57 := (Char.isDigit_iff_toNat.mp hdigit).2
      exact isBlank_eq_false (by omega) (by omega)

theorem uncut_toString_int (n : Int) : Uncut (toString n) where
  plain := (word_toString n).plain
  no_comment hmem := (eq_minus_or_isDigit hmem).elim (by decide) (by decide)

theorem uncut_toString_nat (n : Nat) : Uncut (toString n) := uncut_toString_int (Int.ofNat n)

-- ---------------------------------------------------------------------------
-- Lines
-- ---------------------------------------------------------------------------

/-- The line of a directive. -/
def directiveLine (directive value : String) : String := "." ++ directive ++ " " ++ value

section Directive

variable {directive value : String}

theorem word_dot_append (h : ∀ c ∈ directive.toList, c.isLower) :
    Word ("." ++ directive).toList where
  ne_nil := by simp
  no_blank c hc := by
    rw [String.toList_append, List.mem_append] at hc
    rcases hc with hdot | hname
    · rw [List.mem_singleton.mp hdot]
      decide
    · have hlower : 97 ≤ c.toNat ∧ c.toNat ≤ 122 := by
        simpa [Char.isLower, UInt32.le_iff_toNat_le] using h c hname
      exact isBlank_eq_false (by omega) (by omega)

theorem uncut_directiveLine (h : ∀ c ∈ directive.toList, c.isLower) (hvalue : Uncut value) :
    Uncut (directiveLine directive value) := by
  have hname : ';' ∉ directive.toList := fun hmem => absurd (h _ hmem) (by decide)
  have hhead : Uncut ("." ++ directive) := ⟨(word_dot_append h).plain, by simp [hname]⟩
  exact hhead.append hvalue

theorem splitWord_directiveLine (h : ∀ c ∈ directive.toList, c.isLower) (value : String) :
    splitWord (directiveLine directive value).toList = ('.' :: directive.toList, value.toList) := by
  have hhead : ("." ++ directive).toList = '.' :: directive.toList := by simp
  rw [directiveLine, toList_append_space, (word_dot_append h).splitWord_append, hhead]

end Directive

/-- The text behind the mnemonic of an instruction. -/
def operandText (i : Instruction) : String := i.operand.elim "" fun operand => toString operand

section Text

variable {i : Instruction}

theorem text_of_operand_eq_none (h : i.operand = none) : i.text = i.opcode.mnemonic := by
  simp only [Instruction.text, h]

theorem text_of_operand_eq_some {operand : Nat} (h : i.operand = some operand) :
    i.text = i.opcode.mnemonic ++ " " ++ toString operand := by
  simp only [Instruction.text, h]
  rfl

theorem uncut_text (i : Instruction) : Uncut i.text := by
  cases h : i.operand with
  | none => exact text_of_operand_eq_none h ▸ uncut_mnemonic i.opcode
  | some operand =>
    exact text_of_operand_eq_some h ▸ (uncut_mnemonic i.opcode).append (uncut_toString_nat operand)

theorem splitWord_text (i : Instruction) :
    splitWord i.text.toList = (i.opcode.mnemonic.toList, (operandText i).toList) := by
  rw [operandText]
  cases h : i.operand with
  | none =>
    rw [text_of_operand_eq_none h, i.opcode.word_mnemonic.splitWord_eq]
    rfl
  | some operand =>
    rw [text_of_operand_eq_some h, toList_append_space, i.opcode.word_mnemonic.splitWord_append]
    rfl

end Text

-- ---------------------------------------------------------------------------
-- Heads and values
-- ---------------------------------------------------------------------------

namespace Item

/-- The item of a head and a value. -/
def ofWords (head value : List Char) : Except LineError Item :=
  match head with
  | '.' :: directive => ofDirective (String.ofList directive) value
  | _ => ofInstruction (String.ofList head) value

theorem ofWords_dot (directive : String) (value : List Char) :
    ofWords ('.' :: directive.toList) value = ofDirective directive value := by
  rw [ofWords, String.ofList_toList]

theorem ofWords_of_ne_dot {head : List Char} (h : ∀ directive, head ≠ '.' :: directive)
    (value : List Char) : ofWords head value = ofInstruction (String.ofList head) value := by
  unfold ofWords
  split
  · exact absurd rfl (h _)
  · rfl

theorem ofLine_eq_ofWords {line head value : List Char} (h : Splits (content line) head value) :
    ofLine line = if content line = [] then .ok none else (ofWords head value).map some := by
  obtain ⟨hhead, hvalue⟩ := h.splitWord_eq
  unfold ofLine
  cases hcontent : content line with
  | nil => rfl
  | cons c cs =>
    rw [hcontent] at hhead hvalue
    simp only [List.isEmpty_cons, hhead, hvalue, reduceCtorEq, Bool.false_eq_true, if_false]
    split
    · rfl
    · rename_i hdot
      rw [ofWords_of_ne_dot hdot]

theorem splits_content (line : List Char) :
    Splits (content line) (splitWord (content line)).1 (trim (splitWord (content line)).2) :=
  splits_splitWord (trimmed_trim _)

end Item

-- ---------------------------------------------------------------------------
-- Items of lines
-- ---------------------------------------------------------------------------

/-- The line is left uncut, and is read as the item. -/
structure Spells (line : String) (item : Item) : Prop where
  uncut : Uncut line
  ofLine_eq : Item.ofLine line.toList = .ok (some item)

theorem Uncut.content_eq {line : String} (h : Uncut line) : Item.content line.toList = line.toList := by
  have hall : ∀ c ∈ line.toList, decide (c ≠ ';') = true := fun c hc =>
    decide_eq_true fun heq => h.no_comment (heq ▸ hc)
  rw [Item.content, List.takeWhile_eq_self_iff.mpr hall, h.plain.trim_eq]

theorem Uncut.ofLine_eq {line : String} (h : Uncut line) :
    Item.ofLine line.toList =
      (Item.ofWords (splitWord line.toList).1 (trim (splitWord line.toList).2)).map some := by
  rw [Item.ofLine_eq_ofWords (Item.splits_content line.toList), h.content_eq, if_neg h.plain.ne_nil]

/-- A directive spells an item if its value does. -/
theorem spells_directiveLine {directive value : String} {item : Item}
    (h : ∀ c ∈ directive.toList, c.isLower) (hvalue : Uncut value)
    (hitem : Item.ofDirective directive value.toList = .ok item) :
    Spells (directiveLine directive value) item where
  uncut := uncut_directiveLine h hvalue
  ofLine_eq := by
    rw [(uncut_directiveLine h hvalue).ofLine_eq, splitWord_directiveLine h, hvalue.plain.trim_eq,
      Item.ofWords_dot, hitem]
    rfl

/-- A directive that takes any text spells the item of an uncut text. -/
theorem spells_uncut {directive value : String} {make : String → Item}
    (h : ∀ c ∈ directive.toList, c.isLower) (hvalue : Uncut value)
    (hmake : ∀ cs ≠ [], Item.ofDirective directive cs = .ok (make (String.ofList cs))) :
    Spells (directiveLine directive value) (make value) := by
  refine spells_directiveLine h hvalue ?_
  rw [hmake _ hvalue.plain.ne_nil, String.ofList_toList]

theorem ofDirective_const {value : List Char} {n : Int64} (h : Literal.signed value = .ok n)
    (hne : value ≠ []) : Item.ofDirective "const" value = .ok (.const n) := by
  simp [Item.ofDirective, h, hne]

theorem spells_const (n : Int64) : Spells (directiveLine "const" (toString n.toInt)) (.const n) :=
  spells_directiveLine (by simp) (uncut_toString_int n.toInt)
    (ofDirective_const (Literal.signed_toString n) (word_toString n.toInt).ne_nil)

theorem ofStep_eq {s : Step} (h : s.Fits) : Item.ofStep s = .ok (.instruction s.bytes) := by
  simp only [Item.ofStep, Step.encode_eq h]

/-- The operand of an instruction is read back from its text. -/
theorem ofInstruction_text {i : Instruction} (hwf : i.step.WellFormed) (hfits : i.step.Fits) :
    Item.ofInstruction i.opcode.mnemonic (trim (operandText i).toList) =
      .ok (.instruction i.step.bytes) := by
  rw [operandText]
  have htakes : i.opcode.takesOperand = i.operand.isSome := hwf.symm
  cases h : i.operand with
  | none =>
    have hstep : i.step = { opcode := i.opcode } := by rw [Instruction.step, h]
    have htrim : trim [] = [] := rfl
    simp only [Option.elim_none, String.toList_empty, htrim, Item.ofInstruction,
      Opcode.ofMnemonic?_mnemonic, htakes, h, ← hstep, ofStep_eq hfits]
    rfl
  | some operand =>
    have hstep : i.step = { opcode := i.opcode, operand := some operand } := by
      rw [Instruction.step, h]
    have hdigits := (uncut_toString_nat operand).plain
    have hvalue : operand < 2 ^ 64 := (hfits operand h).trans (by decide)
    simp only [Option.elim_some, hdigits.trim_eq, Item.ofInstruction, Opcode.ofMnemonic?_mnemonic,
      htakes, h, Option.isSome_some, List.isEmpty_eq_false_iff.mpr hdigits.ne_nil,
      Literal.unsigned_toString hvalue, ← hstep, ofStep_eq hfits]
    rfl

/-- The text of an instruction spells the bytes of the instruction. -/
theorem spells_text {i : Instruction} (hwf : i.step.WellFormed) (hfits : i.step.Fits) :
    Spells i.text (.instruction i.step.bytes) where
  uncut := uncut_text i
  ofLine_eq := by
    rw [(uncut_text i).ofLine_eq, splitWord_text, Item.ofWords_of_ne_dot (Opcode.toList_ne_dot rfl),
      String.ofList_toList, ofInstruction_text hwf hfits]
    rfl

end Assembly

end Bytecode
