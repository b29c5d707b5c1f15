-- SUMMARY: Texts that are cut and trimmed without loss, and names that differ in case only.
import Mathlib
import Bytecode.Text.Blank
import Bytecode.Text.Case
import Bytecode.Text.Lines

/-!
# Texts

A plain text fits on one line and has no blank at either end, and a word has no blank at all. Cutting
lines that fit from the text that they make up gives them back, and trimming leaves a plain text alone.
Any text that is trimmed splits in one way, into a word, blanks, and a value that is trimmed again.
Names are equal after case folding if and only if they differ in the case of ASCII letters only.
-/

namespace Bytecode

-- ---------------------------------------------------------------------------
-- Names that differ in case
-- ---------------------------------------------------------------------------

/-- The first character is an ASCII capital, the second the small letter of it. -/
def IsCapitalOf (c d : Char) : Prop := c.isUpper ∧ d.toNat = c.toNat + 32

/-- The names are of one length, and only the case of ASCII letters tells them apart. -/
def EqualButCase (s s' : String) : Prop :=
  List.Forall₂ (fun c d => c = d ∨ IsCapitalOf c d ∨ IsCapitalOf d c) s.toList s'.toList

theorem isUpper_iff {c : Char} : c.isUpper ↔ 65 ≤ c.toNat ∧ c.toNat ≤ 90 := by
  simp only [Char.isUpper, decide_eq_true_eq]
  exact Iff.rfl

theorem toNat_toLower (c : Char) :
    c.toLower.toNat = if c.isUpper then c.toNat + 32 else c.toNat := by
  split
  · rename_i h
    have hvalid : (c.toNat + 32).isValidChar := by
      have hle := (isUpper_iff.mp h).2
      exact .inl (by omega)
    rw [Char.toLower_eq_of_isUpper h, Char.toNat_ofNat, if_pos hvalid]
  · rename_i h
    rw [Char.toLower_eq_of_not_isUpper h]

theorem toLower_eq_toLower_iff {c d : Char} :
    c.toLower = d.toLower ↔ c = d ∨ IsCapitalOf c d ∨ IsCapitalOf d c := by
  simp only [IsCapitalOf, ← Char.toNat_inj, toNat_toLower, isUpper_iff]
  split <;> split <;> omega

theorem foldCase_eq_foldCase_iff {s s' : String} : foldCase s = foldCase s' ↔ EqualButCase s s' := by
  rw [← String.toList_inj, toList_foldCase, toList_foldCase, ← List.forall₂_eq_eq_eq,
    List.forall₂_map_left_iff, List.forall₂_map_right_iff, EqualButCase]
  simp only [toLower_eq_toLower_iff]

namespace Text

-- ---------------------------------------------------------------------------
-- Plain texts
-- ---------------------------------------------------------------------------

/-- A text on one line that starts and ends with other characters than blanks. -/
@[mk_iff]
structure Plain (cs : List Char) : Prop where
  ne_nil : cs ≠ []
  no_newline : '\n' ∉ cs
  front : ∀ c ∈ cs.head?, isBlank c = false
  back : ∀ c ∈ cs.getLast?, isBlank c = false

/-- A text without blanks. -/
structure Word (cs : List Char) : Prop where
  ne_nil : cs ≠ []
  no_blank : ∀ c ∈ cs, isBlank c = false

/-- The visible characters of ASCII are no blanks. -/
theorem isBlank_eq_false {c : Char} (hlow : 0x21 ≤ c.toNat) (hhigh : c.toNat ≤ 0x7e) :
    isBlank c = false := by
  simp [isBlank]
  omega

theorem Word.plain {cs : List Char} (h : Word cs) : Plain cs where
  ne_nil := h.ne_nil
  no_newline hmem := absurd (h.no_blank _ hmem) (by decide)
  front c hc := h.no_blank c (List.mem_of_mem_head? hc)
  back c hc := h.no_blank c (List.mem_of_getLast? hc)

/-- Texts that are plain make up a plain text with a space between them. -/
theorem Plain.append {cs ds : List Char} (hcs : Plain cs) (hds : Plain ds) :
    Plain (cs ++ ' ' :: ds) where
  ne_nil := by simp
  no_newline := by simp [hcs.no_newline, hds.no_newline]
  front c hc := by
    rw [List.head?_append_of_ne_nil _ hcs.ne_nil] at hc
    exact hcs.front c hc
  back c hc := by
    obtain ⟨d, ds, rfl⟩ := List.exists_cons_of_ne_nil hds.ne_nil
    rw [List.getLast?_append_of_ne_nil _ (by simp), List.getLast?_cons_cons] at hc
    exact hds.back c hc

-- ---------------------------------------------------------------------------
-- Trimming
-- ---------------------------------------------------------------------------

/-- A text without blanks at its ends. -/
structure Trimmed (cs : List Char) : Prop where
  front : ∀ c ∈ cs.head?, isBlank c = false
  back : ∀ c ∈ cs.getLast?, isBlank c = false

theorem Plain.trimmed {cs : List Char} (h : Plain cs) : Trimmed cs := ⟨h.front, h.back⟩

theorem trimmed_nil : Trimmed [] := ⟨nofun, nofun⟩

theorem trimLeft_eq_self {cs : List Char} (h : ∀ c ∈ cs.head?, isBlank c = false) :
    trimLeft cs = cs := by
  cases cs with
  | nil => rfl
  | cons c cs => exact List.dropWhile_cons_of_neg (by simp [h c rfl])

theorem trimRight_eq_self {cs : List Char} (h : ∀ c ∈ cs.getLast?, isBlank c = false) :
    trimRight cs = cs := by
  rw [← List.head?_reverse] at h
  rw [trimRight, trimLeft_eq_self h, List.reverse_reverse]

theorem Trimmed.trim_eq {cs : List Char} (h : Trimmed cs) : trim cs = cs := by
  rw [trim, trimLeft_eq_self h.front, trimRight_eq_self h.back]

theorem Plain.trim_eq {cs : List Char} (h : Plain cs) : trim cs = cs := h.trimmed.trim_eq

theorem isBlank_head?_trimLeft (cs : List Char) : ∀ c ∈ (trimLeft cs).head?, isBlank c = false := by
  intro c hc
  have hnot := List.head?_dropWhile_not isBlank cs
  rw [← trimLeft, Option.mem_def.mp hc] at hnot
  exact hnot

theorem trimRight_isPrefix (cs : List Char) : trimRight cs <+: cs := by
  rw [trimRight, ← List.reverse_suffix, List.reverse_reverse]
  exact List.dropWhile_suffix isBlank

theorem trimmed_trim (cs : List Char) : Trimmed (trim cs) where
  front c hc := by
    obtain ⟨rest, hrest⟩ := trimRight_isPrefix (trimLeft cs)
    refine isBlank_head?_trimLeft cs c ?_
    rw [← hrest]
    exact List.mem_head?_append_of_mem_head? hc
  back c hc := by
    rw [trim, trimRight, List.getLast?_reverse] at hc
    exact isBlank_head?_trimLeft _ c hc

/-- Blanks in front of a text are trimmed with it. -/
theorem trim_append {gap : List Char} (h : ∀ c ∈ gap, isBlank c = true) (cs : List Char) :
    trim (gap ++ cs) = trim cs := by
  rw [trim, trimLeft, List.dropWhile_append_of_pos h, ← trimLeft, ← trim]

-- ---------------------------------------------------------------------------
-- Splitting
-- ---------------------------------------------------------------------------

theorem splitWord_of_no_blank {cs : List Char} (h : ∀ c ∈ cs, isBlank c = false) :
    splitWord cs = (cs, []) := by
  have hall : ∀ c ∈ cs, (!isBlank c) = true := by simpa using h
  rw [splitWord, List.takeWhile_eq_self_iff.mpr hall, List.dropWhile_eq_nil_iff.mpr hall]
  rfl

theorem splitWord_append_blank {cs : List Char} (h : ∀ c ∈ cs, isBlank c = false) {c : Char}
    (hc : isBlank c = true) (rest : List Char) : splitWord (cs ++ c :: rest) = (cs, rest) := by
  have hall : ∀ c ∈ cs, (!isBlank c) = true := by simpa using h
  rw [splitWord, List.takeWhile_append_of_pos hall, List.dropWhile_append_of_pos hall]
  simp [hc]

theorem Word.splitWord_eq {cs : List Char} (h : Word cs) : splitWord cs = (cs, []) :=
  splitWord_of_no_blank h.no_blank

theorem Word.splitWord_append {cs : List Char} (h : Word cs) (rest : List Char) :
    splitWord (cs ++ ' ' :: rest) = (cs, rest) :=
  splitWord_append_blank h.no_blank (by decide) rest

/-- The text is a word, and a value behind it, with blanks between them just if there is a value. -/
structure Splits (cs head value : List Char) : Prop where
  no_blank : ∀ c ∈ head, isBlank c = false
  trimmed : Trimmed value
  exists_gap : ∃ gap, cs = head ++ gap ++ value ∧ (∀ c ∈ gap, isBlank c = true) ∧
    (gap = [] ↔ value = [])

/-- A text without blanks at its ends is split behind its first word. -/
theorem splits_splitWord {cs : List Char} (h : Trimmed cs) :
    Splits cs (splitWord cs).1 (trim (splitWord cs).2) := by
  have hhead : ∀ c ∈ cs.takeWhile (!isBlank ·), isBlank c = false := by
    intro c hc
    simpa using List.mem_takeWhile_imp hc
  have hwhole : cs.takeWhile (!isBlank ·) ++ cs.dropWhile (!isBlank ·) = cs :=
    List.takeWhile_append_dropWhile
  cases hrest : cs.dropWhile (!isBlank ·) with
  | nil =>
    rw [hrest, List.append_nil] at hwhole
    rw [hwhole] at hhead
    rw [splitWord_of_no_blank hhead]
    exact ⟨hhead, trimmed_nil, [], by simp [trim, trimRight, trimLeft]⟩
  | cons c rest =>
    have hc : isBlank c = true := by
      have hnot := List.head?_dropWhile_not (!isBlank ·) cs
      rw [hrest] at hnot
      simpa using hnot
    rw [hrest] at hwhole
    have hsplit : splitWord cs = (cs.takeWhile (!isBlank ·), rest) := by
      rw [← splitWord_append_blank hhead hc rest, hwhole]
    -- The last character is no blank, so it is not the first of the blanks behind the word.
    have hlast : ∀ d ∈ (c :: rest).getLast?, isBlank d = false := by
      intro d hd
      refine h.back d ?_
      rw [← hwhole, List.getLast?_append_of_ne_nil _ (List.cons_ne_nil c rest)]
      exact hd
    have hcut : rest.takeWhile isBlank ++ trimLeft rest = rest := List.takeWhile_append_dropWhile
    have hgap : ∀ d ∈ c :: rest.takeWhile isBlank, isBlank d = true :=
      List.forall_mem_cons.mpr ⟨hc, fun d hd => List.mem_takeWhile_imp hd⟩
    have hne : trimLeft rest ≠ [] := by
      intro hnil
      rw [hnil, List.append_nil] at hcut
      rw [← hcut] at hlast
      have hfalse := hlast _ (List.getLast?_eq_some_getLast (List.cons_ne_nil c _))
      rw [hgap _ (List.getLast_mem _)] at hfalse
      cases hfalse
    have hback : ∀ d ∈ (trimLeft rest).getLast?, isBlank d = false := by
      intro d hd
      refine hlast d ?_
      rw [← hcut, ← List.cons_append, List.getLast?_append_of_ne_nil _ hne]
      exact hd
    have hvalue : trim rest = trimLeft rest := trimRight_eq_self hback
    rw [hsplit, hvalue]
    refine ⟨hhead, ⟨isBlank_head?_trimLeft rest, hback⟩, c :: rest.takeWhile isBlank, ?_, hgap, ?_⟩
    · rw [List.append_assoc, List.cons_append, hcut, hwhole]
    · simp [hne]

/-- There is one way to split a text. -/
theorem Splits.splitWord_eq {cs head value : List Char} (h : Splits cs head value) :
    (splitWord cs).1 = head ∧ trim (splitWord cs).2 = value := by
  obtain ⟨hhead, htrimmed, gap, rfl, hblank, hgap⟩ := h
  cases gap with
  | nil =>
    rw [hgap.mp rfl, List.append_nil, List.append_nil, splitWord_of_no_blank hhead]
    exact ⟨rfl, rfl⟩
  | cons c gap =>
    obtain ⟨hc, hblank⟩ := List.forall_mem_cons.mp hblank
    rw [List.append_assoc, List.cons_append, splitWord_append_blank hhead hc,
      trim_append hblank, htrimmed.trim_eq]
    exact ⟨rfl, rfl⟩

/-- What stands behind the word is its value, but for the blanks in front. -/
theorem Splits.trimLeft_dropWhile_eq {cs head value : List Char} (h : Splits cs head value) :
    trimLeft (cs.dropWhile (!isBlank ·)) = value := by
  obtain ⟨hhead, htrimmed, gap, rfl, hblank, hgap⟩ := h
  have hall : ∀ c ∈ head, (!isBlank c) = true := by simpa using hhead
  rw [List.append_assoc, List.dropWhile_append_of_pos hall]
  cases gap with
  | nil =>
    rw [hgap.mp rfl]
    rfl
  | cons c gap =>
    have hstop : (c :: gap ++ value).dropWhile (!isBlank ·) = c :: gap ++ value :=
      List.dropWhile_cons_of_neg (by simp [hblank c List.mem_cons_self])
    rw [hstop, trimLeft, List.dropWhile_append_of_pos hblank, ← trimLeft,
      trimLeft_eq_self htrimmed.front]

/-- A text without blanks at its ends starts with a word, if it is not empty. -/
theorem Splits.eq_nil_iff {cs head value : List Char} (h : Splits cs head value)
    (htrimmed : Trimmed cs) : cs = [] ↔ head = [] := by
  obtain ⟨-, -, gap, rfl, hblank, hgap⟩ := h
  constructor
  · intro hnil
    simp only [List.append_eq_nil_iff] at hnil
    exact hnil.1.1
  · rintro rfl
    cases gap with
    | nil => rw [hgap.mp rfl]; rfl
    | cons c gap =>
      have hfront := htrimmed.front c rfl
      rw [hblank c List.mem_cons_self] at hfront
      cases hfront

-- ---------------------------------------------------------------------------
-- Lines
-- ---------------------------------------------------------------------------

/-- A character that ends no line is the first of the line that follows. -/
theorem lines_cons {c : Char} {cs : List Char} (hc : c ≠ '\n')
    (hcr : c = '\r' → cs.head? ≠ some '\n') :
    lines (c :: cs) = (c :: (lines cs).headD []) :: (lines cs).tail := by
  rw [lines]
  · cases lines cs <;> rfl
  · rintro rest rfl rfl
    exact hcr rfl rfl
  · exact hc

theorem lines_of_no_newline {line : List Char} (h : '\n' ∉ line) (hne : line ≠ []) :
    lines line = [line] := by
  induction line with
  | nil => contradiction
  | cons c cs ih =>
    obtain ⟨hc, hcs⟩ := not_or.mp (mt List.mem_cons.mpr h)
    have hhead : cs.head? ≠ some '\n' := fun hhead => hcs (List.mem_of_mem_head? hhead)
    rw [lines_cons (Ne.symm hc) fun _ => hhead]
    cases cs with
    | nil => rfl
    | cons d ds => rw [ih hcs (List.cons_ne_nil d ds)]; rfl

/-- A line feed ends a line, which keeps all its characters if no carriage return is the last. -/
theorem lines_append {line : List Char} (h : '\n' ∉ line) (hcr : line.getLast? ≠ some '\r')
    (rest : List Char) : lines (line ++ '\n' :: rest) = line :: lines rest := by
  induction line with
  | nil => rw [List.nil_append, lines]
  | cons c cs ih =>
    obtain ⟨hc, hcs⟩ := not_or.mp (mt List.mem_cons.mpr h)
    cases cs with
    | nil =>
      rw [List.singleton_append, lines_cons (Ne.symm hc) fun heq => absurd (congrArg some heq) hcr,
        lines]
      rfl
    | cons d ds =>
      have hhead : (d :: ds ++ '\n' :: rest).head? ≠ some '\n' :=
        fun hhead => hcs (List.mem_of_mem_head? hhead)
      rw [List.cons_append, lines_cons (Ne.symm hc) fun _ => hhead,
        ih hcs (by rwa [List.getLast?_cons_cons] at hcr)]
      rfl

/-- A text that is kept as it is as one of several lines. -/
structure OneLine (cs : List Char) : Prop where
  ne_nil : cs ≠ []
  no_newline : '\n' ∉ cs
  no_return : cs.getLast? ≠ some '\r'

theorem Plain.oneLine {cs : List Char} (h : Plain cs) : OneLine cs where
  ne_nil := h.ne_nil
  no_newline := h.no_newline
  no_return hlast := absurd (h.back _ hlast) (by decide)

/-- Lines are cut again from the text that they make up, with or without an end of the last. -/
theorem lines_intercalate {ls : List (List Char)} (h : ∀ line ∈ ls, OneLine line) (hne : ls ≠ [])
    {ending : List Char} (hending : ending = [] ∨ ending = ['\n']) :
    lines (['\n'].intercalate ls ++ ending) = ls := by
  induction ls with
  | nil => contradiction
  | cons line rest ih =>
    obtain ⟨hline, hrest⟩ := List.forall_mem_cons.mp h
    cases rest with
    | nil =>
      rw [List.intercalate_singleton]
      rcases hending with rfl | rfl
      · rw [List.append_nil, lines_of_no_newline hline.no_newline hline.ne_nil]
      · rw [lines_append hline.no_newline hline.no_return, lines]
    | cons next more =>
      rw [List.intercalate_cons_cons, List.append_assoc, List.append_assoc, List.singleton_append,
        lines_append hline.no_newline hline.no_return, ih hrest (List.cons_ne_nil _ _)]

/-- Lines of which a text is put together are its lines. -/
theorem lines_toList_intercalate {ls : List String} (h : ∀ line ∈ ls, OneLine line.toList) :
    lines ("\n".intercalate ls).toList = ls.map String.toList := by
  rw [String.toList_intercalate]
  cases ls with
  | nil => rfl
  | cons line rest =>
    have hcut := lines_intercalate (List.forall_mem_map.mpr h) (List.cons_ne_nil _ _) (.inl rfl)
    rw [List.append_nil] at hcut
    exact hcut

end Text

end Bytecode
