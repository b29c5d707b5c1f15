-- SUMMARY: Which paths are refused: exactly those with a segment of two dots, wherever it stands.
import Mathlib
import Bytecode.Cli.Arguments
import Bytecode.Cli.Components
import Bytecode.Proofs.Cli.Path

/-!
# Refused paths

The components that are handed out one by one are those of the whole path, so the check in one pass and
the check of all components agree. Both refuse a path if one of its segments is two dots. Where this
segment stands, and what stands around it, does not matter.
-/

namespace Bytecode.Cli.Path

-- ---------------------------------------------------------------------------
-- First segments
-- ---------------------------------------------------------------------------

theorem slash_not_mem_firstSegment (text : List Char) : '/' ∉ firstSegment text :=
  slash_not_mem_takeWhile text

/-- A text has a single segment, or a slash follows the first one. -/
theorem firstSegment_eq_or_append_eq (text : List Char) :
    firstSegment text = text ∧ behindFirst text = [] ∨
      firstSegment text ++ '/' :: behindFirst text = text := by
  have hcut := List.takeWhile_append_dropWhile (p := (· ≠ '/')) (l := text)
  rcases dropWhile_eq_nil_or_cons_slash text with hdrop | ⟨rest, hdrop⟩
  · rw [hdrop, List.append_nil] at hcut
    exact .inl ⟨hcut, by rw [behindFirst, hdrop, List.tail_nil]⟩
  · rw [hdrop] at hcut
    exact .inr (by rw [behindFirst, hdrop, List.tail_cons, firstSegment, hcut])

theorem exists_splitSlashes_eq (text : List Char) :
    ∃ others, splitSlashes text = firstSegment text :: others := by
  have hfirst := splitSlashes_of_not_mem (slash_not_mem_firstSegment text)
  rcases firstSegment_eq_or_append_eq text with ⟨hwhole, -⟩ | hcut
  · exact ⟨[], by rw [← hfirst, hwhole]⟩
  · refine ⟨splitSlashes (behindFirst text), ?_⟩
    rw [← List.singleton_append, ← hfirst, ← splitSlashes_append_slash, hcut]

/-- The components of a text are that of its first segment, if it has one, and those behind it. -/
theorem componentsIn_eq_append (text : List Char) :
    componentsIn text =
      (Component.ofSegment? (String.ofList (firstSegment text))).toList ++
        componentsIn (behindFirst text) := by
  rw [← componentsIn_of_not_mem (slash_not_mem_firstSegment text)]
  rcases firstSegment_eq_or_append_eq text with ⟨hwhole, hnothing⟩ | hcut
  · rw [hwhole, hnothing, componentsIn_nil, List.append_nil]
  · rw [← componentsIn_append_slash, hcut]

theorem componentsIn_eq_next (text : List Char) :
    componentsIn text =
      (nextInside? text).elim [] fun (component, rest) => component :: componentsIn rest := by
  fun_induction nextInside? text with
  | case1 => rfl
  | case2 text hne component hsegment =>
    rw [componentsIn_eq_append, hsegment]
    rfl
  | case3 text hne hsegment ih =>
    rw [componentsIn_eq_append, hsegment, ih]
    rfl

-- ---------------------------------------------------------------------------
-- Components one by one
-- ---------------------------------------------------------------------------

theorem components_ofList (text : List Char) :
    components ⟨String.ofList text⟩ =
      (if text.head? = some '/' then [.root]
        else if firstSegment text = ['.'] then [.current] else []) ++ componentsIn text := by
  obtain ⟨others, hsplit⟩ := exists_splitSlashes_eq text
  have hdot : String.ofList (firstSegment text) = "." ↔ firstSegment text = ['.'] :=
    @String.ofList_inj _ ['.']
  simp only [components, Path.segments, isAbsolute, componentsIn, String.toList_ofList, hsplit,
    List.map_cons, decide_eq_true_iff, hdot]

theorem componentsIn_slash (rest : List Char) : componentsIn ('/' :: rest) = componentsIn rest :=
  componentsIn_append_slash [] rest

theorem componentsIn_dot_slash (rest : List Char) :
    componentsIn ('.' :: '/' :: rest) = componentsIn ('/' :: rest) := by
  have hdot : componentsIn ['.'] = [] := by decide
  have hcut : componentsIn (['.'] ++ '/' :: rest) = componentsIn ['.'] ++ componentsIn rest :=
    componentsIn_append_slash ['.'] rest
  rw [hdot, List.nil_append, ← componentsIn_slash] at hcut
  exact hcut

namespace Remainder

/-- The components that have not been handed out. -/
def components (r : Remainder) : List Component :=
  if r.begun then componentsIn r.text else Path.components ⟨String.ofList r.text⟩

theorem components_of_not_begun {r : Remainder} (h : r.begun = false) :
    r.components =
      (if r.text.head? = some '/' then [.root]
        else if firstSegment r.text = ['.'] then [.current] else []) ++
        componentsIn r.text := by
  rw [components, h, ← components_ofList]
  rfl

/-- Where neither a root nor a dot is left in front, the components are those of the segments. -/
theorem components_of_no_lead {r : Remainder}
    (hroot : ∀ rest, r.begun = false → r.text ≠ '/' :: rest)
    (hdot : r.begun = false → r.text ≠ ['.'])
    (hdots : ∀ rest, r.begun = false → r.text ≠ '.' :: '/' :: rest) :
    r.components = componentsIn r.text := by
  cases hbegun : r.begun with
  | true => rw [components, if_pos hbegun]
  | false =>
    have hhead : r.text.head? ≠ some '/' := by
      intro hhead
      obtain ⟨rest, hrest⟩ := List.head?_eq_some_iff.mp hhead
      exact hroot rest hbegun hrest
    have hfirst : firstSegment r.text ≠ ['.'] := by
      intro hfirst
      rcases firstSegment_eq_or_append_eq r.text with ⟨hwhole, -⟩ | hcut
      · exact hdot hbegun (hwhole.symm.trans hfirst)
      · rw [hfirst] at hcut
        exact hdots _ hbegun hcut.symm
    rw [components_of_not_begun hbegun, if_neg hhead, if_neg hfirst, List.nil_append]

/-- A step hands out the first of the components that are left, or ends where there are none. -/
theorem components_eq_next (r : Remainder) :
    r.components = r.next?.elim [] fun (component, r') => component :: r'.components := by
  -- In front there is a root, a dot and nothing else, a dot and a slash, or none of these.
  fun_cases next? r with
  | case1 rest htext hbegun =>
    rw [components_of_not_begun hbegun, htext, componentsIn_slash]
    rfl
  | case2 htext hbegun =>
    rw [components_of_not_begun hbegun, htext]
    decide
  | case3 rest htext hbegun =>
    rw [components_of_not_begun hbegun, htext, componentsIn_dot_slash]
    simp [components, firstSegment]
  | case4 hroot hdot hdots =>
    rw [components_of_no_lead hroot hdot hdots, componentsIn_eq_next, Option.elim_map]
    rfl

theorem check_eq (r : Remainder) :
    r.check = if Component.parent ∈ r.components then .error parentRefused else .ok () := by
  -- Every component that is passed is no parent, so the ones behind it decide.
  fun_induction check r with
  | case1 r hnext =>
    rw [components_eq_next, hnext]
    rfl
  | case2 r rest hnext =>
    rw [components_eq_next, hnext]
    exact (if_pos List.mem_cons_self).symm
  | case3 r component rest hnext hparent ih =>
    rw [ih, components_eq_next r, hnext]
    simp [Ne.symm hparent]

end Remainder

theorem sanitizeInOnePass_eq (text : String) : sanitizeInOnePass text = sanitize text := by
  have hcomponents : Remainder.components { text := text.toList } = components ⟨text⟩ := by
    rw [Remainder.components, if_neg Bool.false_ne_true, String.ofList_toList]
  rw [sanitizeInOnePass, Remainder.check_eq, hcomponents, sanitize]
  split_ifs <;> rfl

-- ---------------------------------------------------------------------------
-- Segments of two dots
-- ---------------------------------------------------------------------------

theorem Component.ofSegment?_eq_parent_iff {segment : String} :
    Component.ofSegment? segment = some .parent ↔ segment = ".." := by
  unfold Component.ofSegment?
  split_ifs with hnothing hdots
  · rcases hnothing with rfl | rfl <;> decide
  · simp [hdots]
  · simp [hdots]

theorem parent_mem_componentsIn_iff {text : List Char} :
    Component.parent ∈ componentsIn text ↔ "..".toList ∈ text.splitOn '/' := by
  simp only [componentsIn, splitSlashes_eq_splitOn, List.mem_filterMap, List.mem_map,
    Component.ofSegment?_eq_parent_iff]
  constructor
  · rintro ⟨_, ⟨segment, hmem, rfl⟩, hdots⟩
    rwa [← hdots, String.toList_ofList]
  · exact fun hmem => ⟨"..", ⟨_, hmem, String.ofList_toList⟩, rfl⟩

theorem parent_mem_componentsIn_of_not_mem {segment : String} (h : '/' ∉ segment.toList) :
    Component.parent ∈ componentsIn segment.toList ↔ segment = ".." := by
  rw [componentsIn_of_not_mem h, String.ofList_toList, Option.mem_toList,
    Component.ofSegment?_eq_parent_iff]

theorem sanitize_eq (text : String) :
    sanitize text =
      if "..".toList ∈ text.toList.splitOn '/' then .error parentRefused else .ok ⟨text⟩ := by
  simp only [sanitize, parent_mem_components_iff, parent_mem_componentsIn_iff]

theorem sanitize_eq_error_iff {text : String} :
    sanitize text = .error parentRefused ↔ Component.parent ∈ componentsIn text.toList := by
  rw [sanitize, ← parent_mem_components_iff (p := ⟨text⟩)]
  split_ifs with hparent <;> simp [hparent]

/-- The components of texts with slashes between them are the components of these texts. -/
theorem componentsIn_intercalate (texts : List String) :
    componentsIn ("/".intercalate texts).toList =
      texts.flatMap fun text => componentsIn text.toList := by
  induction texts with
  | nil => rfl
  | cons text rest ih =>
    cases rest with
    | nil => simp
    | cons next rest =>
      rw [String.intercalate_cons_cons, String.toList_append, String.toList_append,
        List.flatMap_cons, ← ih, List.append_assoc]
      exact componentsIn_append_slash _ _

/--
A path is accepted as it was given, unless one of its segments is two dots; the check in one pass and the
command line do the same. So it is refused with two dots anywhere between its slashes, and no other
segment matters, whatever dots it has.
-/
theorem sanitize_exact :
    (∀ text : String,
      sanitize text =
        (if "..".toList ∈ text.toList.splitOn '/' then .error parentRefused else .ok ⟨text⟩) ∧
      sanitizeInOnePass text = sanitize text ∧
      Given.checkPath text =
        if "..".toList ∈ text.toList.splitOn '/' then .error .refusedPath else .ok ⟨text⟩) ∧
    ∀ (before after : List String) (segment : String), '/' ∉ segment.toList →
      (sanitize ("/".intercalate (before ++ segment :: after)) = .error parentRefused ↔
        segment = ".." ∨ sanitize ("/".intercalate (before ++ after)) = .error parentRefused) := by
  refine ⟨fun text => ⟨sanitize_eq text, sanitizeInOnePass_eq text, ?_⟩,
    fun before after segment hslash => ?_⟩
  · rw [Given.checkPath, sanitize_eq]
    split_ifs <;> rfl
  · simp only [sanitize_eq_error_iff, componentsIn_intercalate, List.flatMap_append, List.flatMap_cons,
      List.mem_append, parent_mem_componentsIn_of_not_mem hslash]
    exact or_left_comm

theorem sanitize_exact_dotted :
    '/' ∉ "..a".toList ∧ sanitize "/.//..a/../" = .error parentRefused ∧
      sanitize "/.//..a/.../" = .ok ⟨"/.//..a/.../"⟩ := by
  have hslash : '/' ∉ "..a".toList := by decide
  obtain ⟨hwhole, hsegment⟩ := sanitize_exact
  have hjoined : "/".intercalate (["", ".", ""] ++ "..a" :: ["..", ""]) = "/.//..a/../" := by decide
  have hothers : sanitize ("/".intercalate (["", ".", ""] ++ ["..", ""])) = .error parentRefused :=
    (hsegment ["", ".", ""] [""] ".." (by decide)).mpr (.inl rfl)
  refine ⟨hslash, ?_, ?_⟩
  · rw [← hjoined, hsegment _ _ _ hslash]
    exact .inr hothers
  · rw [(hwhole _).1, if_neg (by decide)]

end Bytecode.Cli.Path
