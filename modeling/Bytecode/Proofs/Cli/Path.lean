-- SUMMARY: Paths as components: what cutting at slashes, the parent and another extension make of them.
import Mathlib
import Bytecode.Cli.Path

/-!
# Components of paths

The components of a path are found by cutting its text at slashes. The parent of a path has its
components but the last, and another extension changes no component but the last.
-/

namespace Bytecode.Cli.Path

-- ---------------------------------------------------------------------------
-- Cutting at slashes
-- ---------------------------------------------------------------------------

theorem splitSlashes_eq_splitOn (cs : List Char) : splitSlashes cs = cs.splitOn '/' := by
  induction cs with
  | nil => rfl
  | cons c cs ih =>
    rw [List.splitOn_cons_eq_if_modifyHead, ← ih]
    by_cases hc : c = '/'
    · subst hc
      simp [splitSlashes]
    · cases hsplit : splitSlashes cs with
      | nil => exact absurd (ih.symm.trans hsplit) (List.splitOn_ne_nil _ _)
      | cons segment rest => simp [splitSlashes, hsplit, hc]

theorem splitSlashes_ne_nil (cs : List Char) : splitSlashes cs ≠ [] := by
  rw [splitSlashes_eq_splitOn]
  exact List.splitOn_ne_nil _ _

theorem splitSlashes_append_slash (front back : List Char) :
    splitSlashes (front ++ '/' :: back) = splitSlashes front ++ splitSlashes back := by
  simp only [splitSlashes_eq_splitOn, List.splitOn_append_cons_self]

theorem splitSlashes_of_not_mem {name : List Char} (h : '/' ∉ name) : splitSlashes name = [name] := by
  rw [splitSlashes_eq_splitOn, List.splitOn_eq_singleton h]

theorem slash_not_mem_takeWhile (cs : List Char) : '/' ∉ cs.takeWhile (· ≠ '/') := by
  intro hmem
  have hne := List.mem_takeWhile_imp hmem
  simp at hne

theorem dropWhile_eq_nil_or_cons_slash (cs : List Char) :
    cs.dropWhile (· ≠ '/') = [] ∨ ∃ rest, cs.dropWhile (· ≠ '/') = '/' :: rest := by
  cases hdrop : cs.dropWhile (· ≠ '/') with
  | nil => exact .inl rfl
  | cons c rest =>
    have hhead := List.head?_dropWhile_not (· ≠ '/') cs
    rw [hdrop] at hhead
    obtain rfl : c = '/' := by simpa using hhead
    exact .inr ⟨rest, rfl⟩

/-- Nothing, or a text that ends with a slash: what can stand in front of a name. -/
def IsFront (front : List Char) : Prop := front = [] ∨ ∃ init, front = init ++ ['/']

/-- A text is cut behind its last slash into a front and a name. -/
theorem cut_spec (backwards : List Char) :
    IsFront (backwards.dropWhile (· ≠ '/')).reverse ∧
      '/' ∉ (backwards.takeWhile (· ≠ '/')).reverse ∧
      (backwards.dropWhile (· ≠ '/')).reverse ++ (backwards.takeWhile (· ≠ '/')).reverse =
        backwards.reverse := by
  refine ⟨?_, ?_, ?_⟩
  · rcases dropWhile_eq_nil_or_cons_slash backwards with hdrop | ⟨rest, hdrop⟩
    · exact .inl (by rw [hdrop, List.reverse_nil])
    · exact .inr ⟨rest.reverse, by rw [hdrop, List.reverse_cons]⟩
  · rw [List.mem_reverse]
    exact slash_not_mem_takeWhile backwards
  · rw [← List.reverse_append, List.takeWhile_append_dropWhile]

/-- A front and a name are found again by cutting behind the last slash. -/
theorem IsFront.cut_append {front name : List Char} (h : IsFront front) (hname : '/' ∉ name) :
    ((front ++ name).reverse.dropWhile (· ≠ '/')).reverse = front ∧
      ((front ++ name).reverse.takeWhile (· ≠ '/')).reverse = name := by
  have hall : ∀ c ∈ name.reverse, decide (c ≠ '/') = true := fun c hc =>
    decide_eq_true (ne_of_mem_of_not_mem (List.mem_reverse.mp hc) hname)
  have hstop : front.reverse.takeWhile (fun c => decide (c ≠ '/')) = [] ∧
      front.reverse.dropWhile (fun c => decide (c ≠ '/')) = front.reverse := by
    rcases h with rfl | ⟨init, rfl⟩ <;> simp
  simp only [List.reverse_append, List.takeWhile_append_of_pos hall,
    List.dropWhile_append_of_pos hall, hstop, List.append_nil, List.reverse_reverse, and_self]

/-- The last segment stands behind the segments of the front. -/
theorem IsFront.exists_splitSlashes {front name : List Char} (h : IsFront front) (hname : '/' ∉ name) :
    ∃ before, splitSlashes (front ++ name) = before ++ [name] ∧
      splitSlashes front = before ++ [[]] := by
  rcases h with rfl | ⟨init, rfl⟩
  · exact ⟨[], splitSlashes_of_not_mem hname, rfl⟩
  · refine ⟨splitSlashes init, ?_, splitSlashes_append_slash init []⟩
    rw [List.append_assoc, List.singleton_append, splitSlashes_append_slash,
      splitSlashes_of_not_mem hname]

-- ---------------------------------------------------------------------------
-- Components wherever the text starts
-- ---------------------------------------------------------------------------

/-- The components of the segments of a text, wherever the text starts. -/
def componentsIn (cs : List Char) : List Component :=
  ((splitSlashes cs).map String.ofList).filterMap Component.ofSegment?

theorem componentsIn_append_slash (front back : List Char) :
    componentsIn (front ++ '/' :: back) = componentsIn front ++ componentsIn back := by
  simp [componentsIn, splitSlashes_append_slash]

@[simp] theorem componentsIn_nil : componentsIn [] = [] := rfl

theorem componentsIn_of_not_mem {segment : List Char} (h : '/' ∉ segment) :
    componentsIn segment = (Component.ofSegment? (String.ofList segment)).toList := by
  rw [componentsIn, splitSlashes_of_not_mem h, List.map_singleton]
  cases hsegment : Component.ofSegment? (String.ofList segment) <;> simp [hsegment]

theorem IsFront.componentsIn_append {front : List Char} (h : IsFront front) (back : List Char) :
    componentsIn (front ++ back) = componentsIn front ++ componentsIn back := by
  rcases h with rfl | ⟨init, rfl⟩
  · rfl
  · rw [List.append_assoc, List.singleton_append, componentsIn_append_slash, componentsIn_append_slash,
      componentsIn_nil, List.append_nil]

theorem root_not_mem_componentsIn (cs : List Char) : Component.root ∉ componentsIn cs := by
  intro hmem
  obtain ⟨segment, -, hsegment⟩ := List.mem_filterMap.mp hmem
  unfold Component.ofSegment? at hsegment
  split at hsegment
  · cases hsegment
  · split at hsegment <;> cases hsegment

/-- What is cut off the end of a text is no component. -/
theorem componentsIn_dropTail (backwards : List Char) :
    componentsIn (dropTail backwards).reverse = componentsIn backwards.reverse := by
  induction backwards using dropTail.induct with
  | case1 cs ih =>
    rw [dropTail, ih, List.reverse_cons, componentsIn_append_slash, componentsIn_nil, List.append_nil]
  | case2 cs ih =>
    have hdot : componentsIn ['.'] = [] := by decide
    rw [dropTail, ih, List.reverse_cons, List.reverse_cons, List.reverse_cons, List.append_assoc,
      List.singleton_append, componentsIn_append_slash, componentsIn_append_slash, hdot,
      componentsIn_nil]
  | case3 cs hslash hdot => rw [dropTail] <;> assumption

/-- The components of a path: the start, if it says something, and what stands behind it. -/
theorem exists_lead (p : Path) :
    ∃ lead, p.components = lead ++ componentsIn p.text.toList ∧
      if p.isAbsolute then lead = [.root] else lead = [] ∨ lead = [.current] := by
  unfold components segments componentsIn
  cases hsplit : splitSlashes p.text.toList with
  | nil => exact absurd hsplit (splitSlashes_ne_nil _)
  | cons first rest =>
    refine ⟨_, rfl, ?_⟩
    split
    · rfl
    · split
      · exact .inr rfl
      · exact .inl rfl

theorem parent_mem_components_iff {p : Path} :
    Component.parent ∈ p.components ↔ Component.parent ∈ componentsIn p.text.toList := by
  obtain ⟨lead, hcomponents, hlead⟩ := exists_lead p
  have hnot : Component.parent ∉ lead := by
    split at hlead
    · simp [hlead]
    · rcases hlead with rfl | rfl <;> simp
  rw [hcomponents, List.mem_append, or_iff_right hnot]

-- ---------------------------------------------------------------------------
-- Parents
-- ---------------------------------------------------------------------------

theorem dropTail_isSuffix (backwards : List Char) : dropTail backwards <:+ backwards := by
  induction backwards using dropTail.induct with
  | case1 cs ih =>
    rw [dropTail]
    exact ih.trans (List.suffix_cons _ _)
  | case2 cs ih =>
    rw [dropTail]
    exact ih.trans (List.suffix_cons _ _)
  | case3 cs hslash hdot =>
    rw [dropTail] <;> assumption

/-- A text of which everything is cut off is empty or starts at the root. -/
theorem getLast?_of_dropTail_eq_nil {backwards : List Char} (hne : backwards ≠ [])
    (h : dropTail backwards = []) : backwards.getLast? = some '/' := by
  induction backwards using dropTail.induct with
  | case1 cs ih =>
    rw [dropTail] at h
    cases cs with
    | nil => rfl
    | cons c cs => exact ih (List.cons_ne_nil c cs) h
  | case2 cs ih =>
    rw [dropTail] at h
    exact ih (List.cons_ne_nil _ _) h
  | case3 cs hslash hdot =>
    rw [dropTail] at h
    · exact absurd h hne
    · assumption
    · assumption

/-- What can be the last segment of a path, and is not left out as saying nothing. -/
structure IsName (name : List Char) : Prop where
  slash_not_mem : '/' ∉ name
  ne_nil : name ≠ []
  ne_dot : name ≠ ['.']

section Last

variable {p parent : Path} {front name : List Char}

/-- Nothing is cut off a text that ends in a name. -/
theorem IsName.dropTail_eq (h : IsName name) (front : List Char) :
    dropTail (front ++ name).reverse = (front ++ name).reverse := by
  obtain ⟨hslash, hne, hdot⟩ := h
  obtain ⟨init, c, rfl⟩ := (List.eq_nil_or_concat' name).resolve_left hne
  rw [← List.append_assoc, List.reverse_append, List.reverse_singleton, List.singleton_append]
  have hlast : c ≠ '/' := fun hc => hslash (by simp [hc])
  rw [dropTail]
  · rintro cs hcs
    exact hlast (List.cons_eq_cons.mp hcs).1
  · intro cs hcs
    obtain ⟨rfl, hrest⟩ := List.cons_eq_cons.mp hcs
    cases hinit : init.reverse with
    | nil => exact hdot (by simpa using hinit)
    | cons d ds =>
      rw [List.reverse_append, hinit, List.cons_append] at hrest
      have hmem : d ∈ init := by
        rw [← List.mem_reverse, hinit]
        exact List.mem_cons_self
      rw [(List.cons_eq_cons.mp hrest).1] at hmem
      exact hslash (List.mem_append_left _ hmem)

/-- A path is cut in front of its last component if this is a name. -/
theorem splitLast_of_name (htext : p.text.toList = front ++ name) (hfront : IsFront front)
    (hname : IsName name) : p.splitLast = (front, name) := by
  obtain ⟨hdrop, htake⟩ := hfront.cut_append hname.slash_not_mem
  rw [splitLast, htext, hname.dropTail_eq front]
  exact Prod.ext hdrop htake

/-- The parent has the components in front of the last one, and starts where the path starts. -/
theorem componentsIn_parent? (htext : p.text.toList = front ++ name) (hfront : IsFront front)
    (hname : IsName name) (hparent : p.parent? = some parent) (hsome : parent.text ≠ "") :
    componentsIn parent.text.toList = componentsIn front ∧ parent.isAbsolute = p.isAbsolute := by
  have hinner := componentsIn_dropTail front.reverse
  rw [List.reverse_reverse] at hinner
  have hnonempty : ¬ name.isEmpty = true := by simpa using hname.ne_nil
  simp only [parent?, splitLast_of_name htext hfront hname, if_neg hnonempty] at hparent
  split at hparent
  · -- Nothing stays of the front, so it is empty or the root.
    rename_i hnothing
    rw [hnothing, componentsIn_nil] at hinner
    obtain rfl := Option.some.inj hparent
    have hne : front ≠ [] := by
      rintro rfl
      exact hsome rfl
    have hroot := getLast?_of_dropTail_eq_nil (List.reverse_ne_nil_iff.mpr hne)
      (List.reverse_eq_nil_iff.mp hnothing)
    rw [List.getLast?_reverse] at hroot
    have hempty : ¬ front.isEmpty = true := by simpa using hne
    rw [if_neg hempty, ← hinner]
    refine ⟨by decide, ?_⟩
    rw [isAbsolute, isAbsolute, htext, List.head?_append_of_ne_nil _ hne, hroot]
    decide
  · rename_i hrest
    obtain rfl := Option.some.inj hparent
    rw [String.toList_ofList]
    refine ⟨hinner, ?_⟩
    obtain ⟨behind, hbehind⟩ := List.reverse_prefix.mpr (dropTail_isSuffix front.reverse)
    rw [List.reverse_reverse] at hbehind
    have hhead : (dropTail front.reverse).reverse.head? = p.text.toList.head? := calc
      _ = ((dropTail front.reverse).reverse ++ (behind ++ name)).head? :=
        (List.head?_append_of_ne_nil _ hrest).symm
      _ = p.text.toList.head? := by rw [← List.append_assoc, hbehind, htext]
    rw [isAbsolute, isAbsolute, String.toList_ofList, hhead]

end Last

-- ---------------------------------------------------------------------------
-- Paths that lead to no parent directory
-- ---------------------------------------------------------------------------

/-- No component leads to a parent directory, unless it is the last one. -/
def Descends (p : Path) : Prop :=
  ∃ front name, p.text.toList = front ++ name ∧ IsFront front ∧ '/' ∉ name ∧
    Component.parent ∉ componentsIn front

theorem Descends.parent_not_mem {p : Path} {front name : List Char} (h : p.Descends)
    (htext : p.text.toList = front ++ name) (hfront : IsFront front) (hname : '/' ∉ name) :
    Component.parent ∉ componentsIn front := by
  obtain ⟨front', name', htext', hfront', hname', hparent⟩ := h
  rw [← (hfront.cut_append hname).1, ← htext, htext', (hfront'.cut_append hname').1]
  exact hparent

theorem descends_of_parent_not_mem {p : Path} (h : Component.parent ∉ p.components) :
    p.Descends := by
  obtain ⟨hfront, hname, hcut⟩ := cut_spec p.text.toList.reverse
  rw [List.reverse_reverse] at hcut
  rw [parent_mem_components_iff, ← hcut, hfront.componentsIn_append, List.mem_append, not_or] at h
  exact ⟨_, _, hcut.symm, hfront, hname, h.1⟩

/-- The last component of a path stands behind its other components. -/
theorem splitLast_spec {p : Path} {front name : List Char} (h : p.splitLast = (front, name)) :
    IsFront front ∧ '/' ∉ name ∧
      componentsIn p.text.toList = componentsIn front ++ componentsIn name := by
  obtain ⟨hfront, hname, hcut⟩ := cut_spec (dropTail p.text.toList.reverse)
  have hinner := componentsIn_dropTail p.text.toList.reverse
  rw [List.reverse_reverse] at hinner
  rw [splitLast] at h
  obtain ⟨rfl, rfl⟩ := Prod.mk.inj h
  exact ⟨hfront, hname, by rw [← hinner, ← hcut, hfront.componentsIn_append]⟩

theorem mem_of_mem_stem {name : List Char} {c : Char} (h : c ∈ stem name) : c ∈ name := by
  simp only [stem] at h
  split at h
  · exact h
  · rename_i d front hdrop
    split at h
    · exact h
    · have hmem : c ∈ name.reverse.dropWhile (· ≠ '.') := by
        rw [hdrop]
        exact List.mem_cons_of_mem d (List.mem_reverse.mp h)
      exact List.mem_reverse.mp ((List.dropWhile_sublist _).mem hmem)

/-- Another extension changes the last component only. -/
theorem descends_withExtension {p : Path} {extension : String}
    (h : Component.parent ∉ p.components) (hslash : '/' ∉ extension.toList) :
    (p.withExtension extension).Descends := by
  unfold withExtension
  split
  rename_i front name hsplit
  obtain ⟨hfront, hname, hinner⟩ := splitLast_spec hsplit
  split
  · exact descends_of_parent_not_mem h
  rw [parent_mem_components_iff, hinner, List.mem_append, not_or] at h
  split
  · exact ⟨front, ['.', '.'], String.toList_ofList, hfront, by decide, h.1⟩
  · refine ⟨front, stem name ++ '.' :: extension.toList, by simp, hfront, ?_, h.1⟩
    simp only [List.mem_append, List.mem_cons, not_or]
    exact ⟨fun hmem => hname (mem_of_mem_stem hmem), by decide, hslash⟩

end Bytecode.Cli.Path
