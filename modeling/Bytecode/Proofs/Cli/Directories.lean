-- SUMMARY: Making directories and writing a file behind them: what of a file tree that changes.
import Mathlib
import Bytecode.Proofs.Cli.FileTree
import Bytecode.Proofs.Cli.Path

/-!
# Directories in the way of a file

Making directories adds them where nothing is, on the way along the components of a path. The
directories that are made for a file are therefore above it, provided that no component of its path
leads to a parent directory.
-/

namespace Bytecode.Cli.FileTree

open Cli.Path (componentsIn IsFront IsName Component)

variable {t t₁ t₂ t' : FileTree} {p : Path} {bytes : List UInt8}

-- ---------------------------------------------------------------------------
-- Files that stay
-- ---------------------------------------------------------------------------

/-- Every file stays as it is. -/
def KeepsFiles (t t' : FileTree) : Prop :=
  ∀ way bytes, t.find? way = some (.file bytes) → t'.find? way = some (.file bytes)

theorem KeepsFiles.refl (t : FileTree) : t.KeepsFiles t := fun _ _ h => h

theorem KeepsFiles.trans (h₁ : t.KeepsFiles t₁) (h₂ : t₁.KeepsFiles t₂) : t.KeepsFiles t₂ :=
  fun way bytes h => h₂ way bytes (h₁ way bytes h)

/-- Nothing changes, except that directories are new at some ways. -/
structure AddsDirectories (t t' : FileTree) (ways : List String → Prop) : Prop where
  home : t'.home = t.home
  find? : ∀ w, t'.find? w = t.find? w ∨
    t.find? w = none ∧ t'.find? w = some .directory ∧ ways w

section Adding

variable {ways ways' : List String → Prop}

theorem AddsDirectories.refl (t : FileTree) (ways : List String → Prop) : t.AddsDirectories t ways :=
  ⟨rfl, fun _ => .inl rfl⟩

theorem AddsDirectories.mono (h : t.AddsDirectories t' ways) (himp : ∀ w, ways w → ways' w) :
    t.AddsDirectories t' ways' :=
  ⟨h.home, fun w => (h.find? w).imp_right fun ⟨hnone, hnew, hw⟩ => ⟨hnone, hnew, himp w hw⟩⟩

theorem AddsDirectories.trans (h₁ : t.AddsDirectories t₁ ways) (h₂ : t₁.AddsDirectories t₂ ways) :
    t.AddsDirectories t₂ ways := by
  refine ⟨h₂.home.trans h₁.home, fun w => ?_⟩
  obtain hsame | ⟨hnone, hnew, hw⟩ := h₂.find? w
  · rw [hsame]
    exact h₁.find? w
  · obtain hsame₁ | ⟨hnone₁, -, -⟩ := h₁.find? w
    · exact .inr ⟨hsame₁ ▸ hnone, hnew, hw⟩
    · exact .inr ⟨hnone₁, hnew, hw⟩

theorem put_addsDirectories {target : List String} (htarget : target ≠ [])
    (hfree : t.find? target = none) : t.AddsDirectories (t.put target .directory) (· = target) := by
  refine ⟨rfl, fun w => ?_⟩
  rw [find?_put htarget]
  by_cases hw : target = w
  · subst hw
    exact .inr ⟨hfree, if_pos rfl, rfl⟩
  · exact .inl (if_neg hw)

theorem AddsDirectories.find?_of_some {way : List String} {node : Node}
    (h : t.AddsDirectories t' ways) (hnode : t.find? way = some node) : t'.find? way = some node := by
  obtain hsame | ⟨hnone, -, -⟩ := h.find? way
  · rw [hsame, hnode]
  · rw [hnone] at hnode
    cases hnode

theorem AddsDirectories.keepsFiles (h : t.AddsDirectories t' ways) : t.KeepsFiles t' :=
  fun _ _ => h.find?_of_some

end Adding

-- ---------------------------------------------------------------------------
-- Making directories
-- ---------------------------------------------------------------------------

/-- Where a component leads from a way on. -/
def followComponent (way : List String) : Component → List String
  | .root => []
  | .current => way
  | .parent => way.dropLast
  | .normal name => way ++ [name]

/-- The ways to which components lead, however few of them are followed. -/
def WayAlong (way : List String) (components : List Component) (w : List String) : Prop :=
  ∃ made, made <+: components ∧ made.foldl followComponent way = w

theorem wayAlong_cons {way next w : List String} {c : Component} {rest : List Component}
    (hnext : followComponent way c = next) (h : WayAlong next rest w) :
    WayAlong way (c :: rest) w := by
  subst hnext
  obtain ⟨made, hmade, hw⟩ := h
  exact ⟨c :: made, List.cons_prefix_cons.mpr ⟨rfl, hmade⟩, hw⟩

/-- Directories are made only where nothing is, on the way along the components. -/
theorem makeWay_addsDirectories {components : List Component} {way : List String}
    {result : Except FileError Unit} (h : t.makeWay way components = (result, t')) :
    t.AddsDirectories t' (WayAlong way components) := by
  induction components generalizing t way with
  | nil =>
    cases h
    exact .refl _ _
  | cons c rest ih =>
    cases c with
    | root => exact (ih h).mono fun _ => wayAlong_cons rfl
    | current => exact (ih h).mono fun _ => wayAlong_cons rfl
    | parent => exact (ih h).mono fun _ => wayAlong_cons rfl
    | normal name =>
      rw [makeWay] at h
      split at h
      · exact (ih h).mono fun _ => wayAlong_cons rfl
      · cases h
        exact .refl _ _
      · rename_i hfree
        split at h
        · cases h
          exact .refl _ _
        · have hput : t.AddsDirectories (t.put (way ++ [name]) .directory)
              (WayAlong way (.normal name :: rest)) :=
            (put_addsDirectories (by simp) hfree).mono fun w hw =>
              wayAlong_cons rfl ⟨[], List.nil_prefix, hw.symm⟩
          exact hput.trans ((ih h).mono fun _ => wayAlong_cons rfl)

-- ---------------------------------------------------------------------------
-- Components and segments
-- ---------------------------------------------------------------------------

/-- Components lead where the segments lead in which they were found. -/
theorem foldl_followComponent {segments : List String} (h : "" ∉ segments) (way : List String) :
    (segments.filterMap Component.ofSegment?).foldl followComponent way = segments.foldl follow way := by
  induction segments generalizing way with
  | nil => rfl
  | cons segment rest ih =>
    rw [List.mem_cons, not_or] at h
    rw [List.foldl_cons, ← ih h.2, List.filterMap_cons, Component.ofSegment?, follow]
    by_cases hdot : segment = "."
    · simp [hdot]
    by_cases hup : segment = ".."
    · simp [hup, followComponent]
    · simp [Ne.symm h.1, hdot, hup, followComponent]

/-- Without parent directories, all ways along the components are on the way to their end. -/
theorem WayAlong.isPrefix {components : List Component} {way w : List String}
    (h : WayAlong way components w) (hroot : .root ∉ components) (hup : .parent ∉ components) :
    w <+: components.foldl followComponent way := by
  obtain ⟨made, ⟨rest, rfl⟩, rfl⟩ := h
  rw [List.foldl_append]
  replace hroot : .root ∉ rest := fun hmem => hroot (List.mem_append_right _ hmem)
  replace hup : .parent ∉ rest := fun hmem => hup (List.mem_append_right _ hmem)
  generalize made.foldl followComponent way = w
  induction rest generalizing w with
  | nil => exact List.prefix_rfl
  | cons c rest ih =>
    rw [List.mem_cons, not_or] at hroot hup
    have hc : w <+: followComponent w c := by
      cases c with
      | root => exact absurd rfl hroot.1
      | current => exact List.prefix_rfl
      | parent => exact absurd rfl hup.1
      | normal name => exact List.prefix_append _ _
    exact hc.trans (ih hroot.2 hup.2 _)

theorem text_ne_empty_of_checkText (h : checkText p = .ok ()) : p.text ≠ "" := by
  intro hempty
  rw [checkText, if_pos hempty] at h
  cases h

section Steps

variable {text name : List Char}

/-- The steps of a path are those of its front and its last segment, if this is not empty. -/
theorem steps_of_front (htext : p.text.toList = text ++ name) (hfront : IsFront text)
    (hslash : '/' ∉ name) (hne : name ≠ []) :
    steps p = ((Path.splitSlashes text).map String.ofList).filter (· ≠ "") ++ [String.ofList name] := by
  obtain ⟨before, hsplit, hbefore⟩ := hfront.exists_splitSlashes hslash
  have hlast : p.text.toList.getLast? ≠ some '/' := by
    rw [htext, List.getLast?_append_of_ne_nil _ hne]
    exact fun h => hslash (List.mem_of_getLast? h)
  rw [steps, if_neg hlast, List.append_nil, Path.segments, htext, hsplit, hbefore, List.map_append,
    List.map_append, List.filter_append, List.filter_append]
  simp [hne]

/-- A path whose last step is no dot ends in a name. -/
theorem exists_name_of_steps (htext : p.text ≠ "") (hdot : (steps p).getLast? ≠ some ".") :
    ∃ text name, p.text.toList = text ++ name ∧ IsFront text ∧ IsName name := by
  obtain ⟨hfront, hslash, hcut⟩ := Path.cut_spec p.text.toList.reverse
  rw [List.reverse_reverse] at hcut
  generalize (p.text.toList.reverse.dropWhile (· ≠ '/')).reverse = text at hfront hcut
  generalize (p.text.toList.reverse.takeWhile (· ≠ '/')).reverse = name at hslash hcut
  have hne : name ≠ [] := by
    rintro rfl
    rw [List.append_nil] at hcut
    rcases hfront with rfl | ⟨init, rfl⟩
    · exact htext (by simpa using hcut.symm)
    · exact hdot (getLast?_steps_of_slash (by rw [← hcut, List.getLast?_concat]))
  refine ⟨text, name, hcut.symm, hfront, hslash, hne, ?_⟩
  rintro rfl
  rw [steps_of_front hcut.symm hfront hslash hne, List.getLast?_concat] at hdot
  exact hdot rfl

end Steps

/-- The last step of a path stands behind the others, which are the segments in front. -/
theorem exists_cut_of_steps {front : List String} {last : String} (htext : p.text ≠ "")
    (h : steps p = front ++ [last]) (hdot : last ≠ ".") :
    ∃ text, p.text.toList = text ++ last.toList ∧ IsFront text ∧ IsName last.toList ∧
      "" ∉ front ∧ front.filterMap Component.ofSegment? = componentsIn text := by
  have hlast : (steps p).getLast? ≠ some "." := by
    rw [h, List.getLast?_concat]
    exact fun heq => hdot (Option.some.inj heq)
  obtain ⟨text, name, hcut, hfront, hname⟩ := exists_name_of_steps htext hlast
  have hsteps := steps_of_front hcut hfront hname.slash_not_mem hname.ne_nil
  rw [h] at hsteps
  obtain ⟨rfl, hname'⟩ := List.append_inj' hsteps rfl
  obtain rfl := List.singleton_inj.mp hname'
  rw [String.toList_ofList]
  refine ⟨text, hcut, hfront, hname, by simp, ?_⟩
  -- An empty segment says nothing.
  have hempty : ∀ segment, (if decide (segment ≠ "") = true then Component.ofSegment? segment
      else none) = Component.ofSegment? segment := by
    intro segment
    by_cases hsegment : segment = "" <;> simp [hsegment, Component.ofSegment?]
  simp only [componentsIn, List.filterMap_filter, hempty]

-- ---------------------------------------------------------------------------
-- Writing behind new directories
-- ---------------------------------------------------------------------------

/-- The directory in which a path is to be written can have been made. -/
inductive MakesRoom (t : FileTree) (p : Path) : FileTree → Prop where
  | nothing : MakesRoom t p t
  | directories {parent : Path} {t₁ : FileTree} : p.parent? = some parent → parent.text ≠ "" →
      t.makeDirs parent = (.ok (), t₁) → MakesRoom t p t₁

/-- The tree has a file at a path, and nothing else has changed but that missing directories above it
have been made. -/
structure Gains (t t' : FileTree) (p : Path) (bytes : List UInt8) : Prop where
  home : t'.home = t.home
  read : t'.read p = .ok bytes
  others : ∃ way, t'.walk (t'.start p) (steps p) = .ok (way, .file bytes) ∧
    ∀ w ≠ way, t'.find? w = t.find? w ∨
      t.find? w = none ∧ t'.find? w = some .directory ∧ w <+: way

theorem makeDirs_addsDirectories {result : Except FileError Unit}
    (h : t.makeDirs p = (result, t')) :
    t.AddsDirectories t' (WayAlong (t.start p) (componentsIn p.text.toList)) := by
  unfold makeDirs at h
  split at h
  · cases h
    exact .refl _ _
  · obtain ⟨lead, hcomponents, hlead⟩ := Path.exists_lead p
    have hway : t.makeWay t.home p.components =
        t.makeWay (t.start p) (componentsIn p.text.toList) := by
      rw [hcomponents, start]
      split at hlead
      · rename_i hroot
        rw [hlead, if_pos hroot]
        rfl
      · rename_i hroot
        rw [if_neg hroot]
        rcases hlead with rfl | rfl <;> rfl
    rw [hway] at h
    exact makeWay_addsDirectories h

theorem MakesRoom.find?_of_some {way : List String} {node : Node} (h : t.MakesRoom p t₁)
    (hnode : t.find? way = some node) : t₁.find? way = some node := by
  cases h with
  | nothing => exact hnode
  | directories hparent hsome hmake => exact (makeDirs_addsDirectories hmake).find?_of_some hnode

theorem MakesRoom.keepsFiles (h : t.MakesRoom p t₁) : t.KeepsFiles t₁ := fun _ _ => h.find?_of_some

/-- The directories that are made for a file are above it. -/
theorem MakesRoom.addsDirectories {text : List Char} {last : String} (h : t.MakesRoom p t₁)
    (htext : p.text.toList = text ++ last.toList) (hfront : IsFront text)
    (hname : IsName last.toList) :
    t.AddsDirectories t₁ (WayAlong (t.start p) (componentsIn text)) := by
  cases h with
  | nothing => exact .refl _ _
  | directories hparent hsome hmake =>
    obtain ⟨hcomponents, habsolute⟩ := Path.componentsIn_parent? htext hfront hname hparent hsome
    have hadds := makeDirs_addsDirectories hmake
    rw [hcomponents, start, habsolute] at hadds
    exact hadds

/-- A file is written where its path leads, and the directories made for it are above it. -/
theorem MakesRoom.gains (h : t.MakesRoom p t₁) (hwrite : t₁.write p bytes = .ok t')
    (hdescends : p.Descends) : t.Gains t' p bytes := by
  obtain ⟨hcheck, front, last, way, hsteps, hwalk, hlast, hfree, ht'⟩ := exists_of_write hwrite
  obtain ⟨text, htext, hfront, hname, hempty, hcomponents⟩ :=
    exists_cut_of_steps (text_ne_empty_of_checkText hcheck) hsteps hlast.1
  have hadds := h.addsDirectories htext hfront hname
  have hstart : t₁.start p = t.start p := by rw [start, hadds.home, start]
  have hway : way = (componentsIn text).foldl followComponent (t.start p) := calc
    way = front.foldl follow (t₁.start p) := eq_foldl_of_walk hwalk
    _ = _ := by rw [← foldl_followComponent hempty, hcomponents, hstart]
  have habove : ∀ w, WayAlong (t.start p) (componentsIn text) w → w <+: way := by
    intro w hw
    rw [hway]
    exact hw.isPrefix (Path.root_not_mem_componentsIn text)
      (hdescends.parent_not_mem htext hfront hname.slash_not_mem)
  subst ht'
  refine ⟨hadds.home, read_write hwrite, way ++ [last], walk_written hsteps hwalk hlast hfree, ?_⟩
  intro w hw
  rw [find?_put (by simp), if_neg (Ne.symm hw)]
  exact (hadds.find? w).imp_right fun ⟨hnone, hnew, hw⟩ =>
    ⟨hnone, hnew, (habove w hw).trans (List.prefix_append _ _)⟩

end Bytecode.Cli.FileTree
