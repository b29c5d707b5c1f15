-- SUMMARY: Paths that differ in the extension of their last name, and the files that they lead to.
import Bytecode.Proofs.Cli.Directories

/-!
# Names and extensions

An extension is what stands behind the last dot of a name, if something stands in front of that dot. A
path gets another one there, and otherwise behind its whole name. Two paths that differ in their last
names only lead to files in one directory, so that writing one of them leaves the other as it was.
-/

namespace Bytecode.Cli

-- ---------------------------------------------------------------------------
-- Extensions
-- ---------------------------------------------------------------------------

namespace Path

section Stem

variable {name front extension : List Char}

theorem stem_ne_nil (h : name ≠ []) : stem name ≠ [] := by
  simp only [stem]
  split
  · exact h
  · split
    · exact h
    · rename_i hfront
      simpa using hfront

theorem stem_append (hfront : front ≠ []) (hextension : '.' ∉ extension) :
    stem (front ++ '.' :: extension) = front := by
  have hall : ∀ c ∈ extension.reverse, decide (c ≠ '.') = true := fun c hc =>
    decide_eq_true (ne_of_mem_of_not_mem (List.mem_reverse.mp hc) hextension)
  have hdrop : (front ++ '.' :: extension).reverse.dropWhile (· ≠ '.') = '.' :: front.reverse := by
    rw [List.reverse_append, List.reverse_cons, List.append_assoc, List.dropWhile_append_of_pos hall]
    rfl
  have hrest : ¬ front.reverse.isEmpty = true := by simpa using hfront
  simp only [stem, hdrop, if_neg hrest, List.reverse_reverse]

/-- A name is its own stem if no dot is inside it; otherwise the stem ends in front of the last dot. -/
theorem stem_cases (name : List Char) :
    stem name = name ∧ '.' ∉ name.tail ∨ ∃ old, name = stem name ++ '.' :: old ∧ '.' ∉ old := by
  have hold : '.' ∉ (name.reverse.takeWhile (· ≠ '.')).reverse := fun hmem => by
    simpa using List.mem_takeWhile_imp (List.mem_reverse.mp hmem)
  have hcut : name = (name.reverse.dropWhile (· ≠ '.')).reverse ++
      (name.reverse.takeWhile (· ≠ '.')).reverse := by
    rw [← List.reverse_append, List.takeWhile_append_dropWhile, List.reverse_reverse]
  generalize (name.reverse.takeWhile (· ≠ '.')).reverse = old at hold hcut
  simp only [stem]
  cases hdrop : name.reverse.dropWhile (· ≠ '.') with
  | nil =>
    rw [hdrop, List.reverse_nil, List.nil_append] at hcut
    exact .inl ⟨rfl, fun hmem => hold (hcut ▸ List.mem_of_mem_tail hmem)⟩
  | cons c front =>
    have hdot : c = '.' := by
      have hhead := List.head?_dropWhile_not (· ≠ '.') name.reverse
      rw [hdrop] at hhead
      simpa using hhead
    rw [hdrop, hdot, List.reverse_cons, List.append_assoc, List.singleton_append] at hcut
    cases front with
    | nil => exact .inl ⟨by simp, by rw [hcut]; exact hold⟩
    | cons d ds => exact .inr ⟨old, by simpa using hcut, hold⟩

end Stem

theorem ofList_ne {name : List Char} {s : String} (h : name ≠ s.toList) : String.ofList name ≠ s := by
  rintro rfl
  exact h String.toList_ofList.symm

/-- The second path is the first one with another extension of its last name. -/
inductive TakesExtension (p : Path) (extension : String) (q : Path) : Prop
  /-- What stands behind the last dot is replaced. -/
  | replaced {front stem old : List Char} (hfront : IsFront front) (hstem : IsName stem)
      (hdot : '.' ∉ old) (hslash : '/' ∉ old) (hp : p.text.toList = front ++ (stem ++ '.' :: old))
      (hq : q.text.toList = front ++ (stem ++ '.' :: extension.toList))
  /-- A name in which no dot follows its first character gets the extension behind it. -/
  | added {front name : List Char} (hfront : IsFront front) (hname : IsName name)
      (hdot : '.' ∉ name.tail) (hp : p.text.toList = front ++ name)
      (hq : q.text.toList = front ++ (name ++ '.' :: extension.toList))

section Named

variable {p q : Path} {front name : List Char} {extension : String}

/-- Another extension takes the place of the last name, unless what stays of the name leads back up. -/
theorem withExtension_of_name (htext : p.text.toList = front ++ name) (hfront : IsFront front)
    (hname : IsName name) (hup : name ≠ ['.', '.']) :
    (p.withExtension extension).text.toList =
      if stem name = ['.'] then front ++ ['.', '.']
      else front ++ (stem name ++ '.' :: extension.toList) := by
  have hnot : ¬ (name = [] ∨ name = ['.'] ∨ name = ['.', '.']) := by
    simp [hname.ne_nil, hname.ne_dot, hup]
  simp only [withExtension, splitLast_of_name htext hfront hname, if_neg hnot, htext, and_true]
  split_ifs <;> simp

theorem withExtension_eq_of_takesExtension (h : p.TakesExtension extension q) :
    p.withExtension extension = q := by
  cases h with
  | @replaced front stem' old hfront hstem hdot hslash hp hq =>
    have hup : stem' ++ '.' :: old ≠ ['.', '.'] := by
      intro h
      obtain ⟨c, cs, rfl⟩ := List.exists_cons_of_ne_nil hstem.ne_nil
      obtain ⟨rfl, hrest⟩ := List.cons_eq_cons.mp h
      obtain ⟨rfl, -⟩ := List.append_eq_singleton_iff.mp hrest |>.resolve_right (by simp)
      exact hstem.ne_dot rfl
    have hname : IsName (stem' ++ '.' :: old) := by
      refine ⟨by simp [hstem.slash_not_mem, hslash], by simp, fun h => ?_⟩
      exact hstem.ne_nil (List.append_eq_singleton_iff.mp h |>.resolve_right (by simp)).1
    have htext : (p.withExtension extension).text.toList = _ :=
      withExtension_of_name hp hfront hname hup
    rw [stem_append hstem.ne_nil hdot, if_neg hstem.ne_dot, ← hq, String.toList_inj] at htext
    exact congrArg Path.mk htext
  | @added front name hfront hname hdot hp hq =>
    have hup : name ≠ ['.', '.'] := by
      rintro rfl
      exact hdot (by simp)
    have hstem : stem name = name := by
      obtain ⟨hstem, -⟩ | ⟨old, hold, -⟩ := stem_cases name
      · exact hstem
      · have hmem : '.' ∈ name.tail := by
          rw [hold, List.tail_append_of_ne_nil (stem_ne_nil hname.ne_nil)]
          simp
        exact absurd hmem hdot
    have htext : (p.withExtension extension).text.toList = _ :=
      withExtension_of_name hp hfront hname hup
    rw [hstem, if_neg hname.ne_dot, ← hq, String.toList_inj] at htext
    exact congrArg Path.mk htext

/-- A path to a name takes every extension, unless what stays of the name leads back up. -/
theorem takesExtension_withExtension (htext : p.text.toList = front ++ name) (hfront : IsFront front)
    (hname : IsName name) (hup : name ≠ ['.', '.']) (hstem : stem name ≠ ['.']) :
    p.TakesExtension extension (p.withExtension extension) := by
  have hq : (p.withExtension extension).text.toList = _ :=
    withExtension_of_name htext hfront hname hup
  rw [if_neg hstem] at hq
  obtain ⟨hself, hdot⟩ | ⟨old, hcut, hdot⟩ := stem_cases name
  · rw [hself] at hq
    exact .added hfront hname hdot htext hq
  · have hfirst : IsName (stem name) :=
      ⟨fun hmem => hname.slash_not_mem (mem_of_mem_stem hmem), stem_ne_nil hname.ne_nil, hstem⟩
    have hslash : '/' ∉ old := fun hmem => hname.slash_not_mem (by rw [hcut]; simp [hmem])
    exact .replaced hfront hfirst hdot hslash (by rw [htext, ← hcut]) hq

end Named

end Path

-- ---------------------------------------------------------------------------
-- Steps to a name
-- ---------------------------------------------------------------------------

namespace FileTree

open Cli.Path (IsFront IsName Component)

variable {t t₁ t' : FileTree} {p q : Path} {way w : List String} {text name name' : List Char}
  {segments : List String} {last : String} {node : Node} {bytes written : List UInt8}

/-- The path leads to a file with these bytes at the end of a way. -/
def LeadsTo (t : FileTree) (p : Path) (way : List String) (bytes : List UInt8) : Prop :=
  t.walk (t.start p) (steps p) = .ok (way, .file bytes)

theorem exists_of_read (h : t.read p = .ok bytes) :
    checkText p = .ok () ∧ ∃ way, t.LeadsTo p way bytes := by
  unfold read at h
  split at h
  · cases h
  rename_i htext
  split at h
  · cases h
  · cases h
  · rename_i way found hwalk
    cases h
    exact ⟨htext, way, hwalk⟩

theorem LeadsTo.read_eq (h : t.LeadsTo p way bytes) (htext : checkText p = .ok ()) :
    t.read p = .ok bytes := by
  rw [LeadsTo] at h
  rw [read, htext, h]

/-- The last step of a walk is made from a directory. -/
theorem exists_of_walk_concat (h : t.walk way (segments ++ [last]) = .ok (w, node)) :
    ∃ mid, t.walk way segments = .ok (mid, .directory) ∧ t.walk mid [last] = .ok (w, node) := by
  induction segments generalizing way with
  | nil =>
    obtain ⟨hway, -, -⟩ := exists_of_walk_cons h
    exact ⟨way, by simp [walk, hway], h⟩
  | cons segment rest ih =>
    obtain ⟨hway, hrest, hstep⟩ := exists_of_walk_cons h
    obtain ⟨mid, hmid, hlast⟩ := ih hrest
    exact ⟨mid, by rw [hstep t _ hway, hmid], hlast⟩

/-- A walk that ends with a dot ends at a directory. -/
theorem eq_directory_of_walk_dot (h : t.walk way (segments ++ ["."]) = .ok (w, node)) :
    node = .directory := by
  obtain ⟨mid, -, hlast⟩ := exists_of_walk_concat h
  obtain ⟨hmid, hrest, -⟩ := exists_of_walk_cons hlast
  obtain ⟨-, hnode⟩ := exists_of_walk_nil hrest
  exact Option.some.inj (hnode.symm.trans hmid)

theorem isAbsolute_eq_head? (htext : p.text.toList = text ++ name) (hslash : '/' ∉ name) :
    p.isAbsolute = decide (text.head? = some '/') := by
  rw [Path.isAbsolute, htext]
  cases text with
  | nil =>
    have hhead : name.head? ≠ some '/' := fun h => hslash (List.mem_of_head? h)
    simp [hhead]
  | cons c cs => rfl

/-- A path that leads to a file, and nowhere back up, ends in a name. -/
theorem LeadsTo.exists_name (h : t.LeadsTo p way bytes) (htext : p.text ≠ "")
    (hup : Component.parent ∉ p.components) :
    ∃ text name, p.text.toList = text ++ name ∧ IsFront text ∧ IsName name ∧ name ≠ ['.', '.'] := by
  have hdot : (steps p).getLast? ≠ some "." := by
    intro hlast
    obtain ⟨front, hsteps⟩ := List.getLast?_eq_some_iff.mp hlast
    rw [LeadsTo, hsteps] at h
    cases eq_directory_of_walk_dot h
  obtain ⟨text, name, hcut, hfront, hname⟩ := exists_name_of_steps htext hdot
  refine ⟨text, name, hcut, hfront, hname, ?_⟩
  rintro rfl
  rw [Path.parent_mem_components_iff, hcut, hfront.componentsIn_append] at hup
  exact hup (List.mem_append_right _ (by decide))

theorem MakesRoom.home (h : t.MakesRoom p t₁) : t₁.home = t.home := by
  cases h with
  | nothing => rfl
  | directories hparent hsome hmake => exact (makeDirs_addsDirectories hmake).home

theorem LeadsTo.way_eq (h : t.LeadsTo p way bytes)
    (hsteps : steps p = segments ++ [String.ofList name]) (hname : IsName name)
    (hup : name ≠ ['.', '.']) :
    way = segments.foldl follow (t.start p) ++ [String.ofList name] := by
  rw [eq_foldl_of_walk h, hsteps, List.foldl_concat, follow, if_neg (Path.ofList_ne hname.ne_dot),
    if_neg (Path.ofList_ne hup)]

/-- A file stays where it is, with its bytes, when another one is written next to it. -/
theorem LeadsTo.beside_written (h : t.LeadsTo p way bytes) (hroom : t.MakesRoom q t₁)
    (hwrite : t₁.write q written = .ok t') (hp : p.text.toList = text ++ name)
    (hq : q.text.toList = text ++ name') (hfront : IsFront text) (hname : IsName name)
    (hup : name ≠ ['.', '.']) (hname' : IsName name') (hne : name ≠ name') :
    t'.LeadsTo p way bytes ∧ ∃ way' ≠ way, t'.LeadsTo q way' written := by
  obtain ⟨-, front, last, mid, hsteps, hwalk, hlast, hfree, rfl⟩ := exists_of_write hwrite
  have hwritten : (t₁.put (mid ++ [last]) (.file written)).LeadsTo q (mid ++ [last]) written :=
    walk_written hsteps hwalk hlast hfree
  have hstepsq := steps_of_front hq hfront hname'.slash_not_mem hname'.ne_nil
  rw [hsteps] at hstepsq
  obtain ⟨rfl, hlast'⟩ := List.append_inj' hstepsq rfl
  obtain rfl := List.singleton_inj.mp hlast'
  -- Both paths start at the same way, and so the ways to the files differ in the last name only.
  have habsolute : p.isAbsolute = q.isAbsolute := by
    rw [isAbsolute_eq_head? hp hname.slash_not_mem, isAbsolute_eq_head? hq hname'.slash_not_mem]
  have hbegin : t.start p = t₁.start q := by rw [start, start, hroom.home, habsolute]
  have hway : way = mid ++ [String.ofList name] := by
    rw [h.way_eq (steps_of_front hp hfront hname.slash_not_mem hname.ne_nil) hname hup, hbegin,
      ← eq_foldl_of_walk hwalk]
  have hother : mid ++ [String.ofList name'] ≠ way := by
    rw [hway]
    simpa [← String.toList_inj] using hne.symm
  have hend : (t₁.put (mid ++ [String.ofList name']) (.file written)).find? way =
      some (.file bytes) := by
    rw [find?_put (by simp), if_neg hother, hroom.find?_of_some (find?_of_walk h)]
  have hstart : (t₁.put (mid ++ [String.ofList name']) (.file written)).start p = t.start p :=
    congrArg (fun home => if p.isAbsolute then [] else home) hroom.home
  refine ⟨?_, _, hother, hwritten⟩
  rw [LeadsTo, hstart]
  refine walk_of_kept (fun way' hway' => ?_) hend h
  exact find?_put_of_directory (by simp) hfree (hroom.find?_of_some hway')

/-- No file is written where a path leads back up. -/
theorem ne_dots_of_write (hwrite : t.write p bytes = .ok t') (htext : p.text.toList = text ++ name)
    (hfront : IsFront text) : name ≠ ['.', '.'] := by
  rintro rfl
  obtain ⟨-, front, last, way, hsteps, -, hlast, -, -⟩ := exists_of_write hwrite
  rw [steps_of_front htext hfront (by decide) (by decide)] at hsteps
  obtain ⟨-, hdots⟩ := List.append_inj' hsteps rfl
  exact hlast.2.1 (List.singleton_inj.mp hdots).symm

end FileTree

end Bytecode.Cli
