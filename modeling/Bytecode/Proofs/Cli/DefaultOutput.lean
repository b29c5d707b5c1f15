-- SUMMARY: The output that is taken when none is named: which sources keep their bytes, and which are their own output.
import Bytecode.Proofs.Cli.Effects

/-!
# Default outputs

A source that is not named an output is assembled next to it: the two paths differ in the last name
only, and there only in what stands behind the last dot. They are the same path if that is the
extension of assembled files already; the block then takes the place of its source.
-/

namespace Bytecode.Cli

-- ---------------------------------------------------------------------------
-- Extensions
-- ---------------------------------------------------------------------------

namespace Path

/-- The last component is a name with the extension behind a dot, and something in front of it. -/
def HasExtension (p : Path) (extension : String) : Prop :=
  ∃ stem, stem ≠ "" ∧ p.components.getLast? = some (.normal (stem ++ "." ++ extension))

section Stem

variable {name extension : List Char}

/-- A name gets an extension by its stem, and stays as it is if it has that extension. -/
theorem stem_append_eq_self_iff (hname : name ≠ []) (hextension : '.' ∉ extension) :
    stem name ++ '.' :: extension = name ↔ ∃ front ≠ [], name = front ++ '.' :: extension := by
  constructor
  · exact fun h => ⟨stem name, stem_ne_nil hname, h.symm⟩
  · rintro ⟨front, hfront, rfl⟩
    rw [stem_append hfront hextension]

end Stem

section Named

variable {p : Path} {front name : List Char} {extension : String}

theorem getLast?_components (htext : p.text.toList = front ++ name) (hfront : IsFront front)
    (hname : IsName name) (hup : name ≠ ['.', '.']) :
    p.components.getLast? = some (.normal (String.ofList name)) := by
  obtain ⟨lead, hcomponents, -⟩ := exists_lead p
  have hlast : componentsIn name = [.normal (String.ofList name)] := by
    have hempty : String.ofList name ≠ "" := ofList_ne hname.ne_nil
    have hdot : String.ofList name ≠ "." := ofList_ne hname.ne_dot
    have hdots : String.ofList name ≠ ".." := ofList_ne hup
    rw [componentsIn_of_not_mem hname.slash_not_mem]
    simp [Component.ofSegment?, hempty, hdot, hdots]
  rw [hcomponents, htext, hfront.componentsIn_append, hlast, ← List.append_assoc,
    List.getLast?_concat]

theorem hasExtension_iff (htext : p.text.toList = front ++ name) (hfront : IsFront front)
    (hname : IsName name) (hup : name ≠ ['.', '.']) :
    p.HasExtension extension ↔ ∃ stem ≠ [], name = stem ++ '.' :: extension.toList := by
  have hspelled : ∀ stem : String, String.ofList name = stem ++ "." ++ extension ↔
      name = stem.toList ++ '.' :: extension.toList := by
    intro stem
    rw [← String.toList_inj]
    simp
  simp only [HasExtension, getLast?_components htext hfront hname hup, Option.some.injEq,
    Component.normal.injEq, hspelled]
  constructor
  · rintro ⟨stem, hstem, heq⟩
    exact ⟨stem.toList, by simpa using hstem, heq⟩
  · rintro ⟨stem, hstem, heq⟩
    exact ⟨String.ofList stem, by simpa using hstem, by rw [String.toList_ofList, heq]⟩

end Named

end Path

-- ---------------------------------------------------------------------------
-- Sources
-- ---------------------------------------------------------------------------

/--
What a source holds when the bytes that it assembles to have been written to its default output: what it
held before, with the bytes in another file; or, if it is its own default output, these bytes.
-/
structure SourceAfter (t t' : FileTree) (file : Path) (bytes : List UInt8) : Prop where
  kept : ¬ file.HasExtension "hbc" → t'.read file = t.read file ∧
    ∃ source way way', t'.LeadsTo file way source ∧ t'.LeadsTo (defaultOutput file) way' bytes ∧
      way ≠ way'
  replaced : file.HasExtension "hbc" → defaultOutput file = file ∧ t'.read file = .ok bytes

open FileTree in
theorem sourceAfter_of_write {t t₁ t' : FileTree} {file : Path} {source bytes : List UInt8}
    (hread : t.read file = .ok source) (hup : Path.Component.parent ∉ file.components)
    (hroom : t.MakesRoom (defaultOutput file) t₁)
    (hwrite : t₁.write (defaultOutput file) bytes = .ok t') : SourceAfter t t' file bytes := by
  obtain ⟨hcheck, way, hleads⟩ := exists_of_read hread
  obtain ⟨text, name, htext, hfront, hname, hdots⟩ :=
    hleads.exists_name (text_ne_empty_of_checkText hcheck) hup
  have hextension : file.HasExtension "hbc" ↔ ∃ stem ≠ [], name = stem ++ '.' :: ['h', 'b', 'c'] :=
    Path.hasExtension_iff htext hfront hname hdots
  have houtput : (defaultOutput file).text.toList =
      if Path.stem name = ['.'] then text ++ ['.', '.']
      else text ++ (Path.stem name ++ '.' :: ['h', 'b', 'c']) :=
    Path.withExtension_of_name htext hfront hname hdots
  split_ifs at houtput with hstem
  · exact absurd rfl (ne_dots_of_write hwrite houtput hfront)
  rw [← Path.stem_append_eq_self_iff hname.ne_nil (by decide)] at hextension
  have hname' : Path.IsName (Path.stem name ++ '.' :: ['h', 'b', 'c']) := by
    refine ⟨?_, by simp, ?_⟩
    · simp only [List.mem_append, not_or]
      exact ⟨fun hmem => hname.slash_not_mem (Path.mem_of_mem_stem hmem), by decide⟩
    · exact fun h => absurd (congrArg List.length h) (by simp)
  constructor
  case kept =>
    intro hnot
    rw [hextension] at hnot
    obtain ⟨hkept, way', hne, hwritten⟩ :=
      hleads.beside_written hroom hwrite htext houtput hfront hname hdots hname' (Ne.symm hnot)
    exact ⟨(hkept.read_eq hcheck).trans hread.symm, source, way, way', hkept, hwritten, hne.symm⟩
  case replaced =>
    intro hsame
    rw [hextension] at hsame
    have hself : defaultOutput file = file := by
      rw [hsame, ← htext, String.toList_inj] at houtput
      exact congrArg Path.mk houtput
    rw [hself] at hwrite
    exact ⟨hself, read_write hwrite⟩

/-- A file tree with a listing that has the extension of assembled files. -/
def misnamedTree : FileTree where
  nodes := [(["two.hbc"], .file (Text.utf8 ".const 2\nLOAD_CONST 0\nRETURN\n"))]

end Bytecode.Cli
