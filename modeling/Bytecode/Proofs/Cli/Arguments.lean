-- SUMMARY: Paths that the command line accepts: none of them leads to a parent directory.
import Bytecode.Cli.Arguments

/-!
# Accepted paths

A path is checked before it is set, whether it was given as a file or as the value of an option. No
argument that comes later changes this, so a command has checked paths only.
-/

namespace Bytecode.Cli

open Cli.Path (Component)

variable {g g' : Given} {v : Verb} {p : Path} {value argument : String}

namespace Given

/-- No path that has been set leads to a parent directory. -/
structure Sanitized (g : Given) : Prop where
  file : ∀ p ∈ g.file, Component.parent ∉ p.components
  output : ∀ p ∈ g.output, Component.parent ∉ p.components

theorem sanitized_empty : ({} : Given).Sanitized := ⟨by simp, by simp⟩

theorem parent_not_mem_of_checkPath (h : checkPath value = .ok p) :
    Component.parent ∉ p.components := by
  unfold checkPath Path.sanitize at h
  split at h
  · rename_i q hq
    split at hq
    · cases hq
    · rename_i hparent
      cases hq
      cases h
      exact hparent
  · cases h

theorem exists_of_bind_eq_ok {α β : Type} {x : Except UsageError α} {f : α → Except UsageError β}
    {b : β} (h : x.bind f = .ok b) : ∃ a, x = .ok a ∧ f a = .ok b := by
  cases x with
  | error e => cases h
  | ok a => exact ⟨a, rfl, h⟩

theorem exists_of_map_eq_ok {α β : Type} {x : Except UsageError α} {f : α → β} {b : β}
    (h : x.map f = .ok b) : ∃ a, x = .ok a ∧ f a = b := by
  cases x with
  | error e => cases h
  | ok a => exact ⟨a, rfl, Except.ok.inj h⟩

theorem Sanitized.setPending (hg : g.Sanitized) (pending : Option Pending) :
    { g with pending := pending }.Sanitized := ⟨hg.file, hg.output⟩

theorem Sanitized.setFile (hg : g.Sanitized) (hp : Component.parent ∉ p.components) :
    { g with file := some p }.Sanitized :=
  ⟨fun _ hmem => Option.some.inj hmem ▸ hp, hg.output⟩

theorem Sanitized.setOutput (hg : g.Sanitized) (hp : Component.parent ∉ p.components) :
    { g with output := some p }.Sanitized :=
  ⟨hg.file, fun _ hmem => Option.some.inj hmem ▸ hp⟩

-- ---------------------------------------------------------------------------
-- One argument
-- ---------------------------------------------------------------------------

theorem Sanitized.assign {s : Setting} (hg : g.Sanitized) (h : g.assign value s = .ok g') :
    g'.Sanitized := by
  cases s with
  | output =>
    rw [Given.assign] at h
    split at h
    · cases h
    · obtain ⟨p, hcheck, rfl⟩ := exists_of_map_eq_ok h
      exact hg.setOutput (parent_not_mem_of_checkPath hcheck)
  | format =>
    rw [Given.assign] at h
    split at h
    · cases h
    · split at h
      · cases h
        exact ⟨hg.file, hg.output⟩
      · cases h

theorem Sanitized.settle (hg : g.Sanitized) (h : g.settle = .ok g') : g'.Sanitized := by
  rw [Given.settle] at h
  split at h
  · cases h
    exact hg
  · obtain ⟨p, hcheck, rfl⟩ := exists_of_map_eq_ok h
    exact (hg.setFile (parent_not_mem_of_checkPath hcheck)).setPending none
  · cases h
  · exact (hg.setPending none).assign h

theorem Sanitized.takeFile (hg : g.Sanitized) (h : g.takeFile value = .ok g') : g'.Sanitized := by
  rw [Given.takeFile] at h
  split at h
  · cases h
  · obtain ⟨g₁, hsettle, rfl⟩ := exists_of_map_eq_ok h
    exact (hg.settle hsettle).setPending _

theorem Sanitized.takeWord (hg : g.Sanitized) (h : g.takeWord value = .ok g') : g'.Sanitized := by
  rw [Given.takeWord] at h
  split at h
  · cases h
    exact hg.setPending _
  · exact hg.takeFile h

theorem Sanitized.takeFlag {flag : Flag} {value : Option String} (hg : g.Sanitized)
    (h : g.takeFlag flag value = .ok g') : g'.Sanitized := by
  rw [Given.takeFlag] at h
  split at h
  · cases h
  rename_i g₁ hsettle
  split at h
  · cases h
  · exact (hg.settle hsettle).assign h
  · cases h
    exact (hg.settle hsettle).setPending _

/-- An argument sets checked paths only. -/
theorem Sanitized.take (hg : g.Sanitized) (h : g.take v argument = .ok g') : g'.Sanitized := by
  rw [Given.take] at h
  split at h
  · exact hg.takeWord h
  · exact hg.takeWord h
  · split at h
    · cases h
    · split at h
      · cases h
      · exact hg.takeFlag h
    · exact hg.takeFlag h
  · split at h
    · cases h
    · exact hg.takeFlag h

-- ---------------------------------------------------------------------------
-- All arguments
-- ---------------------------------------------------------------------------

theorem Sanitized.foldlM_takeFile {files : List String} (hg : g.Sanitized)
    (h : files.foldlM Given.takeFile g = .ok g') : g'.Sanitized := by
  induction files generalizing g with
  | nil =>
    cases h
    exact hg
  | cons file rest ih =>
    rw [List.foldlM_cons] at h
    obtain ⟨g₁, htake, hrest⟩ := exists_of_bind_eq_ok h
    exact ih (hg.takeFile htake) hrest

theorem Sanitized.takeAll {arguments : List String} (hg : g.Sanitized)
    (h : g.takeAll v arguments = .ok g') : g'.Sanitized := by
  induction arguments generalizing g with
  | nil => exact hg.settle h
  | cons argument rest ih =>
    unfold Given.takeAll at h
    split at h
    · exact hg.settle h
    · obtain ⟨g₁, hfiles, hsettle⟩ := exists_of_bind_eq_ok h
      exact (hg.foldlM_takeFile hfiles).settle hsettle
    · rename_i hcons
      obtain ⟨rfl, rfl⟩ := List.cons_eq_cons.mp hcons
      obtain ⟨g₁, htake, hrest⟩ := exists_of_bind_eq_ok h
      exact ih (hg.take htake) hrest

end Given

/-- The paths of a command lead to no parent directory. -/
theorem parent_not_mem_of_ofArguments {arguments : List String} {file : Path} {output : Option Path}
    (h : Command.ofArguments arguments = .ok (.asm file output)) :
    Component.parent ∉ file.components ∧ ∀ p ∈ output, Component.parent ∉ p.components := by
  unfold Command.ofArguments at h
  split at h
  · cases h
  split at h
  · obtain ⟨g, htake, hcommand⟩ := Given.exists_of_bind_eq_ok h
    have hg := Given.sanitized_empty.takeAll htake
    unfold Given.command at hcommand
    split at hcommand
    · cases hcommand
    · rename_i hfile
      split at hcommand
      · cases hcommand
        exact ⟨hg.file _ hfile, hg.output⟩
      · cases hcommand
      · cases hcommand
  · cases h

end Bytecode.Cli
