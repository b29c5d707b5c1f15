-- SUMMARY: File trees: walks that do not pass a new file, and reading what has been written.
import Bytecode.Cli.Files

/-!
# File trees

A walk passes directories only. A file that is put where there is no directory is therefore in the way
of no walk that ends at a directory, and a path to which a file is written leads to that file.
-/

namespace Bytecode.Cli.FileTree

variable {t t' : FileTree} {p : Path} {bytes : List UInt8}

theorem find?_put {target : List String} {node : Node} (h : target ≠ []) (way : List String) :
    (t.put target node).find? way = if target = way then some node else t.find? way := by
  unfold find? put
  rw [Table.find?_insert]
  by_cases hway : way = []
  · simp [hway, h]
  · simp [hway]

-- ---------------------------------------------------------------------------
-- Walks
-- ---------------------------------------------------------------------------

theorem exists_of_walk_nil {way w : List String} {node : Node} (h : t.walk way [] = .ok (w, node)) :
    w = way ∧ t.find? way = some node := by
  unfold walk at h
  split at h
  · rename_i found hfound
    cases h
    exact ⟨rfl, hfound⟩
  · cases h

/-- Where a segment leads from a way on. -/
def follow (way : List String) (segment : String) : List String :=
  if segment = "." then way else if segment = ".." then way.dropLast else way ++ [segment]

/-- A walk that goes on has passed a directory, and in any tree it goes on in the same way from there. -/
theorem exists_of_walk_cons {way w : List String} {segment : String} {rest : List String} {node : Node}
    (h : t.walk way (segment :: rest) = .ok (w, node)) :
    t.find? way = some .directory ∧ t.walk (follow way segment) rest = .ok (w, node) ∧
      ∀ (t' : FileTree) (rest' : List String), t'.find? way = some .directory →
        t'.walk way (segment :: rest') = t'.walk (follow way segment) rest' := by
  rw [walk] at h
  split at h
  · cases h
  · cases h
  rename_i hway
  refine ⟨hway, ?_⟩
  unfold follow
  split at h
  · rename_i hdot
    rw [if_pos hdot]
    exact ⟨h, fun t' rest' hway' => by simp [walk, hway', hdot]⟩
  rename_i hdot
  split at h
  · rename_i hup
    rw [if_neg hdot, if_pos hup]
    exact ⟨h, fun t' rest' hway' => by simp [walk, hway', hup]⟩
  rename_i hup
  split at h
  · cases h
  rename_i hlong
  rw [if_neg hdot, if_neg hup]
  exact ⟨h, fun t' rest' hway' => by simp [walk, hway', hdot, hup, hlong]⟩

/-- A walk ends at what is there. -/
theorem find?_of_walk {way w segments : List String} {node : Node}
    (h : t.walk way segments = .ok (w, node)) : t.find? w = some node := by
  induction segments generalizing way with
  | nil =>
    obtain ⟨rfl, hnode⟩ := exists_of_walk_nil h
    exact hnode
  | cons segment rest ih =>
    obtain ⟨-, hrest, -⟩ := exists_of_walk_cons h
    exact ih hrest

theorem eq_foldl_of_walk {way w segments : List String} {node : Node}
    (h : t.walk way segments = .ok (w, node)) : w = segments.foldl follow way := by
  induction segments generalizing way with
  | nil => exact (exists_of_walk_nil h).1
  | cons segment rest ih =>
    obtain ⟨-, hrest, -⟩ := exists_of_walk_cons h
    exact ih hrest

theorem walk_append {way w segments : List String} {node : Node}
    (h : t.walk way segments = .ok (w, node)) (more : List String) :
    t.walk way (segments ++ more) = t.walk w more := by
  induction segments generalizing way with
  | nil =>
    obtain ⟨rfl, -⟩ := exists_of_walk_nil h
    rfl
  | cons segment rest ih =>
    obtain ⟨hway, hrest, hstep⟩ := exists_of_walk_cons h
    rw [List.cons_append, hstep t _ hway, ih hrest]

/-- A walk ends where it did if the directories are still there, and what was at its end. -/
theorem walk_of_kept {way w segments : List String} {node : Node}
    (hdirectories : ∀ way', t.find? way' = some .directory → t'.find? way' = some .directory)
    (hend : t'.find? w = some node) (h : t.walk way segments = .ok (w, node)) :
    t'.walk way segments = .ok (w, node) := by
  induction segments generalizing way with
  | nil =>
    obtain ⟨rfl, -⟩ := exists_of_walk_nil h
    simp only [walk, hend]
  | cons segment rest ih =>
    obtain ⟨hway, hrest, hstep⟩ := exists_of_walk_cons h
    rw [hstep _ rest (hdirectories way hway)]
    exact ih hrest

theorem find?_put_of_directory {target way : List String} {node : Node} (htarget : target ≠ [])
    (hfree : t.find? target ≠ some .directory) (h : t.find? way = some .directory) :
    (t.put target node).find? way = some .directory := by
  rw [find?_put htarget, if_neg, h]
  rintro rfl
  exact hfree h

/-- A new file is in the way of no walk to a directory. -/
theorem walk_put {target way w segments : List String} {node : Node} (htarget : target ≠ [])
    (hfree : t.find? target ≠ some .directory) (h : t.walk way segments = .ok (w, .directory)) :
    (t.put target node).walk way segments = .ok (w, .directory) :=
  walk_of_kept (fun _ => find?_put_of_directory htarget hfree)
    (find?_put_of_directory htarget hfree (find?_of_walk h)) h

-- ---------------------------------------------------------------------------
-- Reading what has been written
-- ---------------------------------------------------------------------------

theorem getLast?_steps_of_slash (h : p.text.toList.getLast? = some '/') :
    (steps p).getLast? = some "." := by
  simp [steps, h]

/-- A write that succeeds puts a file at the end of the walk, below a directory and where none is. -/
theorem exists_of_write (h : t.write p bytes = .ok t') :
    checkText p = .ok () ∧ ∃ front last way, steps p = front ++ [last] ∧
      t.walk (t.start p) front = .ok (way, .directory) ∧
      (last ≠ "." ∧ last ≠ ".." ∧ ¬ maxName < last.utf8ByteSize) ∧
      t.find? (way ++ [last]) ≠ some .directory ∧ t' = t.put (way ++ [last]) (.file bytes) := by
  unfold write at h
  split at h
  · cases h
  rename_i htext
  split at h
  · cases h
  rename_i last hlast
  simp only at h
  split at h
  · cases h
  · cases h
  rename_i way hwalk
  split at h
  · cases h
  rename_i hdots
  split at h
  · cases h
  rename_i hshort
  split at h
  · cases h
  rename_i hfree
  cases h
  rw [not_or] at hdots
  -- A slash at the end would make the last step a dot.
  have hslash : p.text.toList.getLast? ≠ some '/' := by
    intro hslash
    rw [getLast?_steps_of_slash hslash] at hlast
    exact hdots.1 (Option.some.inj hlast).symm
  obtain ⟨front, hsteps⟩ := List.getLast?_eq_some_iff.mp hlast
  rw [if_neg hslash, hsteps, List.dropLast_concat] at hwalk
  exact ⟨htext, front, last, way, hsteps, hwalk, ⟨hdots.1, hdots.2, hshort⟩, hfree, rfl⟩

/-- The path to which a file is written leads to that file. -/
theorem walk_written {front : List String} {last : String} {way : List String}
    (hsteps : steps p = front ++ [last]) (hwalk : t.walk (t.start p) front = .ok (way, .directory))
    (hlast : last ≠ "." ∧ last ≠ ".." ∧ ¬ maxName < last.utf8ByteSize)
    (hfree : t.find? (way ++ [last]) ≠ some .directory) :
    (t.put (way ++ [last]) (.file bytes)).walk (t.start p) (steps p) =
      .ok (way ++ [last], .file bytes) := by
  obtain ⟨hdot, hup, hshort⟩ := hlast
  have htarget : way ++ [last] ≠ [] := by simp
  have hfront : (t.put (way ++ [last]) (.file bytes)).walk (t.start p) front = .ok (way, .directory) :=
    walk_put htarget hfree hwalk
  have hfile : (t.put (way ++ [last]) (.file bytes)).walk way [last] =
      .ok (way ++ [last], .file bytes) := by
    simp [walk, find?_of_walk hfront, hdot, hup, hshort, find?_put htarget]
  rw [hsteps, walk_append hfront, hfile]

/-- A file that has been written is read as it was written. -/
theorem read_write (h : t.write p bytes = .ok t') : t'.read p = .ok bytes := by
  obtain ⟨htext, front, last, way, hsteps, hwalk, hlast, hfree, rfl⟩ := exists_of_write h
  have hstart : (t.put (way ++ [last]) (.file bytes)).start p = t.start p := rfl
  rw [read, htext, hstart, walk_written hsteps hwalk hlast hfree]

end Bytecode.Cli.FileTree
