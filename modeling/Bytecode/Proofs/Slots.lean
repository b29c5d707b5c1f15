-- SUMMARY: Slots of names: a name is found at the last of its places in the list, and nowhere if it has none.
import Bytecode.Block
import Bytecode.Proofs.Table

/-!
# Slots

The places of a list of names are entered in a table one after the other. Entering a name moves it to
its new place and leaves all other names where they are, so that in the end each name is at its last
place. Names and variable names have tables of their own.
-/

namespace Bytecode

/-- The last place at which a name is listed. -/
def LastAt (names : List String) (name : String) (i : Nat) : Prop :=
  names[i]? = some name ∧ ∀ j, i < j → names[j]? ≠ some name

/-- Names that are listed are found at their last places, and no others are found. -/
structure Resolves (slot? : String → Option Nat) (names : List String) : Prop where
  found : ∀ name i, slot? name = some i ↔ LastAt names name i
  missing : ∀ name, slot? name = none ↔ name ∉ names

variable {names : List String} {name last : String} {i : Nat}

-- ---------------------------------------------------------------------------
-- One name more
-- ---------------------------------------------------------------------------

theorem positions_concat (names : List String) (last : String) :
    positions (names ++ [last]) = (positions names).insert last names.length := by
  rw [positions, List.zipIdx_append, List.zipIdx_singleton, Table.ofList_concat, Nat.zero_add]
  rfl

/-- A name at the end is at its last place there, and it is the last place of no other name. -/
theorem lastAt_concat_iff :
    LastAt (names ++ [last]) name i ↔ if last = name then names.length = i else LastAt names name i := by
  have hbound : ∀ j, names[j]? = some name → j < names.length := fun _ h =>
    (List.getElem?_eq_some_iff.mp h).1
  by_cases hname : last = name
  · subst hname
    rw [if_pos rfl]
    constructor
    · rintro ⟨hi, hlast⟩
      have hnot : ¬ i < names.length := fun hlt => hlast names.length hlt List.getElem?_concat_length
      grind
    · rintro rfl
      exact ⟨List.getElem?_concat_length, by grind⟩
  · -- The new name is another one, so the end is none of the places.
    rw [if_neg hname, LastAt, LastAt]
    grind

-- ---------------------------------------------------------------------------
-- All names
-- ---------------------------------------------------------------------------

theorem find?_positions_eq_some_iff : (positions names).find? name = some i ↔ LastAt names name i := by
  induction names using List.reverseRecOn with
  | nil => simp [positions, Table.ofList, Table.insertAll, Table.find?, LastAt]
  | append_singleton names last ih =>
    rw [positions_concat, Table.find?_insert, lastAt_concat_iff]
    split
    · exact Option.some_inj
    · exact ih

theorem find?_positions_eq_none_iff : (positions names).find? name = none ↔ name ∉ names := by
  rw [positions, (Table.settles_ofList names.zipIdx).find?_eq_none_iff, Table.keys, List.zipIdx_map_fst]

theorem resolves_positions (names : List String) : Resolves (positions names).find? names where
  found _ _ := find?_positions_eq_some_iff
  missing _ := find?_positions_eq_none_iff

/--
In every block, names and variable names are found at their last places. What is found of the variable
names does not depend on the names, nor the other way round.
-/
theorem Block.slots_resolve (b : Block) :
    Resolves b.chunk.nameSlot? b.chunk.names ∧ Resolves b.chunk.varSlot? b.chunk.varnames ∧
      (∀ varnames, Chunk.nameSlot? { b.chunk with varnames } = b.chunk.nameSlot?) ∧
      ∀ names, Chunk.varSlot? { b.chunk with names } = b.chunk.varSlot? :=
  ⟨resolves_positions b.chunk.names, resolves_positions b.chunk.varnames, fun _ => rfl, fun _ => rfl⟩

example : (positions ["a", "b", "a"]).find? "a" = some 2 := by decide

end Bytecode
