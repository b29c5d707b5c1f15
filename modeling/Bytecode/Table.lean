-- SUMMARY: Tables that keep the order in which their keys came first.

/-!
# Tables

A table is a list of keys with values. Inserting a key that is there already replaces its value and
keeps its place; a new key goes to the end.
-/

namespace Bytecode

/-- Keys with their values, in order. -/
abbrev Table (κ α : Type) := List (κ × α)

namespace Table

variable {κ α : Type}

/-- The keys, in order. -/
def keys (t : Table κ α) : List κ := t.map (·.1)

/-- The values, in the order of their keys. -/
def values (t : Table κ α) : List α := t.map (·.2)

variable [DecidableEq κ]

/-- The value of a key. -/
def find? (t : Table κ α) (key : κ) : Option α :=
  match t with
  | [] => none
  | (k, a) :: rest => if k = key then some a else find? rest key

/-- Sets the value of a key. -/
def insert (t : Table κ α) (key : κ) (value : α) : Table κ α :=
  match t with
  | [] => [(key, value)]
  | (k, a) :: rest => if k = key then (key, value) :: rest else (k, a) :: insert rest key value

/-- Sets keys in turn. -/
def insertAll (t : Table κ α) (items : List (κ × α)) : Table κ α :=
  items.foldl (fun t item => t.insert item.1 item.2) t

/-- The table that a list of settings leaves: keys by first occurrence, values by last. -/
def ofList (items : List (κ × α)) : Table κ α := insertAll [] items

theorem find?_insert (t : Table κ α) (key : κ) (value : α) (k : κ) :
    (t.insert key value).find? k = if key = k then some value else t.find? k := by
  induction t with
  | nil => simp [insert, find?]
  | cons item rest ih =>
    obtain ⟨k', a⟩ := item
    by_cases hk : k' = key
    · subst hk
      by_cases h : k' = k <;> simp [insert, find?, h]
    · by_cases h : k' = k
      · subst h
        simp [insert, find?, hk, Ne.symm hk]
      · simp [insert, find?, hk, h, ih]

theorem keys_insert (t : Table κ α) (key : κ) (value : α) :
    (t.insert key value).keys = if key ∈ t.keys then t.keys else t.keys ++ [key] := by
  induction t with
  | nil => simp [insert, keys]
  | cons item rest ih =>
    obtain ⟨k, a⟩ := item
    simp only [keys] at ih
    by_cases hk : k = key
    · simp [insert, keys, hk]
    · by_cases hmem : key ∈ rest.map (·.1) <;>
        simp_all [insert, keys, Ne.symm hk]

end Table

end Bytecode
