-- SUMMARY: Tables made from lists of settings: their keys, their order, and the settings that they keep.
import Mathlib
import Bytecode.Table

/-!
# Tables from lists

A list of settings whose keys are distinct is the table that it leaves. In general the table keeps
the last setting of each key, so that it is a part of the list, in another order: that in which the
keys are first set.
-/

namespace Bytecode.Table

variable {κ α β : Type} [DecidableEq κ] {t : Table κ α} {key : κ} {value : α}

theorem nodup_keys_insert (h : t.keys.Nodup) (key : κ) (value : α) :
    (t.insert key value).keys.Nodup := by
  rw [keys_insert]
  split
  · exact h
  · rename_i hkey
    refine List.nodup_append.mpr ⟨h, List.nodup_singleton key, fun k hk k' hk' => ?_⟩
    rw [List.mem_singleton.mp hk']
    exact ne_of_mem_of_not_mem hk hkey

theorem nodup_keys_insertAll (h : t.keys.Nodup) (items : List (κ × α)) :
    (t.insertAll items).keys.Nodup := by
  induction items generalizing t with
  | nil => exact h
  | cons item rest ih => exact ih (nodup_keys_insert h item.1 item.2)

theorem nodup_keys_ofList (items : List (κ × α)) : (ofList items).keys.Nodup :=
  nodup_keys_insertAll (t := []) List.nodup_nil items

theorem insert_of_not_mem (h : key ∉ t.keys) : t.insert key value = t ++ [(key, value)] := by
  induction t with
  | nil => rfl
  | cons item rest ih =>
    obtain ⟨k, a⟩ := item
    simp only [keys, List.map_cons, List.mem_cons, not_or] at h
    obtain ⟨hne, hrest⟩ := h
    simp [insert, Ne.symm hne, ih hrest]

theorem insertAll_of_nodup {items : List (κ × α)} (h : (keys (t ++ items)).Nodup) :
    t.insertAll items = t ++ items := by
  induction items generalizing t with
  | nil => simp [insertAll]
  | cons item rest ih =>
    obtain ⟨k, a⟩ := item
    have hkey : k ∉ t.keys := by
      simp only [keys, List.map_append, List.map_cons] at h
      exact fun hmem => (List.nodup_append.mp h).2.2 k hmem k List.mem_cons_self rfl
    have hrest : (keys ((t ++ [(k, a)]) ++ rest)).Nodup := by simpa using h
    change (t.insert k a).insertAll rest = _
    rw [insert_of_not_mem hkey, ih hrest]
    simp

theorem ofList_of_nodup {items : List (κ × α)} (h : (keys items).Nodup) : ofList items = items :=
  insertAll_of_nodup h

theorem ofList_ofList (items : List (κ × α)) : ofList (ofList items) = ofList items :=
  ofList_of_nodup (nodup_keys_ofList items)

theorem insert_subperm (t : Table κ α) (key : κ) (value : α) :
    (t.insert key value).Subperm ((key, value) :: t) := by
  induction t with
  | nil => exact List.Subperm.refl _
  | cons item rest ih =>
    obtain ⟨k, a⟩ := item
    by_cases hk : k = key
    · simp only [insert, if_pos hk]
      exact ((List.sublist_cons_self (k, a) rest).cons_cons (key, value)).subperm
    · simp only [insert, if_neg hk]
      exact ((List.subperm_cons (k, a)).mpr ih).trans (List.Perm.swap _ _ rest).subperm

theorem insertAll_subperm (t : Table κ α) (items : List (κ × α)) :
    (t.insertAll items).Subperm (t ++ items) := by
  induction items generalizing t with
  | nil =>
    rw [List.append_nil]
    exact List.Subperm.refl t
  | cons item rest ih =>
    have hinsert := (List.subperm_append_right rest).mpr (insert_subperm t item.1 item.2)
    exact ((ih (t.insert item.1 item.2)).trans hinsert).trans List.perm_middle.symm.subperm

theorem ofList_subperm (items : List (κ × α)) : (ofList items).Subperm items :=
  insertAll_subperm [] items

-- ---------------------------------------------------------------------------
-- Finding values
-- ---------------------------------------------------------------------------

theorem isSome_find?_iff : (t.find? key).isSome ↔ key ∈ t.keys := by
  induction t with
  | nil => simp [find?, keys]
  | cons item rest ih =>
    obtain ⟨k, a⟩ := item
    by_cases hk : k = key
    · simp [find?, keys, hk]
    · simp only [keys] at ih
      simp [find?, keys, hk, Ne.symm hk, ih]

theorem find?_eq_some_iff_of_nodup (h : t.keys.Nodup) :
    t.find? key = some value ↔ (key, value) ∈ t := by
  induction t with
  | nil => simp [find?]
  | cons item rest ih =>
    obtain ⟨k, a⟩ := item
    obtain ⟨hk, hrest⟩ := List.nodup_cons.mp h
    by_cases hkey : k = key
    · subst hkey
      have hnot : (k, value) ∉ rest := fun hmem => hk (List.mem_map.mpr ⟨_, hmem, rfl⟩)
      simp [find?, hnot, eq_comm]
    · simp [find?, hkey, Ne.symm hkey, ih hrest]

theorem find?_eq_find?_idxOf (t : Table κ α) (key : κ) :
    t.find? key = (t.keys.idxOf? key).bind fun i => t.values[i]? := by
  induction t with
  | nil => rfl
  | cons item rest ih =>
    obtain ⟨k, a⟩ := item
    simp only [keys, values] at ih
    by_cases hk : k = key
    · simp [find?, keys, values, hk, List.idxOf?_cons]
    · simp only [find?, ih, keys, values, List.map_cons, List.idxOf?_cons, beq_iff_eq, hk]
      cases (rest.map (·.1)).idxOf? key <;> simp

theorem ofList_concat (items : List (κ × α)) (item : κ × α) :
    ofList (items ++ [item]) = (ofList items).insert item.1 item.2 := by
  simp [ofList, insertAll]

/-- Keys stand in the order in which they first occur. -/
theorem keys_ofList (items : List (κ × α)) : (ofList items).keys = (items.map (·.1)).eraseDups := by
  induction items using List.reverseRecOn with
  | nil => rfl
  | append_singleton items item ih =>
    rw [ofList_concat, keys_insert, ih, List.map_append, List.eraseDups_append]
    by_cases hkey : item.1 ∈ items.map (·.1) <;> simp [hkey, List.removeAll, List.eraseDups_cons]

theorem find?_ofList (items : List (κ × α)) (key : κ) :
    (ofList items).find? key = (items.reverse.find? fun item => item.1 = key).map (·.2) := by
  induction items using List.reverseRecOn with
  | nil => rfl
  | append_singleton items item ih =>
    rw [ofList_concat, find?_insert, List.reverse_append, List.reverse_singleton, List.singleton_append,
      List.find?_cons, ih]
    by_cases hk : item.1 = key <;> simp [hk]

section Map

variable (f : α → β)

/-- The same keys with other values. -/
def mapValues (t : Table κ α) : Table κ β := t.map fun item => (item.1, f item.2)

omit [DecidableEq κ] in
@[simp] theorem keys_mapValues (t : Table κ α) : (mapValues f t).keys = t.keys := by
  simp [mapValues, keys]

theorem find?_mapValues (t : Table κ α) (key : κ) :
    (mapValues f t).find? key = (t.find? key).map f := by
  induction t with
  | nil => rfl
  | cons item rest ih =>
    obtain ⟨k, a⟩ := item
    simp only [mapValues] at ih
    by_cases hk : k = key
    · simp [mapValues, find?, hk]
    · simp [mapValues, find?, hk, ih]

theorem mapValues_insert (t : Table κ α) (key : κ) (value : α) :
    mapValues f (t.insert key value) = (mapValues f t).insert key (f value) := by
  induction t with
  | nil => rfl
  | cons item rest ih =>
    obtain ⟨k, a⟩ := item
    simp only [mapValues] at ih
    by_cases hk : k = key
    · simp [mapValues, insert, hk]
    · simp [mapValues, insert, hk, ih]

theorem mapValues_insertAll (t : Table κ α) (items : List (κ × α)) :
    mapValues f (t.insertAll items) = (mapValues f t).insertAll (mapValues f items) := by
  induction items generalizing t with
  | nil => rfl
  | cons item rest ih =>
    have hrest := ih (t.insert item.1 item.2)
    rw [mapValues_insert] at hrest
    exact hrest

theorem mapValues_ofList (items : List (κ × α)) :
    mapValues f (ofList items) = ofList (mapValues f items) :=
  mapValues_insertAll f [] items

end Map

-- ---------------------------------------------------------------------------
-- What settings leave
-- ---------------------------------------------------------------------------

/-- The value is the one that the key is set to last. -/
def LastSet (items : List (κ × α)) (key : κ) (value : α) : Prop :=
  ∃ before after, items = before ++ (key, value) :: after ∧ key ∉ keys after

/--
The table has each key that is set in the list once, in the order in which they are first set, with the
value that the key is set to last.
-/
structure Settles (t : Table κ α) (items : List (κ × α)) : Prop where
  nodup : t.keys.Nodup
  mem_keys_iff : ∀ key, key ∈ t.keys ↔ key ∈ keys items
  order : t.keys.Pairwise fun key key' => (keys items).idxOf key < (keys items).idxOf key'
  mem_iff : ∀ key value, (key, value) ∈ t ↔ LastSet items key value

variable {items : List (κ × α)}

omit [DecidableEq κ] in
theorem not_lastSet_nil : ¬ LastSet [] key value := by
  rintro ⟨before, after, hitems, -⟩
  exact List.append_ne_nil_of_right_ne_nil before (List.cons_ne_nil _ after) hitems.symm

/-- The last of the settings counts if it is one of the key, and if not, then those in front of it do. -/
theorem lastSet_concat_iff {k : κ} {a : α} :
    LastSet (items ++ [(k, a)]) key value ↔ if k = key then a = value else LastSet items key value := by
  constructor
  · rintro ⟨before, after, hitems, hafter⟩
    obtain rfl | ⟨rest, item, rfl⟩ := List.eq_nil_or_concat' after
    · obtain ⟨-, hlast⟩ := List.append_inj' hitems rfl
      cases hlast
      rw [if_pos rfl]
    · rw [← List.cons_append, ← List.append_assoc] at hitems
      obtain ⟨rfl, hlast⟩ := List.append_inj' hitems rfl
      cases hlast
      simp only [keys, List.map_append, List.map_cons, List.map_nil, List.mem_append,
        List.mem_singleton, not_or] at hafter
      rw [if_neg (Ne.symm hafter.2)]
      exact ⟨before, rest, rfl, hafter.1⟩
  · split
    · rename_i hkey
      rintro rfl
      subst hkey
      exact ⟨items, [], rfl, List.not_mem_nil⟩
    · rename_i hkey
      rintro ⟨before, after, rfl, hafter⟩
      refine ⟨before, after ++ [(k, a)], by simp, ?_⟩
      simpa [keys, Ne.symm hkey] using hafter

omit [DecidableEq κ] in
theorem keys_concat (items : List (κ × α)) (item : κ × α) :
    keys (items ++ [item]) = keys items ++ [item.1] := List.map_append

theorem settles_nil : Settles ([] : Table κ α) [] where
  nodup := List.nodup_nil
  mem_keys_iff _ := Iff.rfl
  order := List.Pairwise.nil
  mem_iff key value := by simp [not_lastSet_nil]

/-- One more setting keeps the places of the keys that are set already. -/
theorem Settles.insert (h : t.Settles items) (key : κ) (value : α) :
    (t.insert key value).Settles (items ++ [(key, value)]) where
  nodup := nodup_keys_insert h.nodup key value
  mem_keys_iff k := by
    have hkey := h.mem_keys_iff key
    rw [keys_insert, keys_concat, List.mem_append, ← h.mem_keys_iff k, List.mem_singleton]
    split
    · rename_i hmem
      exact ⟨.inl, fun hk => hk.elim id fun heq => heq ▸ hmem⟩
    · rw [List.mem_append, List.mem_singleton]
  order := by
    have hkept : t.keys.Pairwise fun k k' =>
        (keys (items ++ [(key, value)])).idxOf k < (keys (items ++ [(key, value)])).idxOf k' := by
      refine h.order.imp_of_mem fun hk hk' hlt => ?_
      rw [h.mem_keys_iff] at hk hk'
      rwa [keys_concat, List.idxOf_append_of_mem hk, List.idxOf_append_of_mem hk']
    rw [keys_insert]
    split
    · exact hkept
    · rename_i hmem
      rw [h.mem_keys_iff] at hmem
      refine List.pairwise_append.mpr ⟨hkept, List.pairwise_singleton _ _, fun k hk k' hk' => ?_⟩
      rw [h.mem_keys_iff] at hk
      rw [List.mem_singleton.mp hk', keys_concat, List.idxOf_append_of_mem hk,
        List.idxOf_append_of_notMem hmem]
      exact (List.idxOf_lt_length_of_mem hk).trans_le (Nat.le_add_right _ _)
  mem_iff k v := by
    rw [← find?_eq_some_iff_of_nodup (nodup_keys_insert h.nodup key value), find?_insert,
      lastSet_concat_iff, ← h.mem_iff k v, ← find?_eq_some_iff_of_nodup h.nodup]
    split
    · exact Option.some_inj
    · exact Iff.rfl

theorem settles_ofList (items : List (κ × α)) : (ofList items).Settles items := by
  induction items using List.reverseRecOn with
  | nil => exact settles_nil
  | append_singleton items item ih =>
    rw [ofList_concat]
    exact ih.insert item.1 item.2

theorem Settles.find?_eq_some_iff (h : t.Settles items) :
    t.find? key = some value ↔ LastSet items key value := by
  rw [find?_eq_some_iff_of_nodup h.nodup, h.mem_iff]

theorem Settles.find?_eq_none_iff (h : t.Settles items) : t.find? key = none ↔ key ∉ keys items := by
  rw [← h.mem_keys_iff, ← isSome_find?_iff, Option.not_isSome_iff_eq_none]

end Bytecode.Table
