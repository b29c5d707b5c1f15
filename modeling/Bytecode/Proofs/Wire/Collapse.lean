-- SUMMARY: Records in which every class keeps one method of each name: what loading and writing again leaves.
import Bytecode.Proofs.Table
import Bytecode.Proofs.Wire.RecordPassage

/-!
# Collapsed records

A record may list several methods of one name, a class has only the last of them, at the place of
the first. `Record.collapsed` leaves in a record what its block keeps. It changes nothing where the
names are distinct, leaves sound records sound, and never makes them longer.
-/

namespace Bytecode.Wire

variable {κ ν : Type}

/-- A method as a setting of its name. -/
def Member.item (m : Member κ) : String × (AccessFlags × Routine κ) := (m.name, (m.flags, m.routine))

def Member.ofItem (item : String × (AccessFlags × Routine κ)) : Member κ :=
  ⟨item.1, item.2.1, item.2.2⟩

/-- The methods that a class keeps. -/
def Member.tabled (members : List (Member κ)) : List (Member κ) :=
  (Table.ofList (members.map Member.item)).map Member.ofItem

theorem Member.map_ofItem_item (members : List (Member κ)) :
    (members.map Member.item).map Member.ofItem = members := by
  induction members with
  | nil => rfl
  | cons m rest ih =>
    obtain ⟨_, _, _⟩ := m
    simp [Member.item, Member.ofItem, ih]

theorem Member.map_item_ofItem (items : List (String × (AccessFlags × Routine κ))) :
    (items.map Member.ofItem).map Member.item = items := by
  simp [Member.item, Member.ofItem, Function.comp_def]

theorem Member.map_item_tabled (members : List (Member κ)) :
    (Member.tabled members).map Member.item = Table.ofList (members.map Member.item) :=
  Member.map_item_ofItem _

theorem Member.names_eq_keys (members : List (Member κ)) :
    members.map Member.name = Table.keys (members.map Member.item) := by
  simp [Table.keys, Member.item]

theorem Member.nodup_names_tabled (members : List (Member κ)) :
    ((Member.tabled members).map Member.name).Nodup := by
  rw [Member.names_eq_keys, Member.map_item_tabled]
  exact Table.nodup_keys_ofList _

theorem Member.tabled_of_nodup {members : List (Member κ)} (h : (members.map Member.name).Nodup) :
    Member.tabled members = members := by
  rw [Member.names_eq_keys] at h
  rw [Member.tabled, Table.ofList_of_nodup h, Member.map_ofItem_item]

theorem Member.tabled_subperm (members : List (Member κ)) :
    (Member.tabled members).Subperm members := by
  obtain ⟨kept, hperm, hsub⟩ := Table.ofList_subperm (members.map Member.item)
  refine ⟨kept.map Member.ofItem, hperm.map Member.ofItem, ?_⟩
  have hsub := hsub.map Member.ofItem
  rwa [Member.map_ofItem_item] at hsub

theorem Member.tabled_mapBody (g : Record κ → Record ν) (members : List (Member κ)) :
    Member.tabled (members.map (Member.mapBody g)) = (Member.tabled members).map (Member.mapBody g) := by
  let change : AccessFlags × Routine κ → AccessFlags × Routine ν :=
    fun item => (item.1, ⟨g item.2.body, item.2.params⟩)
  have hitems : (members.map (Member.mapBody g)).map Member.item =
      Table.mapValues change (members.map Member.item) := by
    simp [Table.mapValues, Member.item, Member.mapBody, change]
  rw [Member.tabled, hitems, ← Table.mapValues_ofList]
  simp [Table.mapValues, Member.tabled, Member.ofItem, Member.mapBody, change]

-- ---------------------------------------------------------------------------
-- Records
-- ---------------------------------------------------------------------------

/-- An entry of which a class keeps everything. -/
def Entry.tabled : Entry κ → Entry κ
  | .function r => .function r
  | .class name members => .class name (Member.tabled members)

mutual

/-- The record in which every class keeps one method of each name. -/
def Record.collapsed : Record κ → Record κ
  | ⟨chunk, entries⟩ => ⟨chunk, Entry.collapseAll entries⟩

def Entry.collapseAll : List (Entry κ) → List (Entry κ)
  | [] => []
  | .function r :: rest => .function (Routine.collapsed r) :: Entry.collapseAll rest
  | .class name members :: rest =>
    .class name (Member.tabled (Member.collapseAll members)) :: Entry.collapseAll rest

def Routine.collapsed : Routine κ → Routine κ
  | ⟨body, params⟩ => ⟨Record.collapsed body, params⟩

def Member.collapseAll : List (Member κ) → List (Member κ)
  | [] => []
  | ⟨name, flags, routine⟩ :: rest =>
    ⟨name, flags, Routine.collapsed routine⟩ :: Member.collapseAll rest

end

theorem Member.collapseAll_eq (members : List (Member κ)) :
    Member.collapseAll members = members.map (Member.mapBody Record.collapsed) := by
  induction members with
  | nil => rfl
  | cons m rest ih =>
    obtain ⟨_, _, _, _⟩ := m
    simp [Member.collapseAll, Routine.collapsed, Member.mapBody, ih]

theorem Entry.collapseAll_eq (entries : List (Entry κ)) :
    Entry.collapseAll entries = entries.map fun e => (e.mapBodies Record.collapsed).tabled := by
  induction entries with
  | nil => rfl
  | cons e rest ih =>
    cases e with
    | function r =>
      obtain ⟨_, _⟩ := r
      simp [Entry.collapseAll, Routine.collapsed, Entry.mapBodies, Entry.tabled, ih]
    | «class» name members =>
      simp [Entry.collapseAll, Member.collapseAll_eq, Entry.mapBodies, Entry.tabled, ih]

@[simp] theorem Record.chunk_collapsed (r : Record κ) : r.collapsed.chunk = r.chunk := by
  obtain ⟨_, _⟩ := r
  rfl

theorem Record.entries_collapsed (r : Record κ) :
    r.collapsed.entries = r.entries.map fun e => (e.mapBodies Record.collapsed).tabled := by
  obtain ⟨_, _⟩ := r
  exact Entry.collapseAll_eq _

theorem Entry.tabled_mapBodies (g : Record κ → Record ν) (e : Entry κ) :
    (e.mapBodies g).tabled = e.tabled.mapBodies g := by
  cases e with
  | function r => rfl
  | «class» name members => simp [Entry.mapBodies, Entry.tabled, Member.tabled_mapBody]

theorem Record.collapsed_mapChunks (f : Chunk κ → Chunk ν) (r : Record κ) :
    (r.mapChunks f).collapsed = r.collapsed.mapChunks f := by
  induction r using Record.induction with
  | step r ih =>
    refine Record.ext (by simp) ?_
    simp only [Record.entries_collapsed, Record.entries_mapChunks, List.map_map]
    refine List.map_congr_left fun e he => ?_
    simp only [Function.comp, Entry.mapBodies_mapBodies, ← Entry.tabled_mapBodies]
    rw [Entry.mapBodies_congr fun q hq => ih q (List.mem_flatMap.mpr ⟨e, he, hq⟩)]

/-- No class of the entries repeats a method name. -/
def Entry.DistinctNames (entries : List (Entry κ)) : Prop :=
  ∀ name members, Entry.class name members ∈ entries → (members.map Member.name).Nodup

/-- No class anywhere in the record repeats a method name. -/
def Record.Distinct (r : Record κ) : Prop := ∀ q ∈ r.records, Entry.DistinctNames q.entries

theorem Record.collapsed_of_distinct {r : Record κ} (h : r.Distinct) : r.collapsed = r := by
  induction r using Record.induction with
  | step r ih =>
    have hbody : ∀ q ∈ r.bodies, q.collapsed = q := fun q hq =>
      ih q hq fun p hp => h p (Record.mem_records_of_body hq hp)
    refine Record.ext r.chunk_collapsed ?_
    rw [Record.entries_collapsed]
    refine (List.map_congr_left fun e he => ?_).trans (List.map_id r.entries)
    rw [Entry.mapBodies_eq_self fun q hq => hbody q (List.mem_flatMap.mpr ⟨e, he, hq⟩)]
    cases e with
    | function r' => rfl
    | «class» name members =>
      have hnodup := h r r.mem_records_self name members he
      simp [Entry.tabled, Member.tabled_of_nodup hnodup]

theorem Entry.mem_bodies_of_tabled {e : Entry κ} {q : Record κ} (h : q ∈ e.tabled.bodies) :
    q ∈ e.bodies := by
  cases e with
  | function r => exact h
  | «class» name members =>
    simp only [Entry.tabled, Entry.bodies, List.mem_map] at h
    obtain ⟨m, hm, rfl⟩ := h
    exact List.mem_map_of_mem ((Member.tabled_subperm members).subset hm)

theorem Record.exists_of_mem_bodies_collapsed {r q : Record κ} (h : q ∈ r.collapsed.bodies) :
    ∃ p ∈ r.bodies, q = p.collapsed := by
  rw [Record.bodies, Record.entries_collapsed, List.flatMap_map, List.mem_flatMap] at h
  obtain ⟨e, he, hq⟩ := h
  have hbody := Entry.mem_bodies_of_tabled hq
  rw [Entry.bodies_mapBodies, List.mem_map] at hbody
  obtain ⟨p, hp, rfl⟩ := hbody
  exact ⟨p, List.mem_flatMap.mpr ⟨e, he, hp⟩, rfl⟩

theorem Record.exists_of_mem_records_collapsed {r q : Record κ} (h : q ∈ r.collapsed.records) :
    ∃ p ∈ r.records, q = p.collapsed := by
  induction r using Record.induction generalizing q with
  | step r ih =>
    rw [Record.records_eq, List.mem_cons, List.mem_flatMap] at h
    rcases h with rfl | ⟨body, hbody, hq⟩
    · exact ⟨r, r.mem_records_self, rfl⟩
    · obtain ⟨body, hmem, rfl⟩ := Record.exists_of_mem_bodies_collapsed hbody
      obtain ⟨p, hp, rfl⟩ := ih body hmem hq
      exact ⟨p, Record.mem_records_of_body hmem hp, rfl⟩

theorem Record.distinct_collapsed (r : Record κ) : r.collapsed.Distinct := by
  intro q hq name members hmem
  obtain ⟨p, -, rfl⟩ := Record.exists_of_mem_records_collapsed hq
  rw [Record.entries_collapsed, List.mem_map] at hmem
  obtain ⟨e, -, he⟩ := hmem
  cases e with
  | function r => cases he
  | «class» name' members' =>
    cases he
    exact Member.nodup_names_tabled _

theorem Record.collapsed_eq_self_iff {r : Record κ} : r.collapsed = r ↔ r.Distinct :=
  ⟨fun h => h ▸ r.distinct_collapsed, Record.collapsed_of_distinct⟩

theorem Record.height_collapsed_le {r : Record κ} {n : Nat} (h : r.height ≤ n) :
    r.collapsed.height ≤ n := by
  induction n generalizing r with
  | zero => exact absurd r.height_pos (by omega)
  | succ n ih =>
    rw [Record.height_le_succ_iff] at h ⊢
    intro q hq
    obtain ⟨p, hp, rfl⟩ := Record.exists_of_mem_bodies_collapsed hq
    exact ih (h p hp)

/-- No length grows, and those that are gone are those of methods that are gone. -/
theorem Entry.exists_le_of_mem_lengths_tabled {e : Entry κ} {n : Nat} (h : n ∈ e.tabled.lengths) :
    ∃ k ∈ e.lengths, n ≤ k := by
  cases e with
  | function r => exact ⟨n, h, le_rfl⟩
  | «class» name members =>
    have hkept := Member.tabled_subperm members
    simp only [Entry.tabled, Entry.lengths, List.mem_cons, List.mem_flatMap] at h
    rcases h with rfl | rfl | ⟨m, hm, hn⟩
    · exact ⟨textLength name, List.mem_cons_self, le_rfl⟩
    · exact ⟨members.length, by simp [Entry.lengths], hkept.length_le⟩
    · refine ⟨n, ?_, le_rfl⟩
      simp only [Entry.lengths, List.mem_cons, List.mem_flatMap]
      exact .inr (.inr ⟨m, hkept.subset hm, hn⟩)

theorem Record.Sound.collapsed {r : Record κ} (h : r.Sound) : r.collapsed.Sound where
  words := by simpa using h.words
  checked := by simpa using h.checked
  lengths n hn := by
    simp only [Record.lengths, Record.chunk_collapsed, Record.entries_collapsed, List.length_map,
      List.flatMap_map, List.mem_append, List.mem_cons, List.mem_flatMap] at hn
    rcases hn with hn | rfl | ⟨e, he, hn⟩
    · exact h.lengths n (List.mem_append_left _ hn)
    · exact h.lengths _ (by simp [Record.lengths])
    · obtain ⟨k, hk, hle⟩ := Entry.exists_le_of_mem_lengths_tabled hn
      rw [Entry.lengths_mapBodies] at hk
      refine Nat.lt_of_le_of_lt hle (h.lengths k ?_)
      simp only [Record.lengths, List.mem_append, List.mem_cons, List.mem_flatMap]
      exact .inr (.inr ⟨e, he, hk⟩)

-- ---------------------------------------------------------------------------
-- Bytes
-- ---------------------------------------------------------------------------

theorem length_countBytes (n : Nat) : (countBytes n).length = wordSize := length_wordBytes _

theorem length_flatMap_le_of_subperm {α : Type} {as bs : List α} (f : α → List UInt8)
    (h : as.Subperm bs) : (as.flatMap f).length ≤ (bs.flatMap f).length := by
  obtain ⟨kept, hperm, hsub⟩ := h
  have heq : (as.flatMap f).length = (kept.flatMap f).length := (hperm.flatMap_right f).length_eq.symm
  rw [heq]
  exact (hsub.flatMap f).length_le

theorem length_flatMap_le {α : Type} {as : List α} {f g : α → List UInt8}
    (h : ∀ a ∈ as, (f a).length ≤ (g a).length) :
    (as.flatMap f).length ≤ (as.flatMap g).length := by
  simp only [List.length_flatMap]
  exact List.sum_le_sum h

theorem Member.length_encode_mapBody_le {g : Record Int64 → Record Int64} {m : Member Int64}
    (h : (g m.routine.body).encode.length ≤ m.routine.body.encode.length) :
    (m.mapBody g).encode.length ≤ m.encode.length := by
  rw [Member.encode_eq, Member.encode_eq, Routine.encode_eq, Routine.encode_eq]
  simpa [Member.mapBody] using h

theorem Entry.length_encode_mapBodies_le {g : Record Int64 → Record Int64} {e : Entry Int64}
    (h : ∀ q ∈ e.bodies, (g q).encode.length ≤ q.encode.length) :
    (e.mapBodies g).encode.length ≤ e.encode.length := by
  cases e with
  | function r =>
    have hbody := h r.body (by simp [Entry.bodies])
    simp only [Entry.mapBodies, Entry.encode_function, Routine.encode_eq, List.length_cons,
      List.length_append]
    omega
  | «class» name members =>
    have hmembers : (members.flatMap fun m => (m.mapBody g).encode).length ≤
        (members.flatMap Member.encode).length :=
      length_flatMap_le fun m hm => Member.length_encode_mapBody_le (h _ (List.mem_map_of_mem hm))
    simp only [Entry.mapBodies, Entry.encode_class, List.length_cons, List.length_append,
      List.length_map, List.flatMap_map]
    omega

theorem Entry.length_encode_tabled_le (e : Entry Int64) : e.tabled.encode.length ≤ e.encode.length := by
  cases e with
  | function r => exact le_rfl
  | «class» name members =>
    have hmembers := length_flatMap_le_of_subperm Member.encode (Member.tabled_subperm members)
    simp only [Entry.tabled, Entry.encode_class, List.length_cons, List.length_append,
      length_countBytes]
    omega

theorem Record.length_encode_collapsed_le (r : Record Int64) :
    r.collapsed.encode.length ≤ r.encode.length := by
  induction r using Record.induction with
  | step r ih =>
    have hentries : (r.entries.flatMap fun e => (e.mapBodies Record.collapsed).tabled.encode).length ≤
        (r.entries.flatMap Entry.encode).length := by
      refine length_flatMap_le fun e he => (Entry.length_encode_tabled_le _).trans ?_
      exact Entry.length_encode_mapBodies_le fun q hq => ih q (List.mem_flatMap.mpr ⟨e, he, hq⟩)
    rw [Record.encode_eq, Record.encode_eq r]
    simp only [Record.chunk_collapsed, Record.entries_collapsed, List.length_append, List.length_map,
      List.flatMap_map]
    omega

end Bytecode.Wire
