-- SUMMARY: The records inside a record, how deep they lie, and changing them all.
import Mathlib
import Bytecode.Wire.Record

/-!
# Records inside records

The bodies of the functions and methods that a record declares are records again. `Record.bodies`
gives those right below a record, `Record.records` all of them, and `Record.height` the number of
records on the longest way down. Statements about a whole tree go by `Record.induction`, from the
bodies to the record that holds them.
-/

namespace Bytecode.Wire

variable {κ ν μ : Type}

/-- The bodies of what an entry declares. -/
def Entry.bodies : Entry κ → List (Record κ)
  | .function r => [r.body]
  | .class _ members => members.map (·.routine.body)

/-- The bodies of what a record declares. -/
def Record.bodies (r : Record κ) : List (Record κ) := r.entries.flatMap Entry.bodies

mutual

/-- A record and all records inside, each in front of those below it. -/
def Record.records : Record κ → List (Record κ)
  | ⟨chunk, entries⟩ => ⟨chunk, entries⟩ :: Entry.records entries

def Entry.records : List (Entry κ) → List (Record κ)
  | [] => []
  | .function r :: rest => Routine.records r ++ Entry.records rest
  | .class _ members :: rest => Member.records members ++ Entry.records rest

def Routine.records : Routine κ → List (Record κ)
  | ⟨body, _⟩ => Record.records body

def Member.records : List (Member κ) → List (Record κ)
  | [] => []
  | ⟨_, _, routine⟩ :: rest => Routine.records routine ++ Member.records rest

end

mutual

/-- The most records on a way down, the one at the top counted. -/
def Record.height : Record κ → Nat
  | ⟨_, entries⟩ => Entry.height entries + 1

def Entry.height : List (Entry κ) → Nat
  | [] => 0
  | .function r :: rest => max (Routine.height r) (Entry.height rest)
  | .class _ members :: rest => max (Member.height members) (Entry.height rest)

def Routine.height : Routine κ → Nat
  | ⟨body, _⟩ => Record.height body

def Member.height : List (Member κ) → Nat
  | [] => 0
  | ⟨_, _, routine⟩ :: rest => max (Routine.height routine) (Member.height rest)

end

theorem Member.records_eq (members : List (Member κ)) :
    Member.records members = members.flatMap fun m => m.routine.body.records := by
  induction members with
  | nil => rfl
  | cons m rest ih =>
    obtain ⟨_, _, _, _⟩ := m
    simp [Member.records, Routine.records, ih]

theorem Entry.records_eq (entries : List (Entry κ)) :
    Entry.records entries = entries.flatMap fun e => e.bodies.flatMap Record.records := by
  induction entries with
  | nil => rfl
  | cons e rest ih =>
    cases e with
    | function r =>
      obtain ⟨_, _⟩ := r
      simp [Entry.records, Routine.records, Entry.bodies, ih]
    | «class» name members =>
      simp [Entry.records, Member.records_eq, Entry.bodies, ih, List.flatMap_map]

theorem Record.records_eq (r : Record κ) : r.records = r :: r.bodies.flatMap Record.records := by
  obtain ⟨chunk, entries⟩ := r
  simp [Record.records, Entry.records_eq, Record.bodies, List.flatMap_assoc]

theorem Record.mem_records_self (r : Record κ) : r ∈ r.records := by
  rw [Record.records_eq]
  exact List.mem_cons_self

theorem Record.mem_records_of_body {r q p : Record κ} (hq : q ∈ r.bodies) (hp : p ∈ q.records) :
    p ∈ r.records := by
  rw [Record.records_eq]
  exact List.mem_cons_of_mem r (List.mem_flatMap.mpr ⟨q, hq, hp⟩)

theorem Member.height_le_iff {members : List (Member κ)} {n : Nat} :
    Member.height members ≤ n ↔ ∀ m ∈ members, m.routine.body.height ≤ n := by
  induction members with
  | nil => simp [Member.height]
  | cons m rest ih =>
    obtain ⟨_, _, _, _⟩ := m
    simp [Member.height, Routine.height, ih]

theorem Entry.height_le_iff {entries : List (Entry κ)} {n : Nat} :
    Entry.height entries ≤ n ↔ ∀ e ∈ entries, ∀ q ∈ e.bodies, q.height ≤ n := by
  induction entries with
  | nil => simp [Entry.height]
  | cons e rest ih =>
    cases e with
    | function r =>
      obtain ⟨_, _⟩ := r
      simp [Entry.height, Routine.height, Entry.bodies, ih]
    | «class» name members => simp [Entry.height, Member.height_le_iff, Entry.bodies, ih]

theorem Record.height_pos (r : Record κ) : 0 < r.height := by
  obtain ⟨_, _⟩ := r
  exact Nat.succ_pos _

theorem Record.height_le_succ_iff {r : Record κ} {n : Nat} :
    r.height ≤ n + 1 ↔ ∀ q ∈ r.bodies, q.height ≤ n := by
  obtain ⟨chunk, entries⟩ := r
  rw [Record.height, Nat.add_le_add_iff_right, Entry.height_le_iff, Record.bodies,
    List.forall_mem_flatMap]

/-- What holds of a record if it holds of its bodies holds of every record. -/
theorem Record.induction {P : Record κ → Prop} (step : ∀ r, (∀ q ∈ r.bodies, P q) → P r)
    (r : Record κ) : P r := by
  have hlevels : ∀ n (r : Record κ), r.height ≤ n → P r := by
    intro n
    induction n with
    | zero =>
      intro r h
      exact absurd r.height_pos (by omega)
    | succ n ih =>
      intro r h
      exact step r fun q hq => ih q (Record.height_le_succ_iff.mp h q hq)
  exact hlevels r.height r le_rfl

-- ---------------------------------------------------------------------------
-- Changing all chunks
-- ---------------------------------------------------------------------------

mutual

/-- Changes the chunks of a tree and keeps its shape. -/
def Record.mapChunks (f : Chunk κ → Chunk ν) : Record κ → Record ν
  | ⟨chunk, entries⟩ => ⟨f chunk, Entry.mapAll f entries⟩

def Entry.mapAll (f : Chunk κ → Chunk ν) : List (Entry κ) → List (Entry ν)
  | [] => []
  | .function r :: rest => .function (Routine.mapChunks f r) :: Entry.mapAll f rest
  | .class name members :: rest => .class name (Member.mapAll f members) :: Entry.mapAll f rest

def Routine.mapChunks (f : Chunk κ → Chunk ν) : Routine κ → Routine ν
  | ⟨body, params⟩ => ⟨Record.mapChunks f body, params⟩

def Member.mapAll (f : Chunk κ → Chunk ν) : List (Member κ) → List (Member ν)
  | [] => []
  | ⟨name, flags, routine⟩ :: rest =>
    ⟨name, flags, Routine.mapChunks f routine⟩ :: Member.mapAll f rest

end

/-- A method with another body. -/
def Member.mapBody (g : Record κ → Record ν) (m : Member κ) : Member ν :=
  ⟨m.name, m.flags, ⟨g m.routine.body, m.routine.params⟩⟩

/-- An entry with other bodies. -/
def Entry.mapBodies (g : Record κ → Record ν) : Entry κ → Entry ν
  | .function r => .function ⟨g r.body, r.params⟩
  | .class name members => .class name (members.map (Member.mapBody g))

theorem Entry.bodies_mapBodies (g : Record κ → Record ν) (e : Entry κ) :
    (e.mapBodies g).bodies = e.bodies.map g := by
  cases e <;> simp [Entry.mapBodies, Entry.bodies, Member.mapBody]

theorem Entry.mapBodies_mapBodies (g : Record κ → Record ν) (h : Record ν → Record μ)
    (e : Entry κ) : (e.mapBodies g).mapBodies h = e.mapBodies fun q => h (g q) := by
  cases e <;> simp [Entry.mapBodies, Member.mapBody]

theorem Entry.mapBodies_congr {g h : Record κ → Record ν} {e : Entry κ}
    (heq : ∀ q ∈ e.bodies, g q = h q) : e.mapBodies g = e.mapBodies h := by
  cases e with
  | function r => simp [Entry.mapBodies, heq r.body (by simp [Entry.bodies])]
  | «class» name members =>
    simp only [Entry.mapBodies, Entry.class.injEq, true_and]
    refine List.map_congr_left fun m hm => ?_
    rw [Member.mapBody, Member.mapBody, heq m.routine.body (List.mem_map_of_mem hm)]

theorem Entry.mapBodies_eq_self {g : Record κ → Record κ} {e : Entry κ}
    (heq : ∀ q ∈ e.bodies, g q = q) : e.mapBodies g = e := by
  cases e with
  | function r =>
    obtain ⟨q, params⟩ := r
    simp [Entry.mapBodies, heq q (by simp [Entry.bodies])]
  | «class» name members =>
    simp only [Entry.mapBodies, Entry.class.injEq, true_and]
    refine (List.map_congr_left fun m hm => ?_).trans (List.map_id members)
    obtain ⟨name, flags, q, params⟩ := m
    have hq : g q = q := heq q (List.mem_map_of_mem hm)
    simp [Member.mapBody, hq]

theorem Member.mapAll_eq (f : Chunk κ → Chunk ν) (members : List (Member κ)) :
    Member.mapAll f members = members.map (Member.mapBody (Record.mapChunks f)) := by
  induction members with
  | nil => rfl
  | cons m rest ih =>
    obtain ⟨_, _, _, _⟩ := m
    simp [Member.mapAll, Routine.mapChunks, Member.mapBody, ih]

theorem Entry.mapAll_eq (f : Chunk κ → Chunk ν) (entries : List (Entry κ)) :
    Entry.mapAll f entries = entries.map (Entry.mapBodies (Record.mapChunks f)) := by
  induction entries with
  | nil => rfl
  | cons e rest ih =>
    cases e with
    | function r =>
      obtain ⟨_, _⟩ := r
      simp [Entry.mapAll, Routine.mapChunks, Entry.mapBodies, ih]
    | «class» name members => simp [Entry.mapAll, Member.mapAll_eq, Entry.mapBodies, ih]

section MapChunks

variable (f : Chunk κ → Chunk ν)

@[simp] theorem Record.chunk_mapChunks (r : Record κ) : (r.mapChunks f).chunk = f r.chunk := by
  obtain ⟨_, _⟩ := r
  rfl

@[simp] theorem Record.entries_mapChunks (r : Record κ) :
    (r.mapChunks f).entries = r.entries.map (Entry.mapBodies (Record.mapChunks f)) := by
  obtain ⟨_, _⟩ := r
  exact Entry.mapAll_eq f _

theorem Record.ext {r q : Record κ} (hchunk : r.chunk = q.chunk) (hentries : r.entries = q.entries) :
    r = q := by
  obtain ⟨_, _⟩ := r
  obtain ⟨_, _⟩ := q
  cases hchunk
  cases hentries
  rfl

@[simp] theorem Record.bodies_mapChunks (r : Record κ) :
    (r.mapChunks f).bodies = r.bodies.map (Record.mapChunks f) := by
  simp [Record.bodies, List.flatMap_map, Entry.bodies_mapBodies, List.map_flatMap]

theorem Record.records_mapChunks (r : Record κ) :
    (r.mapChunks f).records = r.records.map (Record.mapChunks f) := by
  induction r using Record.induction with
  | step r ih =>
    rw [Record.records_eq, Record.records_eq r, Record.bodies_mapChunks, List.map_cons,
      List.flatMap_map, List.map_flatMap]
    congr 1
    exact List.flatMap_congr ih

theorem Record.height_mapChunks_le_iff {r : Record κ} {n : Nat} :
    (r.mapChunks f).height ≤ n ↔ r.height ≤ n := by
  induction n generalizing r with
  | zero => simp [Nat.not_le.mpr (Record.height_pos _)]
  | succ n ih => simp [Record.height_le_succ_iff, ih]

end MapChunks

theorem Record.mapChunks_congr {f g : Chunk κ → Chunk ν} {r : Record κ}
    (h : ∀ q ∈ r.records, f q.chunk = g q.chunk) : r.mapChunks f = r.mapChunks g := by
  induction r using Record.induction with
  | step r ih =>
    have hbody : ∀ q ∈ r.bodies, q.mapChunks f = q.mapChunks g := fun q hq =>
      ih q hq fun p hp => h p (Record.mem_records_of_body hq hp)
    refine Record.ext ?_ ?_
    · simpa using h r r.mem_records_self
    · rw [Record.entries_mapChunks, Record.entries_mapChunks]
      refine List.map_congr_left fun e he => Entry.mapBodies_congr fun q hq => hbody q ?_
      exact List.mem_flatMap.mpr ⟨e, he, hq⟩

theorem Record.mapChunks_eq_iff {f g : Chunk κ → Chunk ν} {r : Record κ} :
    r.mapChunks f = r.mapChunks g ↔ ∀ q ∈ r.records, f q.chunk = g q.chunk := by
  refine ⟨fun h q hq => ?_, Record.mapChunks_congr⟩
  have hrecords : r.records.map (Record.mapChunks f) = r.records.map (Record.mapChunks g) := by
    rw [← Record.records_mapChunks, ← Record.records_mapChunks, h]
  have hq := congrArg Record.chunk (List.map_inj_left.mp hrecords q hq)
  simpa using hq

theorem Record.mapChunks_mapChunks (f : Chunk κ → Chunk ν) (g : Chunk ν → Chunk μ) (r : Record κ) :
    (r.mapChunks f).mapChunks g = r.mapChunks fun c => g (f c) := by
  induction r using Record.induction with
  | step r ih =>
    refine Record.ext (by simp) ?_
    simp only [Record.entries_mapChunks, List.map_map]
    refine List.map_congr_left fun e he => ?_
    rw [Function.comp, Entry.mapBodies_mapBodies]
    exact Entry.mapBodies_congr fun q hq => ih q (List.mem_flatMap.mpr ⟨e, he, hq⟩)

theorem Record.mapChunks_eq_self {f : Chunk κ → Chunk κ} {r : Record κ}
    (h : ∀ q ∈ r.records, f q.chunk = q.chunk) : r.mapChunks f = r := by
  induction r using Record.induction with
  | step r ih =>
    refine Record.ext (by simpa using h r r.mem_records_self) ?_
    rw [Record.entries_mapChunks]
    refine (List.map_congr_left fun e he => ?_).trans (List.map_id r.entries)
    refine Entry.mapBodies_eq_self fun q hq => ?_
    have hbody : q ∈ r.bodies := List.mem_flatMap.mpr ⟨e, he, hq⟩
    exact ih q hbody fun p hp => h p (Record.mem_records_of_body hbody hp)

end Bytecode.Wire
