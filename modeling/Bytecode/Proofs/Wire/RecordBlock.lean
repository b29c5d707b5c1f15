-- SUMMARY: From records to blocks and back: what a block keeps of the record that it was made from.
import Bytecode.Proofs.BlockTree
import Bytecode.Proofs.Wire.Collapse

/-!
# Blocks of records

The record of the block of a record is the collapsed record, whatever the owner. Nothing else is
lost: records that collapse to the same one stand for the same block.
-/

namespace Bytecode

theorem Block.ext {b c : Block} (hchunk : b.chunk = c.chunk) (howner : b.owner = c.owner)
    (hdecls : b.decls = c.decls) : b = c := by
  obtain ⟨_, _, _⟩ := b
  obtain ⟨_, _, _⟩ := c
  cases hchunk
  cases howner
  cases hdecls
  rfl

namespace Wire

/-- The method of a name as its setting on the wire says. -/
def methodOf (owner : String) (item : AccessFlags × Routine Value) : Method :=
  ⟨item.1, item.2.function (some owner)⟩

/-- The declaration that an entry stands for. -/
def Entry.decl : Entry Value → Decl
  | .function r => .function (r.function none)
  | .class name members => .class (Member.class name members)

theorem Member.methods_eq (owner : String) (members : List (Member Value)) :
    Member.methods owner members = Table.mapValues (methodOf owner) (members.map Member.item) := by
  induction members with
  | nil => rfl
  | cons m rest ih =>
    obtain ⟨_, _, _⟩ := m
    rw [Member.methods, ih]
    rfl

theorem Entry.decls_eq (entries : List (Entry Value)) :
    Entry.decls entries = entries.map Entry.decl := by
  induction entries with
  | nil => rfl
  | cons e rest ih =>
    cases e <;> simp [Entry.decls, Entry.decl, Member.class, ih]

theorem Routine.function_eq (owner : Option String) (r : Routine Value) :
    r.function owner =
      ⟨{ params := r.params.map fun (name, kind) => { name, kind } }, r.body.block owner⟩ := by
  obtain ⟨_, _⟩ := r
  rfl

@[simp] theorem Record.chunk_block (owner : Option String) (r : Record Value) :
    (r.block owner).chunk = r.chunk := by
  obtain ⟨_, _⟩ := r
  rfl

@[simp] theorem Record.owner_block (owner : Option String) (r : Record Value) :
    (r.block owner).owner = owner := by
  obtain ⟨_, _⟩ := r
  rfl

@[simp] theorem Record.decls_block (owner : Option String) (r : Record Value) :
    (r.block owner).decls = r.entries.map Entry.decl := by
  obtain ⟨_, _⟩ := r
  exact Entry.decls_eq _

theorem Routine.ext {κ : Type} {r q : Routine κ} (hbody : r.body = q.body)
    (hparams : r.params = q.params) : r = q := by
  obtain ⟨_, _⟩ := r
  obtain ⟨_, _⟩ := q
  cases hbody
  cases hparams
  rfl

theorem Routine.routine_function (owner : Option String) (r : Routine Value) :
    (r.function owner).routine = ⟨(r.body.block owner).record, r.params⟩ := by
  refine Routine.ext ?_ ?_
  · rw [Function.body_routine, Routine.function_eq]
  · rw [Function.params_routine, Routine.function_eq]
    simp [Param.entry, Function.comp_def]

theorem Member.member_methodOf (owner : String) (item : String × (AccessFlags × Routine Value)) :
    Method.member (item.1, methodOf owner item.2) =
      (Member.ofItem item).mapBody fun q => (q.block (some owner)).record := by
  simp [Method.member, methodOf, Routine.routine_function, Member.mapBody, Member.ofItem]

theorem Member.entry_class (name : String) (members : List (Member Value)) :
    (Member.class name members).entry = (Entry.class name members).tabled.mapBodies
      fun q => (q.block (some name)).record := by
  rw [Class.entry_eq, Member.class, Class.ofMethods, Member.methods_eq, ← Table.mapValues_ofList]
  simp only [Entry.tabled, Entry.mapBodies, Member.tabled, Table.mapValues, List.map_map]
  congr 1
  exact List.map_congr_left fun item _ => Member.member_methodOf name item

theorem Entry.entry_decl {e : Entry Value} {g : Record Value → Record Value}
    (h : ∀ owner, ∀ q ∈ e.bodies, (q.block owner).record = g q) :
    e.decl.entry = (e.mapBodies g).tabled := by
  cases e with
  | function r =>
    have hbody := h none r.body (by simp [Entry.bodies])
    simp only [Entry.decl, Decl.entry, Routine.routine_function, hbody]
    rfl
  | «class» name members =>
    rw [Entry.decl, Decl.entry, Member.entry_class, Entry.tabled_mapBodies]
    exact Entry.mapBodies_congr fun q hq => h (some name) q (Entry.mem_bodies_of_tabled hq)

theorem Record.record_block (owner : Option String) (r : Record Value) :
    (r.block owner).record = r.collapsed := by
  induction r using Record.induction generalizing owner with
  | step r ih =>
    refine Record.ext (by simp) ?_
    rw [Block.entries_record, Record.decls_block, Record.entries_collapsed, List.map_map]
    refine List.map_congr_left fun e he => Entry.entry_decl fun owner q hq => ?_
    exact ih q (List.mem_flatMap.mpr ⟨e, he, hq⟩) owner

theorem Member.class_tabled (name : String) (members : List (Member Value)) :
    Member.class name (Member.tabled members) = Member.class name members := by
  simp only [Member.class, Class.ofMethods, Member.methods_eq, Member.map_item_tabled]
  rw [← Table.mapValues_ofList, Table.ofList_ofList, Table.mapValues_ofList]

theorem Entry.decl_tabled (e : Entry Value) : e.tabled.decl = e.decl := by
  cases e with
  | function r => rfl
  | «class» name members => simp only [Entry.tabled, Entry.decl, Member.class_tabled]

theorem Entry.decl_mapBodies {e : Entry Value} {g : Record Value → Record Value}
    (h : ∀ owner, ∀ q ∈ e.bodies, (g q).block owner = q.block owner) :
    (e.mapBodies g).decl = e.decl := by
  cases e with
  | function r =>
    have hbody := h none r.body (by simp [Entry.bodies])
    simp only [Entry.mapBodies, Entry.decl, Routine.function_eq, hbody]
  | «class» name members =>
    simp only [Entry.mapBodies, Entry.decl, Member.class, Member.methods_eq, Table.mapValues,
      List.map_map]
    congr 2
    refine List.map_congr_left fun m hm => ?_
    have hbody := h (some name) m.routine.body (List.mem_map_of_mem hm)
    simp only [Function.comp, Member.item, Member.mapBody, methodOf, Routine.function_eq, hbody]

theorem Record.block_collapsed (owner : Option String) (r : Record Value) :
    r.collapsed.block owner = r.block owner := by
  induction r using Record.induction generalizing owner with
  | step r ih =>
    refine Block.ext (by simp) (by simp) ?_
    rw [Record.decls_block, Record.decls_block, Record.entries_collapsed, List.map_map]
    refine List.map_congr_left fun e he => ?_
    rw [Function.comp, Entry.decl_tabled]
    exact Entry.decl_mapBodies fun owner q hq => ih q (List.mem_flatMap.mpr ⟨e, he, hq⟩) owner

end Wire

end Bytecode
