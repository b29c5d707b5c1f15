-- SUMMARY: What of a block tree a buffer says, as a block tree again.
import Bytecode.Proofs.Wire.RecordBlock

/-!
# Stripped block trees

Stripping a block tree takes away what is not on the wire: the defaults and type hints of parameters,
captures, and everything in the header of a class but its name. Owners are as they are for loaded
blocks. `Block.strippedWith` also changes the chunks, for writers that do not keep them as they are.
-/

namespace Bytecode

/-- The parameter with its name and kind alone. -/
def Param.bare (p : Param) : Param := { name := p.name, kind := p.kind }

section Strip

variable (f : Chunk Value → Chunk Value)

mutual

/-- The tree with changed chunks and without what is not on the wire. -/
def Block.strippedWith (owner : Option String) : Block → Block
  | ⟨chunk, _, decls⟩ => { chunk := f chunk, owner, decls := Decl.stripAll decls }

def Decl.stripAll : List Decl → List Decl
  | [] => []
  | .function g :: rest => .function (Function.strippedWith none g) :: Decl.stripAll rest
  | .class c :: rest => .class (Class.strippedWith c) :: Decl.stripAll rest

def Function.strippedWith (owner : Option String) : Function → Function
  | ⟨signature, body⟩ =>
    { signature := { params := signature.params.map Param.bare }
      body := Block.strippedWith owner body }

def Class.strippedWith : Class → Class
  | ⟨header, methods⟩ =>
    { header := { name := header.name }, methods := Method.stripAll header.name methods }

def Method.stripAll (owner : String) : List (String × Method) → List (String × Method)
  | [] => []
  | (name, ⟨flags, function⟩) :: rest =>
    (name, ⟨flags, Function.strippedWith (some owner) function⟩) :: Method.stripAll owner rest

end

def Decl.strippedWith : Decl → Decl
  | .function g => .function (g.strippedWith f none)
  | .class c => .class (c.strippedWith f)

def Method.strippedWith (owner : String) (m : Method) : Method :=
  ⟨m.flags, m.function.strippedWith f (some owner)⟩

theorem Decl.stripAll_eq (decls : List Decl) :
    Decl.stripAll f decls = decls.map (Decl.strippedWith f) := by
  induction decls with
  | nil => rfl
  | cons d rest ih => cases d <;> simp [Decl.stripAll, Decl.strippedWith, ih]

theorem Method.stripAll_eq (owner : String) (methods : List (String × Method)) :
    Method.stripAll f owner methods = Table.mapValues (Method.strippedWith f owner) methods := by
  induction methods with
  | nil => rfl
  | cons m rest ih =>
    obtain ⟨_, _, _⟩ := m
    rw [Method.stripAll, ih]
    rfl

@[simp] theorem Block.chunk_strippedWith (owner : Option String) (b : Block) :
    (b.strippedWith f owner).chunk = f b.chunk := by
  obtain ⟨_, _, _⟩ := b
  rfl

@[simp] theorem Block.owner_strippedWith (owner : Option String) (b : Block) :
    (b.strippedWith f owner).owner = owner := by
  obtain ⟨_, _, _⟩ := b
  rfl

@[simp] theorem Block.decls_strippedWith (owner : Option String) (b : Block) :
    (b.strippedWith f owner).decls = b.decls.map (Decl.strippedWith f) := by
  obtain ⟨_, _, _⟩ := b
  exact Decl.stripAll_eq f _

theorem Function.strippedWith_eq (owner : Option String) (g : Function) :
    g.strippedWith f owner =
      ⟨{ params := g.signature.params.map Param.bare }, g.body.strippedWith f owner⟩ := by
  obtain ⟨_, _⟩ := g
  rfl

theorem Class.strippedWith_eq (c : Class) :
    c.strippedWith f = ⟨{ name := c.header.name },
      Table.mapValues (Method.strippedWith f c.header.name) c.methods⟩ := by
  obtain ⟨header, methods⟩ := c
  rw [Class.strippedWith, Method.stripAll_eq]

end Strip

/-- The tree without what is not on the wire. -/
def Block.stripped (owner : Option String) (b : Block) : Block := b.strippedWith (fun c => c) owner

variable {f : Chunk Value → Chunk Value}

theorem Class.method?_strippedWith (c : Class) (name : String) :
    (c.strippedWith f).method? name =
      (c.method? name).map (Method.strippedWith f c.header.name) := by
  rw [Class.strippedWith_eq]
  exact Table.find?_mapValues _ c.methods name

/-- A stripped class makes its objects with the constructor that it had. -/
theorem Class.constructor?_strippedWith (c : Class) :
    (c.strippedWith f).constructor? = c.constructor?.map (Method.strippedWith f c.header.name) :=
  c.method?_strippedWith constructorName

theorem Function.routine_strippedWith (owner : Option String) (h : Function) :
    (h.strippedWith f owner).routine = ⟨(h.body.strippedWith f owner).record, h.routine.params⟩ := by
  refine Wire.Routine.ext ?_ ?_
  · rw [Function.body_routine, Function.strippedWith_eq]
  · rw [Function.params_routine, Function.params_routine, Function.strippedWith_eq]
    simp [Param.bare, Param.entry]

theorem Decl.entry_strippedWith {d : Decl} {change : Wire.Record Value → Wire.Record Value}
    (h : ∀ owner, ∀ c ∈ d.bodies, (c.strippedWith f owner).record = change c.record) :
    (d.strippedWith f).entry = d.entry.mapBodies change := by
  cases d with
  | function g =>
    have hbody := h none g.body (by simp [Decl.bodies])
    simp only [Decl.strippedWith, Decl.entry, Function.routine_strippedWith, Wire.Entry.mapBodies,
      Function.body_routine, hbody]
  | «class» c =>
    simp only [Decl.strippedWith, Decl.entry, Class.entry_eq, Class.strippedWith_eq,
      Table.mapValues, Wire.Entry.mapBodies, List.map_map]
    congr 1
    refine List.map_congr_left fun m hm => ?_
    have hbody := h (some c.header.name) m.2.function.body (List.mem_map_of_mem hm)
    simp only [Function.comp, Method.member, Method.strippedWith, Function.routine_strippedWith,
      Wire.Member.mapBody, Function.body_routine, hbody]

theorem Block.record_strippedWith (owner : Option String) (b : Block) :
    (b.strippedWith f owner).record = b.record.mapChunks f := by
  induction b using Block.induction generalizing owner with
  | step b ih =>
    refine Wire.Record.ext (by simp) ?_
    rw [Block.entries_record, Block.decls_strippedWith, Wire.Record.entries_mapChunks,
      Block.entries_record, List.map_map, List.map_map]
    refine List.map_congr_left fun d hd => Decl.entry_strippedWith fun owner c hc => ?_
    exact ih c (List.mem_flatMap.mpr ⟨d, hd, hc⟩) owner

-- ---------------------------------------------------------------------------
-- Assembled classes
-- ---------------------------------------------------------------------------

/-- The methods of the class were put together by name. -/
def Class.Assembled (c : Class) : Prop := ∃ methods, c = Class.ofMethods c.header methods

theorem Class.assembled_ofMethods (header : ClassHeader) (methods : List (String × Method)) :
    (Class.ofMethods header methods).Assembled := ⟨methods, rfl⟩

theorem Class.Assembled.nodup_keys {c : Class} (h : c.Assembled) : (Table.keys c.methods).Nodup := by
  obtain ⟨methods, hc⟩ := h
  rw [hc]
  exact Table.nodup_keys_ofList methods

theorem Class.member_class_mapBody {c : Class} {change : Wire.Record Value → Wire.Record Value}
    (hassembled : c.Assembled)
    (h : ∀ b ∈ (Decl.class c).bodies,
      (change b.record).block (some c.header.name) = b.strippedWith f (some c.header.name)) :
    Wire.Member.class c.header.name
      ((c.methods.map Method.member).map (Wire.Member.mapBody change)) = c.strippedWith f := by
  have hmethods : Wire.Member.methods c.header.name
      ((c.methods.map Method.member).map (Wire.Member.mapBody change)) =
        Table.mapValues (Method.strippedWith f c.header.name) c.methods := by
    rw [Wire.Member.methods_eq]
    simp only [Table.mapValues, List.map_map]
    refine List.map_congr_left fun m hm => ?_
    have hbody := h m.2.function.body (List.mem_map_of_mem hm)
    simp [Method.member, Wire.Member.mapBody, Wire.Member.item, Wire.methodOf, hbody,
      Wire.Routine.function_eq, Method.strippedWith, Function.strippedWith_eq, Param.entry,
      Param.bare, Function.comp_def]
  have hnodup : (Table.keys (Table.mapValues (Method.strippedWith f c.header.name)
      c.methods)).Nodup := by
    rw [Table.keys_mapValues]
    exact hassembled.nodup_keys
  rw [Wire.Member.class, hmethods, Class.ofMethods, Table.ofList_of_nodup hnodup,
    Class.strippedWith_eq]

theorem Decl.decl_entry_mapBodies {d : Decl} {change : Wire.Record Value → Wire.Record Value}
    (hassembled : ∀ c, d = .class c → c.Assembled)
    (h : ∀ owner, ∀ b ∈ d.bodies, (change b.record).block owner = b.strippedWith f owner) :
    (d.entry.mapBodies change).decl = d.strippedWith f := by
  cases d with
  | function g =>
    have hbody := h none g.body (by simp [Decl.bodies])
    simp [Decl.entry, Wire.Entry.mapBodies, Wire.Entry.decl, Wire.Routine.function_eq, hbody,
      Decl.strippedWith, Function.strippedWith_eq, Param.entry, Param.bare, Function.comp_def]
  | «class» c =>
    simp only [Decl.entry, Class.entry_eq, Wire.Entry.mapBodies, Wire.Entry.decl,
      Decl.strippedWith]
    rw [Class.member_class_mapBody (hassembled c rfl) (h (some c.header.name))]

/-- The block of a record with changed chunks is the stripped block with changed chunks. -/
theorem Block.block_record_mapChunks {owner : Option String} {b : Block}
    (h : ∀ d ∈ b.blocks, ∀ c, Decl.class c ∈ d.decls → c.Assembled) :
    (b.record.mapChunks f).block owner = b.strippedWith f owner := by
  induction b using Block.induction generalizing owner with
  | step b ih =>
    refine Block.ext (by simp) (by simp) ?_
    rw [Wire.Record.decls_block, Wire.Record.entries_mapChunks, Block.entries_record,
      Block.decls_strippedWith, List.map_map, List.map_map]
    refine List.map_congr_left fun d hd => ?_
    refine Decl.decl_entry_mapBodies (fun c hc => h b b.mem_blocks_self c (hc ▸ hd)) ?_
    intro owner body hbody
    have hmem : body ∈ b.bodies := List.mem_flatMap.mpr ⟨d, hd, hbody⟩
    exact ih body hmem fun e he => h e (Block.mem_blocks_of_body hmem he)

end Bytecode
