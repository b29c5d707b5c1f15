-- SUMMARY: Where the blocks of a loaded tree lie, which classes own them, and which methods are constructors.
import Bytecode.Proofs.Stripped
import Bytecode.Proofs.Wire.Loading
import Bytecode.Proofs.Wire.Traversal

/-!
# Owners and constructors

A way down leads from block to block, and on the wire from record to record; of several methods of one
name it takes the last. The block at the end of a way belongs to a class if and only if the last step
goes into a method, and then to the class that this step goes through. The constructor of a class is
found like any other method: by its name alone.
-/

namespace Bytecode

/-- A step down from a block: the place of a declaration in it and, if that is a class, a method. -/
structure Block.Step where
  index : Nat
  method : Option String := none
  deriving DecidableEq

/-- The body of a function, or of a method of a class. -/
def Decl.body? : Decl → Option String → Option Block
  | .function f, none => some f.body
  | .class c, some name => (c.method? name).map (·.function.body)
  | _, _ => none

/-- The block that a step leads to. -/
def Block.child? (b : Block) (step : Block.Step) : Option Block :=
  b.decls[step.index]?.bind (·.body? step.method)

/-- The block at the end of a way down. -/
def Block.at? (t : Block) : List Block.Step → Option Block
  | [] => some t
  | step :: way => (t.child? step).bind (·.at? way)

namespace Wire

variable {κ : Type}

/-- The last of the members with a name. -/
def Member.last? (name : String) (members : List (Member κ)) : Option (Member κ) :=
  members.reverse.find? fun m => m.name = name

/-- The body of a function, or of the last method of a name with the class that it is in. -/
def Entry.body? : Entry κ → Option String → Option (Option String × Record κ)
  | .function r, none => some (none, r.body)
  | .class name members, some method =>
    (Member.last? method members).map fun m => (some name, m.routine.body)
  | _, _ => none

/-- The record that a step leads to, with the class whose method it is. -/
def Record.child? (r : Record κ) (step : Block.Step) : Option (Option String × Record κ) :=
  r.entries[step.index]?.bind (·.body? step.method)

/-- The record at the end of a way down, with the class whose method it is. -/
def Record.at? (owner : Option String) (r : Record κ) :
    List Block.Step → Option (Option String × Record κ)
  | [] => some (owner, r)
  | step :: way => (r.child? step).bind fun place => place.2.at? place.1 way

theorem Member.last?_eq_some_iff {name : String} {members : List (Member κ)} {m : Member κ} :
    Member.last? name members = some m ↔ m.name = name ∧
      ∃ before after, members = before ++ m :: after ∧ ∀ n ∈ after, n.name ≠ name := by
  rw [Member.last?, List.find?_eq_some_iff_append, decide_eq_true_iff]
  refine and_congr_right fun _ => ⟨?_, ?_⟩
  · rintro ⟨as, bs, hmembers, has⟩
    refine ⟨bs.reverse, as.reverse, ?_, fun n hn => ?_⟩
    · rw [← List.reverse_reverse members, hmembers]
      simp
    · simpa using has n (List.mem_reverse.mp hn)
  · rintro ⟨before, after, rfl, hafter⟩
    refine ⟨after.reverse, before.reverse, by simp, fun n hn => ?_⟩
    simpa using hafter n (List.mem_reverse.mp hn)

theorem Member.isSome_last?_iff {name : String} {members : List (Member κ)} :
    (Member.last? name members).isSome ↔ ∃ m ∈ members, m.name = name := by
  simp [Member.last?]

-- ---------------------------------------------------------------------------
-- Blocks of records
-- ---------------------------------------------------------------------------

/-- A class has of each name the last method that is listed for it. -/
theorem Member.method?_class (name method : String) (members : List (Member Value)) :
    (Member.class name members).method? method =
      (Member.last? method members).map fun m => methodOf name (m.flags, m.routine) := by
  rw [Member.class, Class.method?, Class.ofMethods, Member.methods_eq, ← Table.mapValues_ofList,
    Table.find?_mapValues, Table.find?_ofList, ← List.map_reverse, List.find?_map, Option.map_map,
    Option.map_map]
  rfl

theorem Entry.body?_decl (e : Entry Value) (method : Option String) :
    e.decl.body? method = (e.body? method).map fun place => place.2.block place.1 := by
  cases e with
  | function r => cases method <;> simp [Entry.decl, Decl.body?, Entry.body?, Routine.function_eq]
  | «class» name members =>
    cases method with
    | none => rfl
    | some key =>
      simp [Entry.decl, Decl.body?, Entry.body?, Member.method?_class, methodOf,
        Routine.function_eq, Function.comp_def]

theorem Record.child?_block (owner : Option String) (r : Record Value) (step : Block.Step) :
    (r.block owner).child? step = (r.child? step).map fun place => place.2.block place.1 := by
  rw [Block.child?, Record.child?, Record.decls_block, List.getElem?_map, Option.bind_map,
    Option.map_bind]
  exact Option.bind_congr fun e _ => e.body?_decl step.method

/-- Every way through a tree is a way through its record. -/
theorem Record.at?_block (owner : Option String) (r : Record Value) (way : List Block.Step) :
    (r.block owner).at? way = (r.at? owner way).map fun place => place.2.block place.1 := by
  induction way generalizing owner r with
  | nil => rfl
  | cons step way ih =>
    rw [Block.at?, Record.at?, Record.child?_block, Option.bind_map, Option.map_bind]
    exact Option.bind_congr fun place _ => ih place.1 place.2

theorem Entry.exists_of_mem_bodies_decl {e : Entry Value} {b : Block} (h : b ∈ e.decl.bodies) :
    ∃ q ∈ e.bodies, ∃ owner, b = q.block owner := by
  cases e with
  | function r =>
    refine ⟨r.body, List.mem_singleton_self _, none, ?_⟩
    rw [Entry.decl, Decl.bodies, List.mem_singleton, Routine.function_eq] at h
    exact h
  | «class» name members =>
    rw [Entry.decl, Decl.bodies, Member.class, Class.ofMethods, Member.methods_eq, List.mem_map] at h
    obtain ⟨method, hmethod, rfl⟩ := h
    have hlisted := (Table.ofList_subperm _).subset hmethod
    simp only [Table.mapValues, List.map_map, List.mem_map] at hlisted
    obtain ⟨m, hm, rfl⟩ := hlisted
    refine ⟨m.routine.body, List.mem_map_of_mem hm, some name, ?_⟩
    simp [Member.item, methodOf, Routine.function_eq]

theorem Record.exists_of_mem_blocks {owner : Option String} {r : Record Value} {b : Block}
    (h : b ∈ (r.block owner).blocks) : ∃ q owner', b = Record.block owner' q := by
  induction r using Record.induction generalizing owner with
  | step r ih =>
    rw [Block.blocks_eq, List.mem_cons, List.mem_flatMap] at h
    rcases h with rfl | ⟨c, hc, hb⟩
    · exact ⟨r, owner, rfl⟩
    · obtain ⟨d, hd, hcd⟩ := List.mem_flatMap.mp hc
      rw [Record.decls_block, List.mem_map] at hd
      obtain ⟨e, he, rfl⟩ := hd
      obtain ⟨q, hq, owner', rfl⟩ := Entry.exists_of_mem_bodies_decl hcd
      exact ih q (List.mem_flatMap.mpr ⟨e, he, hq⟩) hb

theorem Record.assembled_block {owner : Option String} {r : Record Value} {b : Block}
    (h : b ∈ (r.block owner).blocks) {c : Class} (hc : Decl.class c ∈ b.decls) : c.Assembled := by
  obtain ⟨q, owner', rfl⟩ := Record.exists_of_mem_blocks h
  rw [Record.decls_block, List.mem_map] at hc
  obtain ⟨e, -, he⟩ := hc
  cases e with
  | function f => cases he
  | «class» name members =>
    cases he
    exact Class.assembled_ofMethods _ _

end Wire

-- ---------------------------------------------------------------------------
-- Ways down
-- ---------------------------------------------------------------------------

theorem Block.at?_concat (t : Block) (way : List Block.Step) (step : Block.Step) :
    t.at? (way ++ [step]) = (t.at? way).bind (·.child? step) := by
  induction way generalizing t with
  | nil => simp [Block.at?]
  | cons first way ih =>
    rw [List.cons_append, Block.at?, Block.at?, Option.bind_assoc]
    exact Option.bind_congr fun b _ => ih b

theorem Decl.mem_bodies_iff {d : Decl} (h : ∀ c, d = .class c → c.Assembled) {b : Block} :
    b ∈ d.bodies ↔ ∃ method, d.body? method = some b := by
  cases d with
  | function f =>
    constructor
    · intro hb
      exact ⟨none, congrArg some (List.mem_singleton.mp hb).symm⟩
    · rintro ⟨_ | key, hb⟩
      · exact List.mem_singleton.mpr (Option.some.inj hb).symm
      · cases hb
  | «class» c =>
    have hfind : ∀ {key m}, c.method? key = some m ↔ (key, m) ∈ c.methods :=
      Table.find?_eq_some_iff_of_nodup (h c rfl).nodup_keys
    constructor
    · intro hb
      obtain ⟨⟨key, m⟩, hm, rfl⟩ := List.mem_map.mp hb
      exact ⟨some key, by rw [Decl.body?, hfind.mpr hm]; rfl⟩
    · rintro ⟨_ | key, hb⟩
      · cases hb
      · obtain ⟨m, hm, rfl⟩ := Option.map_eq_some_iff.mp hb
        exact List.mem_map.mpr ⟨(key, m), hfind.mp hm, rfl⟩

theorem Block.mem_bodies_iff {t b : Block} (h : ∀ c, Decl.class c ∈ t.decls → c.Assembled) :
    b ∈ t.bodies ↔ ∃ step, t.child? step = some b := by
  constructor
  · intro hb
    obtain ⟨d, hd, hbody⟩ := List.mem_flatMap.mp hb
    obtain ⟨i, hi⟩ := List.mem_iff_getElem?.mp hd
    obtain ⟨method, hmethod⟩ := (Decl.mem_bodies_iff fun c hc => h c (hc ▸ hd)).mp hbody
    exact ⟨⟨i, method⟩, Option.bind_eq_some_iff.mpr ⟨d, hi, hmethod⟩⟩
  · rintro ⟨⟨i, method⟩, hstep⟩
    obtain ⟨d, hi, hmethod⟩ := Option.bind_eq_some_iff.mp hstep
    have hd : d ∈ t.decls := List.mem_of_getElem? hi
    exact List.mem_flatMap.mpr
      ⟨d, hd, (Decl.mem_bodies_iff fun c hc => h c (hc ▸ hd)).mpr ⟨method, hmethod⟩⟩

/-- The blocks of a tree are those at the ends of ways down. -/
theorem Block.mem_blocks_iff {t b : Block}
    (h : ∀ d ∈ t.blocks, ∀ c, Decl.class c ∈ d.decls → c.Assembled) :
    b ∈ t.blocks ↔ ∃ way, t.at? way = some b := by
  induction t using Block.induction with
  | step t ih =>
    have hbodies := fun {c : Block} => Block.mem_bodies_iff (b := c) (h t t.mem_blocks_self)
    rw [Block.blocks_eq, List.mem_cons, List.mem_flatMap]
    constructor
    · rintro (rfl | ⟨c, hc, hb⟩)
      · exact ⟨[], rfl⟩
      · obtain ⟨step, hstep⟩ := hbodies.mp hc
        obtain ⟨way, hway⟩ := (ih c hc fun d hd => h d (Block.mem_blocks_of_body hc hd)).mp hb
        exact ⟨step :: way, Option.bind_eq_some_iff.mpr ⟨c, hstep, hway⟩⟩
    · rintro ⟨_ | ⟨step, way⟩, hway⟩
      · exact .inl (Option.some.inj hway).symm
      · obtain ⟨c, hstep, hb⟩ := Option.bind_eq_some_iff.mp hway
        have hc := hbodies.mpr ⟨step, hstep⟩
        have hrest := ih c hc fun d hd => h d (Block.mem_blocks_of_body hc hd)
        exact .inr ⟨c, hc, hrest.mpr ⟨way, hb⟩⟩

-- ---------------------------------------------------------------------------
-- Owners and constructors
-- ---------------------------------------------------------------------------

open Wire

/-- How a class that lists the members comes by its constructor. -/
structure Class.ConstructorFrom (c : Class) (members : List (Member Value)) : Prop where
  isSome_iff : c.constructor?.isSome ↔ "__construct" ∈ Table.keys c.methods
  listed_iff : "__construct" ∈ Table.keys c.methods ↔ ∃ m ∈ members, m.name = "__construct"
  /-- It is the only method with its key, at the place of that key. -/
  distinct : (Table.keys c.methods).Nodup
  placed : c.constructor? =
    ((Table.keys c.methods).idxOf? "__construct").bind fun i => (Table.values c.methods)[i]?
  /-- It is the last of its name. -/
  last : ∀ m, c.constructor? = some m → ∃ before member after,
    members = before ++ member :: after ∧ member.name = "__construct" ∧
    (∀ n ∈ after, n.name ≠ "__construct") ∧ m = methodOf c.header.name (member.flags, member.routine)

/-- How the blocks and classes of a tree belong together that was made from a record. -/
structure Block.Linked (t : Block) (r : Record Value) : Prop where
  /-- Every block of the tree is found on a way down. -/
  reached : ∀ b, b ∈ t.blocks ↔ ∃ way, t.at? way = some b
  /-- It is the block of the record there, and belongs to the class whose method the record is. -/
  recorded : ∀ way, t.at? way = (r.at? none way).map fun place => place.2.block place.1
  isMethod_iff : ∀ way b, t.at? way = some b →
    (b.isMethod ↔ ∃ before i name, way = before ++ [⟨i, some name⟩])
  top : t.owner = none
  function : ∀ way (i : Nat) b, t.at? (way ++ [⟨i, none⟩]) = some b → b.owner = none
  method : ∀ way (i : Nat) name b, t.at? (way ++ [⟨i, some name⟩]) = some b →
    ∃ d c m, t.at? way = some d ∧ d.decls[i]? = some (.class c) ∧
      c.method? name = some m ∧ b = m.function.body ∧ b.owner = some c.header.name
  classes : ∀ way b (i : Nat) c, t.at? way = some b → b.decls[i]? = some (.class c) →
    ∃ q members, r.at? none way = some (b.owner, q) ∧
      q.entries[i]? = some (.class c.header.name members) ∧ c.ConstructorFrom members

theorem Wire.Member.constructorFrom_class (name : String) (members : List (Member Value)) :
    (Member.class name members).ConstructorFrom members where
  isSome_iff := Table.isSome_find?_iff
  listed_iff := by
    rw [← Table.isSome_find?_iff, ← Member.isSome_last?_iff]
    have hmethod := Member.method?_class name "__construct" members
    rw [Class.method?] at hmethod
    rw [hmethod, Option.isSome_map]
  distinct := Table.nodup_keys_ofList _
  placed := Table.find?_eq_find?_idxOf _ _
  last m hm := by
    have hmethod : (Member.class name members).method? "__construct" = some m := hm
    rw [Member.method?_class, Option.map_eq_some_iff] at hmethod
    obtain ⟨member, hlast, rfl⟩ := hmethod
    obtain ⟨hname, before, after, hmembers, hafter⟩ := Member.last?_eq_some_iff.mp hlast
    exact ⟨before, member, after, hmembers, hname, hafter, rfl⟩

section Places

variable {r : Record Value} {way : List Block.Step} {i : Nat} {b : Block}

theorem Wire.Record.exists_of_at?_block (h : (r.block none).at? way = some b) :
    ∃ q, r.at? none way = some (b.owner, q) ∧ b = q.block b.owner := by
  rw [Record.at?_block, Option.map_eq_some_iff] at h
  obtain ⟨⟨owner, q⟩, hq, rfl⟩ := h
  rw [Record.owner_block]
  exact ⟨q, hq, rfl⟩

/-- The last step of a way goes into a declaration, and the entry of that says who owns the block. -/
theorem Wire.Record.exists_of_at?_concat {method : Option String}
    (h : (r.block none).at? (way ++ [⟨i, method⟩]) = some b) :
    ∃ d e q, (r.block none).at? way = some d ∧ d.decls[i]? = some (Entry.decl e) ∧
      e.decl.body? method = some b ∧ e.body? method = some (b.owner, q) := by
  rw [Block.at?_concat, Option.bind_eq_some_iff] at h
  obtain ⟨d, hd, hchild⟩ := h
  obtain ⟨decl, hdecl, hbody⟩ := Option.bind_eq_some_iff.mp hchild
  obtain ⟨p, -, hp⟩ := Record.exists_of_at?_block hd
  have hentry := hdecl
  rw [hp, Record.decls_block, List.getElem?_map, Option.map_eq_some_iff] at hentry
  obtain ⟨e, -, rfl⟩ := hentry
  have hq := hbody
  rw [Entry.body?_decl, Option.map_eq_some_iff] at hq
  obtain ⟨⟨owner, q⟩, hq, rfl⟩ := hq
  rw [Record.owner_block]
  exact ⟨d, e, q, hd, hdecl, hbody, hq⟩

theorem Wire.Record.owner_of_at?_function (h : (r.block none).at? (way ++ [⟨i, none⟩]) = some b) :
    b.owner = none := by
  obtain ⟨_, e, q, -, -, -, hq⟩ := Record.exists_of_at?_concat h
  cases e with
  | function f => exact (congrArg Prod.fst (Option.some.inj hq)).symm
  | «class» name members => cases hq

theorem Wire.Record.exists_of_at?_method {method : String}
    (h : (r.block none).at? (way ++ [⟨i, some method⟩]) = some b) :
    ∃ d c m, (r.block none).at? way = some d ∧ d.decls[i]? = some (.class c) ∧
      c.method? method = some m ∧ b = m.function.body ∧ b.owner = some c.header.name := by
  obtain ⟨d, e, q, hd, hdecl, hbody, hq⟩ := Record.exists_of_at?_concat h
  cases e with
  | function f => cases hq
  | «class» name members =>
    obtain ⟨m, hm, hb⟩ := Option.map_eq_some_iff.mp hbody
    obtain ⟨_, -, hplace⟩ := Option.map_eq_some_iff.mp hq
    exact ⟨d, Member.class name members, m, hd, hdecl, hm, hb.symm,
      (congrArg Prod.fst hplace).symm⟩

theorem Wire.Record.isMethod_of_at? (h : (r.block none).at? way = some b) :
    b.isMethod ↔ ∃ before i name, way = before ++ [⟨i, some name⟩] := by
  rcases List.eq_nil_or_concat way with rfl | ⟨before, ⟨i, method⟩, rfl⟩
  · have hb : b = r.block none := (Option.some.inj h).symm
    simp [hb, Block.isMethod]
  · rw [List.concat_eq_append] at h ⊢
    cases method with
    | none =>
      have howner := Record.owner_of_at?_function h
      simp [Block.isMethod, howner]
    | some name =>
      obtain ⟨_, _, _, -, -, -, -, howner⟩ := Record.exists_of_at?_method h
      simp [Block.isMethod, howner]

theorem Wire.Record.linked_block (r : Record Value) : (r.block none).Linked r where
  reached b := Block.mem_blocks_iff fun d hd c hc => Record.assembled_block hd hc
  recorded := r.at?_block none
  isMethod_iff way b h := Record.isMethod_of_at? h
  top := r.owner_block none
  function way i b h := Record.owner_of_at?_function h
  method way i name b h := Record.exists_of_at?_method h
  classes way b i c hb hc := by
    obtain ⟨q, hq, hblock⟩ := Record.exists_of_at?_block hb
    rw [hblock, Record.decls_block, List.getElem?_map, Option.map_eq_some_iff] at hc
    obtain ⟨e, he, hdecl⟩ := hc
    cases e with
    | function f => cases hdecl
    | «class» name members =>
      cases hdecl
      exact ⟨q, members, hq, he, Member.constructorFrom_class name members⟩

end Places

/--
The tree of an accepted buffer is that of a record with the shape of the one that the buffer spells,
and its blocks and classes are linked as they are in that record.
-/
theorem Block.load_linked {σ : Type} {host : Host σ} {s : σ} {buffer : List UInt8} {t : Block}
    (h : ((Block.load host buffer).run s).1 = .ok t) :
    ∃ (r : Record Int64) (v : Record Value),
      (buffer = r.encode ∧ r.height ≤ maxNesting ∧ ∀ q ∈ r.records, q.Sound) ∧
      v.shape = r.shape ∧ t = v.block none ∧ t.Linked v := by
  obtain ⟨r, hr⟩ := exists_load_eq_ok_iff.mp ⟨t, h⟩
  rw [run_load, hr] at h
  cases h
  have hshape := (Record.replaces_traverse (f := host.wrapInt) r s).1
  exact ⟨r, _, Record.read_eq_ok_iff.mp hr, hshape, rfl, Record.linked_block _⟩

end Bytecode
