-- SUMMARY: The blocks inside a block, how deep they lie, and the records that they make.
import Bytecode.Proofs.Wire.RecordTree

/-!
# Blocks inside blocks

The bodies of functions and methods are blocks, like their records in `Bytecode.Proofs.Wire.RecordTree`.
The record of a block has the records of its bodies for bodies, and so all the way down.
-/

namespace Bytecode

/-- The bodies of what is declared. -/
def Decl.bodies : Decl → List Block
  | .function f => [f.body]
  | .class c => c.methods.map (·.2.function.body)

/-- The bodies of what a block declares. -/
def Block.bodies (b : Block) : List Block := b.decls.flatMap Decl.bodies

mutual

/-- A block and all blocks inside, each in front of those below it. -/
def Block.blocks : Block → List Block
  | ⟨chunk, owner, decls⟩ => ⟨chunk, owner, decls⟩ :: Decl.blocks decls

def Decl.blocks : List Decl → List Block
  | [] => []
  | .function f :: rest => Function.blocks f ++ Decl.blocks rest
  | .class c :: rest => Class.blocks c ++ Decl.blocks rest

def Function.blocks : Function → List Block
  | ⟨_, body⟩ => Block.blocks body

def Class.blocks : Class → List Block
  | ⟨_, methods⟩ => Method.blocks methods

def Method.blocks : List (String × Method) → List Block
  | [] => []
  | (_, ⟨_, function⟩) :: rest => Function.blocks function ++ Method.blocks rest

end

mutual

/-- The most blocks on a way down, the one at the top counted. -/
def Block.height : Block → Nat
  | ⟨_, _, decls⟩ => Decl.height decls + 1

def Decl.height : List Decl → Nat
  | [] => 0
  | .function f :: rest => max (Function.height f) (Decl.height rest)
  | .class c :: rest => max (Class.height c) (Decl.height rest)

def Function.height : Function → Nat
  | ⟨_, body⟩ => Block.height body

def Class.height : Class → Nat
  | ⟨_, methods⟩ => Method.height methods

def Method.height : List (String × Method) → Nat
  | [] => 0
  | (_, ⟨_, function⟩) :: rest => max (Function.height function) (Method.height rest)

end

theorem Method.blocks_eq (methods : List (String × Method)) :
    Method.blocks methods = methods.flatMap fun m => m.2.function.body.blocks := by
  induction methods with
  | nil => rfl
  | cons m rest ih =>
    obtain ⟨_, _, _, _⟩ := m
    simp [Method.blocks, Function.blocks, ih]

theorem Decl.blocks_eq (decls : List Decl) :
    Decl.blocks decls = decls.flatMap fun d => d.bodies.flatMap Block.blocks := by
  induction decls with
  | nil => rfl
  | cons d rest ih =>
    cases d with
    | function f =>
      obtain ⟨_, _⟩ := f
      simp [Decl.blocks, Function.blocks, Decl.bodies, ih]
    | «class» c =>
      obtain ⟨_, _⟩ := c
      simp [Decl.blocks, Class.blocks, Method.blocks_eq, Decl.bodies, ih, List.flatMap_map]

theorem Block.blocks_eq (b : Block) : b.blocks = b :: b.bodies.flatMap Block.blocks := by
  obtain ⟨chunk, owner, decls⟩ := b
  simp [Block.blocks, Decl.blocks_eq, Block.bodies, List.flatMap_assoc]

theorem Block.mem_blocks_self (b : Block) : b ∈ b.blocks := by
  rw [Block.blocks_eq]
  exact List.mem_cons_self

theorem Block.mem_blocks_of_body {b c d : Block} (hc : c ∈ b.bodies) (hd : d ∈ c.blocks) :
    d ∈ b.blocks := by
  rw [Block.blocks_eq]
  exact List.mem_cons_of_mem b (List.mem_flatMap.mpr ⟨c, hc, hd⟩)

theorem Method.height_le_iff {methods : List (String × Method)} {n : Nat} :
    Method.height methods ≤ n ↔ ∀ m ∈ methods, m.2.function.body.height ≤ n := by
  induction methods with
  | nil => simp [Method.height]
  | cons m rest ih =>
    obtain ⟨_, _, _, _⟩ := m
    simp only [Method.height, Function.height, sup_le_iff, List.forall_mem_cons, ih]

theorem Decl.height_le_iff {decls : List Decl} {n : Nat} :
    Decl.height decls ≤ n ↔ ∀ d ∈ decls, ∀ c ∈ d.bodies, c.height ≤ n := by
  induction decls with
  | nil => simp [Decl.height]
  | cons d rest ih =>
    cases d with
    | function f =>
      obtain ⟨_, _⟩ := f
      simp [Decl.height, Function.height, Decl.bodies, ih]
    | «class» c =>
      obtain ⟨_, _⟩ := c
      simp only [Decl.height, Class.height, sup_le_iff, Method.height_le_iff, ih,
        List.forall_mem_cons, Decl.bodies, List.forall_mem_map]

theorem Block.height_pos (b : Block) : 0 < b.height := by
  obtain ⟨_, _, _⟩ := b
  exact Nat.succ_pos _

theorem Block.height_le_succ_iff {b : Block} {n : Nat} :
    b.height ≤ n + 1 ↔ ∀ c ∈ b.bodies, c.height ≤ n := by
  obtain ⟨chunk, owner, decls⟩ := b
  rw [Block.height, Nat.add_le_add_iff_right, Decl.height_le_iff, Block.bodies,
    List.forall_mem_flatMap]

/-- What holds of a block if it holds of its bodies holds of every block. -/
theorem Block.induction {P : Block → Prop} (step : ∀ b, (∀ c ∈ b.bodies, P c) → P b)
    (b : Block) : P b := by
  have hlevels : ∀ n (b : Block), b.height ≤ n → P b := by
    intro n
    induction n with
    | zero =>
      intro b h
      exact absurd b.height_pos (by omega)
    | succ n ih =>
      intro b h
      exact step b fun c hc => ih c (Block.height_le_succ_iff.mp h c hc)
  exact hlevels b.height b le_rfl

-- ---------------------------------------------------------------------------
-- Ways down
-- ---------------------------------------------------------------------------

/-- The blocks on a way down from a block: every block is followed by one of its bodies. -/
structure Block.IsPath (t : Block) (path : List Block) : Prop where
  head : path.head? = some t
  chain : path.IsChain fun b c => c ∈ b.bodies

theorem Block.isPath_singleton (t : Block) : t.IsPath [t] := ⟨rfl, List.isChain_singleton t⟩

theorem Block.isPath_cons_cons_iff {t b c : Block} {path : List Block} :
    t.IsPath (b :: c :: path) ↔ b = t ∧ c ∈ t.bodies ∧ c.IsPath (c :: path) := by
  constructor
  · rintro ⟨hhead, hchain⟩
    cases hhead
    obtain ⟨hbody, hrest⟩ := List.isChain_cons_cons.mp hchain
    exact ⟨rfl, hbody, rfl, hrest⟩
  · rintro ⟨rfl, hbody, -, hrest⟩
    exact ⟨rfl, List.isChain_cons_cons.mpr ⟨hbody, hrest⟩⟩

theorem Block.IsPath.length_le {t : Block} {path : List Block} (h : t.IsPath path) :
    path.length ≤ t.height := by
  induction path generalizing t with
  | nil => exact absurd h.head (by simp)
  | cons b rest ih =>
    cases rest with
    | nil => exact t.height_pos
    | cons c rest =>
      obtain ⟨-, hbody, hrest⟩ := Block.isPath_cons_cons_iff.mp h
      have hheight : c.height ≤ t.height - 1 := by
        refine Block.height_le_succ_iff.mp ?_ c hbody
        have hpos := t.height_pos
        omega
      have hlength := ih hrest
      have hpos := t.height_pos
      simp only [List.length_cons] at hlength ⊢
      omega

theorem Block.exists_isPath {t : Block} {n : Nat} (h : n < t.height) :
    ∃ path, t.IsPath path ∧ path.length = n + 1 := by
  induction n generalizing t with
  | zero => exact ⟨[t], t.isPath_singleton, rfl⟩
  | succ n ih =>
    have hdeeper : ¬ t.height ≤ n + 1 := Nat.not_le.mpr h
    rw [Block.height_le_succ_iff] at hdeeper
    simp only [not_forall, Nat.not_le, exists_prop] at hdeeper
    obtain ⟨c, hbody, hheight⟩ := hdeeper
    obtain ⟨path, hpath, hlength⟩ := ih hheight
    cases path with
    | nil => exact absurd hpath.head (by simp)
    | cons d path =>
      cases hpath.head
      exact ⟨t :: c :: path, Block.isPath_cons_cons_iff.mpr ⟨rfl, hbody, hpath⟩, by simpa using hlength⟩

theorem Block.lt_height_iff {t : Block} {n : Nat} :
    n < t.height ↔ ∃ path, t.IsPath path ∧ n < path.length := by
  constructor
  · intro h
    obtain ⟨path, hpath, hlength⟩ := Block.exists_isPath h
    exact ⟨path, hpath, by omega⟩
  · rintro ⟨path, hpath, hlength⟩
    exact hlength.trans_le hpath.length_le

-- ---------------------------------------------------------------------------
-- Records
-- ---------------------------------------------------------------------------

/-- The member of a method with its name. -/
def Method.member (m : String × Method) : Wire.Member Value :=
  { name := m.1, flags := m.2.flags, routine := m.2.function.routine }

/-- The entry of a declaration. -/
def Decl.entry : Decl → Wire.Entry Value
  | .function f => .function f.routine
  | .class c => c.entry

theorem Method.members_eq (methods : List (String × Method)) :
    Method.members methods = methods.map Method.member := by
  induction methods with
  | nil => rfl
  | cons m rest ih =>
    obtain ⟨_, _, _⟩ := m
    simp [Method.members, Method.member, ih]

theorem Decl.entries_eq (decls : List Decl) : Decl.entries decls = decls.map Decl.entry := by
  induction decls with
  | nil => rfl
  | cons d rest ih => cases d <;> simp [Decl.entries, Decl.entry, ih]

@[simp] theorem Function.body_routine (f : Function) : f.routine.body = f.body.record := by
  obtain ⟨_, _⟩ := f
  rfl

@[simp] theorem Function.params_routine (f : Function) :
    f.routine.params = f.signature.params.map Param.entry := by
  obtain ⟨_, _⟩ := f
  rfl

theorem Class.entry_eq (c : Class) :
    c.entry = .class c.header.name (c.methods.map Method.member) := by
  obtain ⟨header, methods⟩ := c
  simp [Class.entry, Method.members_eq]

@[simp] theorem Block.chunk_record (b : Block) : b.record.chunk = b.chunk := by
  obtain ⟨_, _, _⟩ := b
  rfl

@[simp] theorem Block.entries_record (b : Block) : b.record.entries = b.decls.map Decl.entry := by
  obtain ⟨_, _, _⟩ := b
  exact Decl.entries_eq _

theorem Decl.bodies_entry (d : Decl) : d.entry.bodies = d.bodies.map Block.record := by
  cases d with
  | function f => simp [Decl.entry, Wire.Entry.bodies, Decl.bodies]
  | «class» c =>
    simp [Decl.entry, Class.entry_eq, Wire.Entry.bodies, Decl.bodies, Method.member]

theorem Block.bodies_record (b : Block) : b.record.bodies = b.bodies.map Block.record := by
  simp [Wire.Record.bodies, Block.bodies, List.flatMap_map, List.map_flatMap, Decl.bodies_entry]

theorem Block.records_record (b : Block) : b.record.records = b.blocks.map Block.record := by
  induction b using Block.induction with
  | step b ih =>
    rw [Wire.Record.records_eq, Block.blocks_eq, Block.bodies_record, List.map_cons,
      List.flatMap_map, List.map_flatMap]
    congr 1
    exact List.flatMap_congr ih

theorem Block.forall_mem_records_record {b : Block} {P : Wire.Record Value → Prop} :
    (∀ q ∈ b.record.records, P q) ↔ ∀ c ∈ b.blocks, P c.record := by
  rw [Block.records_record, List.forall_mem_map]

theorem Block.height_record_le_iff {b : Block} {n : Nat} : b.record.height ≤ n ↔ b.height ≤ n := by
  induction n generalizing b with
  | zero => simp [Nat.not_le.mpr b.height_pos, Nat.not_le.mpr b.record.height_pos]
  | succ n ih =>
    simp only [Wire.Record.height_le_succ_iff, Block.height_le_succ_iff, Block.bodies_record,
      List.forall_mem_map, ih]

end Bytecode
