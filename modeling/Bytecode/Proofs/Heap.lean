-- SUMMARY: The places of classes in a tree, told by their addresses, and which blocks they own.
import Bytecode.Heap
import Bytecode.Proofs.Wire.Linking

/-!
# Places of classes

A class of a tree is found at the end of a way down, as one of the declarations of the block there. If
no address occurs twice in the tree, the address of a class says at which place it is: a block that
refers to its class by an address refers to that one class, whatever the names are.
-/

namespace Bytecode

theorem Table.mem_of_find?_eq_some {κ α : Type} [DecidableEq κ] {t : Table κ α} {key : κ} {value : α}
    (h : t.find? key = some value) : (key, value) ∈ t := by
  induction t with
  | nil => cases h
  | cons item rest ih =>
    rw [find?] at h
    split at h
    · rename_i hkey
      cases h
      exact hkey ▸ List.mem_cons_self
    · exact List.mem_cons_of_mem _ (ih h)

namespace Heap

-- ---------------------------------------------------------------------------
-- Classes of a tree
-- ---------------------------------------------------------------------------

mutual

/-- The classes of a tree, inner before outer ones. -/
def Block.classes : Block → List Class
  | ⟨_, _, decls⟩ => Decl.allClasses decls

def Decl.allClasses : List Decl → List Class
  | [] => []
  | .function f :: rest => Function.classes f ++ Decl.allClasses rest
  | .class c :: rest => Class.classes c ++ Decl.allClasses rest

def Function.classes : Function → List Class
  | ⟨_, body⟩ => Block.classes body

def Class.classes : Class → List Class
  | ⟨address, header, methods⟩ => Method.allClasses methods ++ [⟨address, header, methods⟩]

def Method.allClasses : List (String × Method) → List Class
  | [] => []
  | (_, ⟨_, function⟩) :: rest => Function.classes function ++ Method.allClasses rest

end

def Decl.classes : Decl → List Class
  | .function f => f.body.classes
  | .class c => c.methods.flatMap (·.2.function.body.classes) ++ [c]

theorem Method.allClasses_eq (methods : List (String × Method)) :
    Method.allClasses methods = methods.flatMap (·.2.function.body.classes) := by
  induction methods with
  | nil => rfl
  | cons m rest ih =>
    obtain ⟨_, _, _, _⟩ := m
    rw [Method.allClasses, ih]
    rfl

theorem Decl.allClasses_eq (decls : List Decl) :
    Decl.allClasses decls = decls.flatMap Decl.classes := by
  induction decls with
  | nil => rfl
  | cons d rest ih =>
    cases d with
    | function f =>
      obtain ⟨_, _⟩ := f
      rw [Decl.allClasses, ih]
      rfl
    | «class» c =>
      obtain ⟨_, _, _⟩ := c
      rw [Decl.allClasses, ih, Class.classes, Method.allClasses_eq]
      rfl

theorem Block.classes_eq (b : Block) : b.classes = b.decls.flatMap Decl.classes := by
  obtain ⟨_, _, decls⟩ := b
  exact Decl.allClasses_eq decls

def Block.addresses (b : Block) : List Nat := b.classes.map Class.address

def Decl.addresses (d : Decl) : List Nat := d.classes.map Class.address

theorem Block.addresses_eq (b : Block) : b.addresses = b.decls.flatMap Decl.addresses := by
  rw [Block.addresses, Block.classes_eq, List.map_flatMap]
  rfl

theorem Decl.addresses_class (c : Class) :
    (Decl.class c).addresses =
      c.methods.flatMap (·.2.function.body.addresses) ++ [c.address] := by
  rw [Decl.addresses, Decl.classes, List.map_append, List.map_flatMap]
  rfl

-- ---------------------------------------------------------------------------
-- Ways down
-- ---------------------------------------------------------------------------

/-- The body of a function, or of a method of a class. -/
def Decl.body? : Decl → Option String → Option Block
  | .function f, none => some f.body
  | .class c, some name => (c.method? name).map (·.function.body)
  | _, _ => none

def Decl.class? : Decl → Option Class
  | .function _ => none
  | .class c => some c

/-- The block that a step leads to. -/
def Block.child? (b : Block) (step : Block.Step) : Option Block :=
  b.decls[step.index]?.bind (·.body? step.method)

/-- The block at the end of a way down. -/
def Block.at? (t : Block) : List Block.Step → Option Block
  | [] => some t
  | step :: way => (t.child? step).bind (·.at? way)

/-- The class at a place in the block at the end of a way down. -/
def Block.class? (t : Block) (way : List Block.Step) (i : Nat) : Option Class :=
  (t.at? way).bind fun b => b.decls[i]?.bind Decl.class?

theorem Decl.class?_eq_some_iff {d : Decl} {c : Class} : d.class? = some c ↔ d = .class c := by
  cases d <;> simp [Decl.class?]

theorem Block.at?_concat (t : Block) (way : List Block.Step) (step : Block.Step) :
    t.at? (way ++ [step]) = (t.at? way).bind (·.child? step) := by
  induction way generalizing t with
  | nil => simp [Block.at?]
  | cons first way ih =>
    rw [List.cons_append, Block.at?, Block.at?, Option.bind_assoc]
    exact Option.bind_congr fun b _ => ih b

theorem Block.class?_cons (t : Block) (step : Block.Step) (way : List Block.Step) (i : Nat) :
    t.class? (step :: way) i = (t.child? step).bind (·.class? way i) := by
  rw [Block.class?, Block.at?, Option.bind_assoc]
  rfl

theorem Block.class?_nil_eq_some_iff {t : Block} {i : Nat} {c : Class} :
    t.class? [] i = some c ↔ t.decls[i]? = some (.class c) := by
  simp [Block.class?, Block.at?, Option.bind_eq_some_iff, Decl.class?_eq_some_iff]

section Body

variable {d : Decl} {method : Option String} {b : Block}

theorem Decl.exists_of_body? (h : d.body? method = some b) :
    (∃ f, d = .function f ∧ method = none ∧ b = f.body) ∨
      ∃ c name m, d = .class c ∧ method = some name ∧ c.method? name = some m ∧
        b = m.function.body := by
  cases d with
  | function f =>
    cases method with
    | none => exact .inl ⟨f, rfl, rfl, (Option.some.inj h).symm⟩
    | some name => cases h
  | «class» c =>
    cases method with
    | none => cases h
    | some name =>
      obtain ⟨m, hm, rfl⟩ := Option.map_eq_some_iff.mp h
      exact .inr ⟨c, name, m, rfl, rfl, hm, rfl⟩

theorem Decl.classes_subset_of_body? (h : d.body? method = some b) : b.classes ⊆ d.classes := by
  obtain ⟨f, rfl, -, rfl⟩ | ⟨c, name, m, rfl, -, hm, rfl⟩ := Decl.exists_of_body? h
  · exact fun _ hc => hc
  · intro c' hc'
    have hmem : (name, m) ∈ c.methods := Table.mem_of_find?_eq_some hm
    exact List.mem_append_left _ (List.mem_flatMap.mpr ⟨_, hmem, hc'⟩)

end Body

/-- A class at a place of a tree is one of its classes. -/
theorem Block.mem_classes_of_class? {t : Block} {way : List Block.Step} {i : Nat} {c : Class}
    (h : t.class? way i = some c) : c ∈ t.classes := by
  induction way generalizing t with
  | nil =>
    rw [Block.class?_nil_eq_some_iff] at h
    rw [Block.classes_eq]
    refine List.mem_flatMap.mpr ⟨_, List.mem_of_getElem? h, ?_⟩
    exact List.mem_append_right _ (List.mem_singleton_self c)
  | cons step way ih =>
    rw [Block.class?_cons, Option.bind_eq_some_iff] at h
    obtain ⟨b, hb, hc⟩ := h
    obtain ⟨d, hd, hbody⟩ := Option.bind_eq_some_iff.mp hb
    rw [Block.classes_eq]
    exact List.mem_flatMap.mpr
      ⟨d, List.mem_of_getElem? hd, Decl.classes_subset_of_body? hbody (ih hc)⟩

-- ---------------------------------------------------------------------------
-- Trees without addresses
-- ---------------------------------------------------------------------------

def Method.erase (owner : String) (m : Method) : Bytecode.Method :=
  { flags := m.flags, function := m.function.erase (some owner) }

def Decl.erase : Decl → Bytecode.Decl
  | .function f => .function (f.erase none)
  | .class c => .class c.erase

theorem Method.eraseAll_eq (owner : String) (methods : List (String × Method)) :
    Method.eraseAll owner methods = Table.mapValues (Method.erase owner) methods := by
  induction methods with
  | nil => rfl
  | cons m rest ih =>
    obtain ⟨name, flags, function⟩ := m
    rw [Method.eraseAll, ih]
    rfl

theorem Decl.eraseAll_eq (decls : List Decl) : Decl.eraseAll decls = decls.map Decl.erase := by
  induction decls with
  | nil => rfl
  | cons d rest ih => cases d <;> rw [Decl.eraseAll, ih] <;> rfl

theorem Class.erase_eq (c : Class) :
    c.erase =
      { header := c.header, methods := Table.mapValues (Method.erase c.header.name) c.methods } := by
  obtain ⟨address, header, methods⟩ := c
  rw [Class.erase, Method.eraseAll_eq]

/-- A class keeps the same methods of a list, whether they have addresses or not. -/
theorem Class.erase_ofMethods (address : Nat) (header : ClassHeader)
    (methods : List (String × Method)) :
    (Class.ofMethods address header methods).erase =
      Bytecode.Class.ofMethods header (methods.map fun m => (m.1, m.2.erase header.name)) := by
  rw [Class.erase_eq, Bytecode.Class.ofMethods, Class.ofMethods, Table.mapValues_ofList]
  rfl

theorem Block.erase_mk (owner : Option String) (b : Block) :
    b.erase owner = { chunk := b.chunk, owner, decls := b.decls.map Decl.erase } := by
  obtain ⟨chunk, o, decls⟩ := b
  rw [Block.erase, Decl.eraseAll_eq]

theorem Decl.body?_erase (d : Decl) (method : Option String) :
    ∃ name, d.erase.body? method = (d.body? method).map (Block.erase name) := by
  cases d with
  | function f =>
    obtain ⟨_, _⟩ := f
    exact ⟨none, by cases method <;> rfl⟩
  | «class» c =>
    refine ⟨some c.header.name, ?_⟩
    cases method with
    | none => rfl
    | some key =>
      rw [Decl.erase, Class.erase_eq, Bytecode.Decl.body?, Bytecode.Class.method?,
        Table.find?_mapValues, Decl.body?, Class.method?, Option.map_map, Option.map_map]
      refine congrArg (Option.map · _) (funext fun m => ?_)
      obtain ⟨_, _, _⟩ := m
      rfl

/-- What is found at the end of a way does not depend on addresses. -/
theorem Block.at?_erase (t : Block) (owner : Option String) (way : List Block.Step) :
    ∃ name, (t.erase owner).at? way = (t.at? way).map (Block.erase name) := by
  induction way generalizing t owner with
  | nil => exact ⟨owner, rfl⟩
  | cons step way ih =>
    rw [Bytecode.Block.at?, Bytecode.Block.child?, Block.erase_mk, List.getElem?_map, Option.bind_map,
      Block.at?, Block.child?]
    cases t.decls[step.index]? with
    | none => exact ⟨none, rfl⟩
    | some d =>
      obtain ⟨name, hbody⟩ := d.body?_erase step.method
      simp only [Option.bind_some, Function.comp_apply, hbody]
      cases d.body? step.method with
      | none => exact ⟨none, rfl⟩
      | some b => exact ih b name

-- ---------------------------------------------------------------------------
-- Owners
-- ---------------------------------------------------------------------------

/-- The bodies of what is declared, each with the address of the class whose method it is. -/
def Decl.bodies : Decl → List (Option Nat × Block)
  | .function f => [(none, f.body)]
  | .class c => c.methods.map fun m => (some c.address, m.2.function.body)

/-- All bodies in a tree have the owners that they must have. -/
inductive Block.WellOwned : Block → Prop
  | intro {b : Block} (owners : ∀ d ∈ b.decls, ∀ place ∈ d.bodies, place.2.owner = place.1)
      (bodies : ∀ d ∈ b.decls, ∀ place ∈ d.bodies, place.2.WellOwned) : b.WellOwned

section Owners

variable {t b : Block} {way : List Block.Step} {i : Nat}

theorem Decl.exists_mem_bodies {d : Decl} {method : Option String} (h : d.body? method = some b) :
    ∃ owner, (owner, b) ∈ d.bodies := by
  obtain ⟨f, rfl, -, rfl⟩ | ⟨c, name, m, rfl, -, hm, rfl⟩ := Decl.exists_of_body? h
  · exact ⟨none, List.mem_singleton_self _⟩
  · exact ⟨some c.address, List.mem_map.mpr ⟨_, Table.mem_of_find?_eq_some hm, rfl⟩⟩

theorem Block.WellOwned.of_at? (h : t.WellOwned) (hb : t.at? way = some b) : b.WellOwned := by
  induction way generalizing t with
  | nil => exact Option.some.inj hb ▸ h
  | cons step way ih =>
    obtain ⟨c, hc, hb⟩ := Option.bind_eq_some_iff.mp hb
    obtain ⟨d, hd, hbody⟩ := Option.bind_eq_some_iff.mp hc
    obtain ⟨owner, hmem⟩ := Decl.exists_mem_bodies hbody
    cases h with
    | intro owners bodies => exact ih (bodies d (List.mem_of_getElem? hd) _ hmem) hb

/-- The last step of a way goes into a declaration, by which the owner is known. -/
theorem Block.WellOwned.exists_of_at?_concat (h : t.WellOwned) {method : Option String}
    (hb : t.at? (way ++ [⟨i, method⟩]) = some b) :
    ∃ a d, t.at? way = some a ∧ a.decls[i]? = some d ∧ d.body? method = some b ∧
      ∀ place ∈ d.bodies, place.2.owner = place.1 := by
  rw [Block.at?_concat, Option.bind_eq_some_iff] at hb
  obtain ⟨a, ha, hchild⟩ := hb
  obtain ⟨d, hd, hbody⟩ := Option.bind_eq_some_iff.mp hchild
  cases h.of_at? ha with
  | intro owners bodies => exact ⟨a, d, ha, hd, hbody, owners d (List.mem_of_getElem? hd)⟩

theorem Block.WellOwned.owner_of_function (h : t.WellOwned)
    (hb : t.at? (way ++ [⟨i, none⟩]) = some b) : b.owner = none := by
  obtain ⟨a, d, -, -, hbody, howners⟩ := h.exists_of_at?_concat hb
  obtain ⟨f, rfl, -, rfl⟩ | ⟨_, _, _, -, hnone, -, -⟩ := Decl.exists_of_body? hbody
  · exact howners (none, f.body) (List.mem_singleton_self _)
  · cases hnone

theorem Block.WellOwned.exists_of_method (h : t.WellOwned) {name : String}
    (hb : t.at? (way ++ [⟨i, some name⟩]) = some b) :
    ∃ c m, t.class? way i = some c ∧ c.method? name = some m ∧ b = m.function.body ∧
      b.owner = some c.address := by
  obtain ⟨a, d, ha, hd, hbody, howners⟩ := h.exists_of_at?_concat hb
  obtain ⟨_, -, hsome, -⟩ | ⟨c, _, m, rfl, hname, hm, rfl⟩ := Decl.exists_of_body? hbody
  · cases hsome
  cases hname
  have hmem : (some c.address, m.function.body) ∈ (Decl.class c).bodies :=
    List.mem_map.mpr ⟨_, Table.mem_of_find?_eq_some hm, rfl⟩
  refine ⟨c, m, ?_, hm, rfl, howners _ hmem⟩
  rw [Block.class?, ha, Option.bind_some, hd]
  rfl

theorem Block.WellOwned.isMethod_iff (h : t.WellOwned) (htop : t.owner = none)
    (hb : t.at? way = some b) :
    b.isMethod ↔ ∃ before i name, way = before ++ [⟨i, some name⟩] := by
  rcases List.eq_nil_or_concat way with rfl | ⟨before, ⟨i, method⟩, rfl⟩
  · obtain rfl := Option.some.inj hb
    simp [Block.isMethod, htop]
  · rw [List.concat_eq_append] at hb ⊢
    cases method with
    | none => simp [Block.isMethod, h.owner_of_function hb]
    | some name =>
      obtain ⟨_, _, -, -, -, howner⟩ := h.exists_of_method hb
      simp [Block.isMethod, howner]

end Owners

-- ---------------------------------------------------------------------------
-- Addresses and places
-- ---------------------------------------------------------------------------

/-- What occurs once only in a list of lists occurs at one place there. -/
theorem index_eq_of_nodup_flatMap {α β : Type} {items : List α} {f : α → List β} {i j : Nat} {a b : α}
    {x : β} (h : (items.flatMap f).Nodup) (hi : items[i]? = some a) (hj : items[j]? = some b)
    (ha : x ∈ f a) (hb : x ∈ f b) : i = j := by
  have hapart := List.pairwise_iff_getElem.mp (List.nodup_flatMap.mp h).2
  obtain ⟨hi', rfl⟩ := List.getElem?_eq_some_iff.mp hi
  obtain ⟨hj', rfl⟩ := List.getElem?_eq_some_iff.mp hj
  rcases Nat.lt_trichotomy i j with hlt | rfl | hgt
  · exact absurd hb (hapart i j hi' hj' hlt ha)
  · rfl
  · exact absurd ha (hapart j i hj' hi' hgt hb)

section Places

variable {d : Decl} {method method' : Option String} {t b b' : Block} {c c' : Class} {x : Nat}

theorem Decl.mem_addresses_of_body? (h : d.body? method = some b) (hx : x ∈ b.addresses) :
    x ∈ d.addresses := by
  obtain ⟨c, hc, rfl⟩ := List.mem_map.mp hx
  exact List.mem_map_of_mem (Decl.classes_subset_of_body? h hc)

theorem Decl.nodup_addresses_of_body? (hd : d.addresses.Nodup) (h : d.body? method = some b) :
    b.addresses.Nodup := by
  obtain ⟨f, rfl, -, rfl⟩ | ⟨c, name, m, rfl, -, hm, rfl⟩ := Decl.exists_of_body? h
  · exact hd
  · rw [Decl.addresses_class] at hd
    have hmethods := (List.nodup_append.mp hd).1
    exact (List.nodup_flatMap.mp hmethods).1 _ (Table.mem_of_find?_eq_some hm)

/-- An address in two bodies of a declaration is in one body. -/
theorem Decl.method_eq_of_mem_addresses (hd : d.addresses.Nodup) (h : d.body? method = some b)
    (h' : d.body? method' = some b') (hx : x ∈ b.addresses) (hx' : x ∈ b'.addresses) :
    method = method' := by
  obtain ⟨f, rfl, rfl, rfl⟩ | ⟨c, name, m, rfl, rfl, hm, rfl⟩ := Decl.exists_of_body? h
  · cases method' with
    | none => rfl
    | some name => cases h'
  · obtain ⟨_, hf, -, -⟩ | ⟨_, name', m', hc, rfl, hm', rfl⟩ := Decl.exists_of_body? h'
    · cases hf
    cases hc
    rw [Decl.addresses_class] at hd
    obtain ⟨i, hi⟩ := List.mem_iff_getElem?.mp (Table.mem_of_find?_eq_some hm)
    obtain ⟨j, hj⟩ := List.mem_iff_getElem?.mp (Table.mem_of_find?_eq_some hm')
    have hij := index_eq_of_nodup_flatMap (List.nodup_append.mp hd).1 hi hj hx hx'
    rw [hij, hj] at hi
    cases hi
    rfl

/-- The address of a class is in no body of its methods. -/
theorem Decl.address_not_mem_of_body? (hd : (Decl.class c).addresses.Nodup)
    (h : (Decl.class c).body? method = some b) : c.address ∉ b.addresses := by
  obtain ⟨_, hf, -, -⟩ | ⟨_, name, m, hc, -, hm, rfl⟩ := Decl.exists_of_body? h
  · cases hf
  cases hc
  rw [Decl.addresses_class] at hd
  intro hmem
  have hinside : c.address ∈ c.methods.flatMap (·.2.function.body.addresses) :=
    List.mem_flatMap.mpr ⟨_, Table.mem_of_find?_eq_some hm, hmem⟩
  exact (List.nodup_append.mp hd).2.2 _ hinside _ (List.mem_singleton_self _) rfl

theorem Decl.mem_addresses_self (c : Class) : c.address ∈ (Decl.class c).addresses := by
  rw [Decl.addresses_class]
  exact List.mem_append_right _ (List.mem_singleton_self _)

theorem Block.nodup_addresses_decls (h : t.addresses.Nodup) :
    (t.decls.flatMap Decl.addresses).Nodup ∧ ∀ d ∈ t.decls, d.addresses.Nodup := by
  rw [Block.addresses_eq] at h
  exact ⟨h, (List.nodup_flatMap.mp h).1⟩

/-- A class further down lies in a body of a declaration, and so does its address. -/
theorem Block.exists_of_class?_cons {step : Block.Step} {way : List Block.Step} {i : Nat}
    (h : t.class? (step :: way) i = some c) :
    ∃ d b, t.decls[step.index]? = some d ∧ d.body? step.method = some b ∧
      b.class? way i = some c ∧ c.address ∈ b.addresses := by
  rw [Block.class?_cons, Option.bind_eq_some_iff] at h
  obtain ⟨b, hb, hc⟩ := h
  obtain ⟨d, hd, hbody⟩ := Option.bind_eq_some_iff.mp hb
  exact ⟨d, b, hd, hbody, hc, List.mem_map_of_mem (Block.mem_classes_of_class? hc)⟩

theorem Block.address_ne_of_below {step : Block.Step} {way : List Block.Step} {i j : Nat}
    (h : t.addresses.Nodup) (hc : t.decls[i]? = some (.class c))
    (hc' : t.class? (step :: way) j = some c') : c.address ≠ c'.address := by
  intro haddress
  obtain ⟨hdecls, heach⟩ := Block.nodup_addresses_decls h
  obtain ⟨d, b, hd, hbody, -, hmem⟩ := Block.exists_of_class?_cons hc'
  rw [← haddress] at hmem
  have hindex := index_eq_of_nodup_flatMap hdecls hc hd (Decl.mem_addresses_self c)
    (Decl.mem_addresses_of_body? hbody hmem)
  rw [hindex, hd] at hc
  cases hc
  exact Decl.address_not_mem_of_body? (heach _ (List.mem_of_getElem? hd)) hbody hmem

/-- No two places of a tree have classes with one address if no address occurs twice. -/
theorem Block.place_eq_of_nodup {way way' : List Block.Step} {i i' : Nat} (h : t.addresses.Nodup)
    (hc : t.class? way i = some c) (hc' : t.class? way' i' = some c')
    (haddress : c.address = c'.address) : way = way' ∧ i = i' := by
  induction way generalizing t way' with
  | nil =>
    rw [Block.class?_nil_eq_some_iff] at hc
    cases way' with
    | nil =>
      rw [Block.class?_nil_eq_some_iff] at hc'
      have hmem : c.address ∈ (Decl.class c').addresses := haddress ▸ Decl.mem_addresses_self c'
      exact ⟨rfl, index_eq_of_nodup_flatMap (Block.nodup_addresses_decls h).1 hc hc'
        (Decl.mem_addresses_self c) hmem⟩
    | cons step' way' => exact absurd haddress (Block.address_ne_of_below h hc hc')
  | cons step way ih =>
    cases way' with
    | nil =>
      rw [Block.class?_nil_eq_some_iff] at hc'
      exact absurd haddress.symm (Block.address_ne_of_below h hc' hc)
    | cons step' way' =>
      obtain ⟨hdecls, heach⟩ := Block.nodup_addresses_decls h
      obtain ⟨d, b, hd, hbody, hc, hmem⟩ := Block.exists_of_class?_cons hc
      obtain ⟨d', b', hd', hbody', hc', hmem'⟩ := Block.exists_of_class?_cons hc'
      rw [← haddress] at hmem'
      -- Both ways go into the same declaration and into the same body of it.
      have hindex := index_eq_of_nodup_flatMap hdecls hd hd' (Decl.mem_addresses_of_body? hbody hmem)
        (Decl.mem_addresses_of_body? hbody' hmem')
      rw [← hindex, hd] at hd'
      cases hd'
      have hnodup := heach d (List.mem_of_getElem? hd)
      have hmethod := Decl.method_eq_of_mem_addresses hnodup hbody hbody' hmem hmem'
      rw [← hmethod, hbody] at hbody'
      cases hbody'
      obtain ⟨rfl, hi⟩ := ih (Decl.nodup_addresses_of_body? hnodup hbody) hc hc'
      obtain ⟨index, method⟩ := step
      obtain ⟨index', method'⟩ := step'
      cases hindex
      cases hmethod
      exact ⟨rfl, hi⟩

end Places

end Heap

end Bytecode
