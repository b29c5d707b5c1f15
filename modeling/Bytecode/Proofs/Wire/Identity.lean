-- SUMMARY: Method bodies of a loaded tree refer to the very class that holds them.
import Bytecode.Proofs.Wire.Erasure

/-!
# Which class owns a body

While a buffer is loaded, addresses are given out one after the other, and every class that is complete
lies at one that was given out for it. So no two classes lie at the same one, and a body that has been
told an address is told the class that is completed there: the one that holds it. Classes that the
tree does not hold, because a later method has the name of the one they are in, stay in memory.
-/

namespace Bytecode.Heap

open Wire (Progress Reader Record maxNesting)

-- ---------------------------------------------------------------------------
-- What is new in memory
-- ---------------------------------------------------------------------------

/-- Classes have been completed at addresses that were given out since, those of an item among them. -/
structure Store.Adds (st st' : Store) (cs : List Class) : Prop where
  le : st.allocated ≤ st'.allocated
  added : ∃ new, st'.classes = st.classes ++ new ∧ cs.Subperm new ∧ (new.map Class.address).Nodup ∧
    ∀ c ∈ new, st.allocated ≤ c.address ∧ c.address < st'.allocated

namespace Store.Adds

variable {st st₁ st₂ : Store} {cs ds : List Class} {c : Class}

theorem refl (st : Store) : st.Adds st [] where
  le := le_rfl
  added := ⟨[], (List.append_nil _).symm, List.Subperm.refl _, List.nodup_nil, by simp⟩

theorem mono (h : st.Adds st₁ cs) (hsub : ds.Subperm cs) : st.Adds st₁ ds where
  le := h.le
  added := by
    obtain ⟨new, hclasses, hcs, hnew⟩ := h.added
    exact ⟨new, hclasses, hsub.trans hcs, hnew⟩

theorem trans (h : st.Adds st₁ cs) (h' : st₁.Adds st₂ ds) : st.Adds st₂ (cs ++ ds) where
  le := h.le.trans h'.le
  added := by
    obtain ⟨new, hclasses, hcs, hnodup, hbounds⟩ := h.added
    obtain ⟨new', hclasses', hds, hnodup', hbounds'⟩ := h'.added
    refine ⟨new ++ new', by rw [hclasses', hclasses, List.append_assoc], hcs.append hds, ?_, ?_⟩
    · rw [List.map_append, List.nodup_append]
      refine ⟨hnodup, hnodup', fun a ha b hb => ?_⟩
      obtain ⟨c, hc, rfl⟩ := List.mem_map.mp ha
      obtain ⟨d, hd, rfl⟩ := List.mem_map.mp hb
      exact ((hbounds c hc).2.trans_le (hbounds' d hd).1).ne
    · intro c hc
      rcases List.mem_append.mp hc with hc | hc
      · exact ⟨(hbounds c hc).1, (hbounds c hc).2.trans_le h'.le⟩
      · exact ⟨h.le.trans (hbounds' c hc).1, (hbounds' c hc).2⟩

/-- A class gets its address before those inside it, and is complete after them. -/
theorem complete (h : { st with allocated := st.allocated + 1 }.Adds st₁ cs)
    (hc : c.address = st.allocated) :
    st.Adds { st₁ with classes := st₁.classes ++ [c] } (cs ++ [c]) where
  le := (Nat.le_succ _).trans h.le
  added := by
    obtain ⟨new, hclasses, hcs, hnodup, hbounds⟩ := h.added
    refine ⟨new ++ [c], by simp [hclasses], hcs.append (List.Subperm.refl _), ?_, ?_⟩
    · rw [List.map_append, List.nodup_append]
      refine ⟨hnodup, List.nodup_singleton _, fun a ha b hb => ?_⟩
      obtain ⟨d, hd, rfl⟩ := List.mem_map.mp ha
      rw [List.mem_singleton.mp hb, hc]
      exact Nat.ne_of_gt (hbounds d hd).1
    · intro d hd
      rcases List.mem_append.mp hd with hd | hd
      · exact ⟨(Nat.le_succ _).trans (hbounds d hd).1, (hbounds d hd).2⟩
      · rw [List.mem_singleton.mp hd, hc]
        exact ⟨le_rfl, h.le⟩

end Store.Adds

-- ---------------------------------------------------------------------------
-- Loaders that succeed
-- ---------------------------------------------------------------------------

variable {σ α β : Type}

/-- What holds of the item and of the store if a loader succeeds. -/
def Leaves (st : Store) (x : Loader σ α) (post : α → Store → Prop) : Prop :=
  ∀ p, p.machine.store = st → ∀ a q, x p = .ok a q → post a q.machine.store

section Laws

variable {st : Store} {x : Loader σ α} {k : α → Loader σ β} {mid : α → Store → Prop}
  {post : β → Store → Prop}

theorem leaves_pure {b : β} (h : post b st) : Leaves st (pure b : Loader σ β) post := by
  rintro p rfl b q hrun
  cases hrun
  exact h

theorem leaves_throw (e : Wire.ReadError) : Leaves st (throw e : Loader σ β) post := by
  rintro p - b q hrun
  cases hrun

theorem Leaves.bind (hx : Leaves st x mid) (hk : ∀ a st', mid a st' → Leaves st' (k a) post) :
    Leaves st (x >>= k) post := by
  intro p hp b q hrun
  cases hfirst : x p with
  | error e r =>
    rw [Wire.Loader.bind_of_error hfirst] at hrun
    cases hrun
  | ok a r =>
    rw [Wire.Loader.bind_of_ok hfirst] at hrun
    exact hk a _ (hx p hp a r hfirst) r rfl b q hrun

theorem Leaves.mono {post' : β → Store → Prop} {x : Loader σ β} (hx : Leaves st x post)
    (himp : ∀ b st', post b st' → post' b st') : Leaves st x post' :=
  fun p hp b q hrun => himp b _ (hx p hp b q hrun)

theorem leaves_read_bind {r : Reader α} (hk : ∀ a, Leaves st (k a) post) :
    Leaves st (Wire.Loader.read r >>= k) post := by
  have hread : Leaves (σ := σ) st (Wire.Loader.read r) fun _ st' => st' = st := by
    rintro p rfl a q hrun
    unfold Wire.Loader.read at hrun
    split at hrun
    · cases hrun
      rfl
    · cases hrun
  exact hread.bind fun a st' hst => hst ▸ hk a

theorem leaves_get_bind {k : Progress (Memory σ) → Loader σ β} (hk : ∀ p, Leaves st (k p) post) :
    Leaves st (get >>= k) post := fun p => hk p p

theorem leaves_ask (z : StateM σ α) : Leaves st (Loader.ask z) fun _ st' => st' = st := by
  rintro p rfl a q hrun
  cases hrun
  rfl

theorem leaves_allocate_bind {k : Nat → Loader σ β}
    (hk : Leaves { st with allocated := st.allocated + 1 } (k st.allocated) post) :
    Leaves st (Loader.allocate >>= k) post := by
  rintro p rfl
  exact hk _ rfl

theorem leaves_complete_bind {c : Class} {k : Unit → Loader σ β}
    (hk : Leaves { st with classes := st.classes ++ [c] } (k ()) post) :
    Leaves st (Loader.complete c >>= k) post := by
  rintro p rfl
  exact hk _ rfl

theorem Leaves.nested {x : Loader σ β} (hx : Leaves st x post) :
    Leaves st (Wire.Loader.nested x) post := by
  intro p hp b q hrun
  unfold Wire.Loader.nested at hrun
  split at hrun
  · cases hrun
  split at hrun
  · rename_i b' r hinner
    cases hrun
    exact hx { p with depth := p.depth + 1 } hp b r hinner
  · cases hrun

/-- Items one after the other, each with its own classes. -/
theorem leaves_many {item : Loader σ α} {classes : α → List Class} {good : α → Prop}
    (hitem : ∀ st, Leaves st item fun a st' => st.Adds st' (classes a) ∧ good a) (n : Nat)
    (st : Store) :
    Leaves st (Wire.Loader.many item n) fun as st' =>
      st.Adds st' (as.flatMap classes) ∧ ∀ a ∈ as, good a := by
  induction n generalizing st with
  | zero => exact leaves_pure ⟨.refl st, by simp⟩
  | succ n ih =>
    refine (hitem st).bind fun a st₁ ha => (ih st₁).bind fun as st₂ has => leaves_pure ?_
    exact ⟨ha.1.trans has.1, List.forall_mem_cons.mpr ⟨ha.2, has.2⟩⟩

theorem leaves_counted {item : Loader σ α} {classes : α → List Class} {good : α → Prop}
    (hitem : ∀ st, Leaves st item fun a st' => st.Adds st' (classes a) ∧ good a) (field : Wire.Field)
    (st : Store) :
    Leaves st (Wire.Loader.counted field item) fun as st' =>
      st.Adds st' (as.flatMap classes) ∧ ∀ a ∈ as, good a :=
  leaves_read_bind fun count => leaves_many hitem count.toNat st

end Laws

-- ---------------------------------------------------------------------------
-- The loaders
-- ---------------------------------------------------------------------------

theorem subperm_flatMap {items items' : List α} (h : items.Subperm items') (f : α → List β) :
    (items.flatMap f).Subperm (items'.flatMap f) := by
  obtain ⟨mid, hperm, hsub⟩ := h
  exact ⟨mid.flatMap f, hperm.flatMap_right f, hsub.flatMap f⟩

/-- A body has been loaded for an owner, and its classes are new. -/
structure LoadedBody (st : Store) (owner : Option Nat) (b : Block) (st' : Store) : Prop where
  adds : st.Adds st' b.classes
  owner_eq : b.owner = owner
  wellOwned : b.WellOwned

section Loaders

variable (host : Host σ)

section Nested

variable {block : Option Nat → Loader σ Block}
  (hblock : ∀ owner st, Leaves st (block owner) (LoadedBody st owner))

include hblock

theorem leaves_function (owner : Option Nat) (st : Store) :
    Leaves st (Loader.function block owner) fun f => LoadedBody st owner f.body :=
  (hblock owner st).bind fun _ _ hbody => leaves_read_bind fun _ => leaves_pure hbody

theorem leaves_method (owner : Nat) (st : Store) :
    Leaves st (Loader.method block owner) fun m =>
      LoadedBody st (some owner) m.2.function.body :=
  leaves_read_bind fun _ => leaves_read_bind fun _ =>
    (leaves_function hblock (some owner) st).bind fun _ _ hbody => leaves_pure hbody

theorem leaves_decl (st : Store) :
    Leaves st (Loader.decl block) fun d st' => st.Adds st' d.classes ∧
      ∀ place ∈ d.bodies, place.2.owner = place.1 ∧ place.2.WellOwned := by
  refine leaves_read_bind fun tag => ?_
  split
  · refine (leaves_function hblock none st).bind fun f st' hbody => leaves_pure ⟨hbody.adds, ?_⟩
    intro place hplace
    rw [List.mem_singleton.mp hplace]
    exact ⟨hbody.owner_eq, hbody.wellOwned⟩
  split
  · refine leaves_read_bind fun name => leaves_read_bind fun count => leaves_allocate_bind ?_
    have hmethod : ∀ st', Leaves st' (Loader.method block st.allocated) fun m st'' =>
        st'.Adds st'' m.2.function.body.classes ∧
          m.2.function.body.owner = some st.allocated ∧ m.2.function.body.WellOwned := fun st' =>
      (leaves_method hblock st.allocated st').mono fun m st'' h => ⟨h.adds, h.owner_eq, h.wellOwned⟩
    refine (leaves_many hmethod count.toNat _).bind fun methods st' hmethods => ?_
    refine leaves_complete_bind (leaves_pure ⟨?_, ?_⟩)
    · exact (hmethods.1.mono (subperm_flatMap (Table.ofList_subperm methods) _)).complete rfl
    · intro place hplace
      obtain ⟨m, hm, rfl⟩ := List.mem_map.mp hplace
      exact hmethods.2 m ((Table.ofList_subperm methods).subset hm)
  · exact leaves_throw _

theorem leaves_fields (owner : Option Nat) (st : Store) :
    Leaves st (Loader.fields host block owner) (LoadedBody st owner) := by
  have hconstant : ∀ st, Leaves st (Loader.constant host) fun _ st' => st.Adds st' [] ∧ True :=
    fun st => leaves_read_bind fun n =>
      (leaves_ask (host.wrapInt n)).mono fun _ st' hst => ⟨hst ▸ .refl st', trivial⟩
  refine leaves_read_bind fun code => ?_
  refine (leaves_counted hconstant .constantCount st).bind fun consts st₁ hconsts => ?_
  iterate 8 refine leaves_read_bind fun _ => ?_
  refine (leaves_counted (leaves_decl hblock) .declarationCount st₁).bind fun decls st₂ hdecls => ?_
  refine leaves_read_bind fun lineMap => ?_
  simp only [Block.build?]
  cases stackDepth code with
  | error e => exact leaves_throw _
  | ok depth =>
    refine leaves_pure ⟨?_, rfl, ?_⟩
    · rw [Block.classes_eq]
      exact (hconsts.1.trans hdecls.1).mono (List.sublist_append_right _ _).subperm
    · exact .intro (fun d hd place hplace => (hdecls.2 d hd place hplace).1)
        fun d hd place hplace => (hdecls.2 d hd place hplace).2

end Nested

theorem leaves_block (levels : Nat) (owner : Option Nat) (st : Store) :
    Leaves st (Loader.block host levels owner) (LoadedBody st owner) := by
  induction levels generalizing owner st with
  | zero => exact leaves_get_bind fun p => leaves_throw _
  | succ levels ih => exact (leaves_fields host ih owner st).nested

theorem leaves_wholeBlock (st : Store) :
    Leaves st (Loader.wholeBlock host) (LoadedBody st none) := by
  refine (leaves_block host maxNesting none st).bind fun b st' hb => leaves_get_bind fun p => ?_
  split
  · exact leaves_pure hb
  · exact leaves_throw _

end Loaders

-- ---------------------------------------------------------------------------
-- Loaded trees
-- ---------------------------------------------------------------------------

/-- How the blocks and classes of a loaded tree belong together. -/
structure Loaded.Linked (l : Loaded) : Prop where
  top : l.block.owner = none
  function : ∀ way (i : Nat) b, l.block.at? (way ++ [⟨i, none⟩]) = some b → b.owner = none
  /-- The body of a method belongs to the class that the way to it goes through. -/
  method : ∀ way (i : Nat) name b, l.block.at? (way ++ [⟨i, some name⟩]) = some b →
    ∃ c m, l.block.class? way i = some c ∧ c.method? name = some m ∧ b = m.function.body ∧
      b.owner = some c.address
  isMethod_iff : ∀ way b, l.block.at? way = some b →
    (b.isMethod ↔ ∃ before i name, way = before ++ [⟨i, some name⟩])
  /-- A class in the tree is in memory, where nothing else lies at its address. -/
  stored : ∀ way i c, l.block.class? way i = some c →
    c ∈ l.classes ∧ ∀ d ∈ l.classes, d.address = c.address → d = c
  /-- Classes at two places of the tree have two addresses. -/
  distinct : ∀ way i c way' i' c', l.block.class? way i = some c → l.block.class? way' i' = some c' →
    c.address = c'.address → way = way' ∧ i = i'

theorem LoadedBody.linked {b : Block} {st : Store} (h : LoadedBody {} none b st) :
    Loaded.Linked { block := b, classes := st.classes } := by
  obtain ⟨new, hclasses, hsub, hnodup, -⟩ := h.adds.added
  have hnew : st.classes = new := hclasses
  have haddresses : b.addresses.Nodup := by
    obtain ⟨mid, hperm, hmid⟩ := hsub
    exact ((hperm.map Class.address).nodup_iff).mp (hnodup.sublist (hmid.map Class.address))
  exact {
    top := h.owner_eq
    function := fun way i b hb => h.wellOwned.owner_of_function hb
    method := fun way i name b hb => h.wellOwned.exists_of_method hb
    isMethod_iff := fun way b hb => h.wellOwned.isMethod_iff h.owner_eq hb
    stored := fun way i c hc => by
      have hmem : c ∈ new := hsub.subset (Block.mem_classes_of_class? hc)
      rw [hnew]
      exact ⟨hmem, fun d hd => List.inj_on_of_nodup_map hnodup hd hmem⟩
    distinct := fun way i c way' i' c' hc hc' => Block.place_eq_of_nodup haddresses hc hc' }

theorem linked_of_load {host : Host σ} {buffer : List UInt8} {s : σ} {loaded : Loaded}
    (h : ((load host buffer).run s).1 = .ok loaded) : loaded.Linked := by
  cases hrun : Loader.wholeBlock host
      { cursor := { rest := buffer }, machine := { machine := s } } with
  | error e p =>
    rw [run_load_of_error hrun] at h
    cases h
  | ok b p =>
    rw [run_load_of_ok hrun] at h
    cases h
    exact (leaves_wholeBlock host {} _ rfl b p hrun).linked

/--
An accepted buffer is also loaded into memory, with the same effects on the machine, as the same tree
with addresses of classes in it. A block of that tree has an owner if and only if the last step to it
goes into a method, and its owner is the one class at the address: that through which the step goes.
Without addresses, it is the tree of a record with the shape of the one that the buffer spells, where
classes have the constructors that are listed for them.
-/
theorem load_identity {host : Host σ} {s : σ} {buffer : List UInt8} {t : Bytecode.Block}
    (h : ((Bytecode.Block.load host buffer).run s).1 = .ok t) :
    (∃ loaded, (load host buffer).run s = (.ok loaded, ((Bytecode.Block.load host buffer).run s).2) ∧
      t = loaded.block.erase none ∧
      (∀ way, ∃ name, t.at? way = (loaded.block.at? way).map (Block.erase name)) ∧
      loaded.Linked) ∧
    ∃ (r : Record Int64) (v : Record Value),
      (buffer = r.encode ∧ r.height ≤ maxNesting ∧ ∀ q ∈ r.records, q.Sound) ∧
      v.shape = r.shape ∧ t = v.block none ∧ t.Linked v := by
  refine ⟨?_, Bytecode.Block.load_linked h⟩
  have hrun := run_block_load host buffer s
  rw [hrun] at h ⊢
  cases hloaded : ((load host buffer).run s).1 with
  | error e =>
    rw [hloaded] at h
    cases h
  | ok loaded =>
    rw [hloaded] at h
    cases h
    exact ⟨loaded, Prod.ext hloaded rfl, rfl, loaded.block.at?_erase none, linked_of_load hloaded⟩

/--
Three classes of one name: one with two constructors, and with a method that is none by the case of its
name; one that the constructor declares that counts, next to a function; and one beside the first.
-/
def namesakes : Record Int64 :=
  ⟨{}, [.class "A" [⟨"__construct", ⟨1⟩, ⟨.empty, []⟩⟩, ⟨"__Construct", ⟨0⟩, ⟨.empty, []⟩⟩,
    ⟨"__construct", ⟨2⟩,
      ⟨⟨{}, [.function ⟨.empty, []⟩, .class "A" [⟨"f", ⟨0⟩, ⟨.empty, []⟩⟩]]⟩, []⟩⟩],
    .class "A" [⟨"f", ⟨0⟩, ⟨.empty, []⟩⟩]]⟩

theorem read_namesakes : (Record.read namesakes.encode).1 = .ok namesakes := by
  refine Wire.Record.read_eq_ok_iff.mpr ⟨rfl, by decide, fun q hq => ?_⟩
  simp only [namesakes, Record.records, Wire.Entry.records, Wire.Member.records, Wire.Routine.records,
    Record.empty, List.mem_append, List.mem_cons, List.not_mem_nil, or_false, or_assoc] at hq
  rcases hq with rfl | rfl | rfl | rfl | rfl | rfl | rfl
  all_goals exact ⟨⟨by decide +kernel, by simp [Wire.chunkWords]⟩, 0, by cbv⟩

theorem load_identity_namesakes :
    let t := namesakes.values.block none
    ((Bytecode.Block.load Host.silent namesakes.encode).run ()).1 = .ok t ∧
    (∃ v, v.shape = namesakes.shape ∧ t.Linked v) ∧
    ((t.at? [⟨0, some "__construct"⟩]).map Bytecode.Block.owner = some (some "A") ∧
      (t.at? [⟨0, some "__construct"⟩, ⟨1, some "f"⟩]).map Bytecode.Block.owner = some (some "A") ∧
      (t.at? [⟨1, some "f"⟩]).map Bytecode.Block.owner = some (some "A")) ∧
    ∃ loaded outer inner next, ((load Host.silent namesakes.encode).run ()).1 = .ok loaded ∧
      loaded.block.class? [] 0 = some outer ∧
      loaded.block.class? [⟨0, some "__construct"⟩] 1 = some inner ∧
      loaded.block.class? [] 1 = some next ∧
      [outer.address, inner.address, next.address].Nodup ∧
      (loaded.block.at? [⟨0, some "__construct"⟩]).map Block.owner = some (some outer.address) ∧
      (loaded.block.at? [⟨0, some "__construct"⟩, ⟨0, none⟩]).map Block.owner = some none ∧
      (loaded.block.at? [⟨0, some "__construct"⟩, ⟨1, some "f"⟩]).map Block.owner =
        some (some inner.address) ∧
      (loaded.block.at? [⟨1, some "f"⟩]).map Block.owner = some (some next.address) := by
  intro t
  have hload : ((Bytecode.Block.load Host.silent namesakes.encode).run ()).1 = .ok t :=
    (Wire.load_eq_ok_iff Wire.keepsInts_silent).mpr ⟨_, read_namesakes, rfl⟩
  obtain ⟨⟨loaded, hrun, -, hways, hlinked⟩, r, v, hrecord, hshape, -, hmade⟩ := load_identity hload
  -- A buffer is read as one record only.
  cases read_namesakes.symm.trans (Wire.Record.read_eq_ok_iff.mpr hrecord)
  have hfound : ∀ way, (t.at? way).isSome → ∃ b, loaded.block.at? way = some b := by
    intro way hsome
    obtain ⟨name, hway⟩ := hways way
    rw [hway, Option.isSome_map] at hsome
    exact Option.isSome_iff_exists.mp hsome
  obtain ⟨b₁, hb₁⟩ := hfound [⟨0, some "__construct"⟩] rfl
  obtain ⟨b₂, hb₂⟩ := hfound [⟨0, some "__construct"⟩, ⟨0, none⟩] rfl
  obtain ⟨b₃, hb₃⟩ := hfound [⟨0, some "__construct"⟩, ⟨1, some "f"⟩] rfl
  obtain ⟨b₄, hb₄⟩ := hfound [⟨1, some "f"⟩] rfl
  obtain ⟨outer, _, houter, -, -, hfirst⟩ := hlinked.method [] 0 "__construct" b₁ hb₁
  obtain ⟨inner, _, hinner, -, -, hsecond⟩ :=
    hlinked.method [⟨0, some "__construct"⟩] 1 "f" b₃ hb₃
  obtain ⟨next, _, hnext, -, -, hthird⟩ := hlinked.method [] 1 "f" b₄ hb₄
  have hfunction := hlinked.function [⟨0, some "__construct"⟩] 0 b₂ hb₂
  have hapart : [outer.address, inner.address, next.address].Nodup := by
    have hone : outer.address ≠ inner.address := fun h =>
      absurd (hlinked.distinct _ _ _ _ _ _ houter hinner h).1 (by decide)
    have htwo : outer.address ≠ next.address := fun h =>
      absurd (hlinked.distinct _ _ _ _ _ _ houter hnext h).2 (by decide)
    have hthree : inner.address ≠ next.address := fun h =>
      absurd (hlinked.distinct _ _ _ _ _ _ hinner hnext h).1 (by decide)
    simp [hone, htwo, hthree]
  refine ⟨hload, ⟨v, hshape, hmade⟩, ⟨rfl, rfl, rfl⟩, loaded, outer, inner, next,
    congrArg Prod.fst hrun, houter, hinner, hnext, hapart, ?_, ?_, ?_, ?_⟩
  · rw [hb₁, Option.map_some, hfirst]
  · rw [hb₂, Option.map_some, hfunction]
  · rw [hb₃, Option.map_some, hsecond]
  · rw [hb₄, Option.map_some, hthird]

end Bytecode.Heap
