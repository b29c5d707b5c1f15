-- SUMMARY: What of a loaded tree is up to the host: the values of the constants, and nothing else.
import Bytecode.Proofs.Wire.OnePass
import Bytecode.Proofs.Wire.Serializing

/-!
# Values of the host

A record is known by its shape and by its constants in wire order. The record whose constants are their
own numbers in that order thus says where in a tree the values go that a host makes one after the
other. All the rest of the tree, the errors, and the integers that the host is asked for, are the same
for every host.
-/

namespace Bytecode

namespace Wire

variable {κ ν σ : Type}

-- ---------------------------------------------------------------------------
-- Shape and constants
-- ---------------------------------------------------------------------------

theorem Record.constants_mapConsts (g : κ → ν) (r : Record κ) :
    (r.mapChunks (Chunk.mapConsts g)).constants = r.constants.map g := by
  rw [Record.constants, Record.pieces_mapChunks (changesConstants_mapConsts g), Record.constants,
    List.flatMap_map, List.map_flatMap]
  refine List.flatMap_congr fun p _ => ?_
  cases p <;> rfl

theorem Record.shape_mapConsts (g : κ → ν) (r : Record κ) :
    (r.mapChunks (Chunk.mapConsts g)).shape = r.shape := by
  rw [Record.shape, Record.mapChunks_mapChunks]
  refine Record.mapChunks_congr fun q _ => ?_
  simp [Chunk.shape, Chunk.mapConsts, Chunk.withConsts, Function.comp_def]

theorem Chunk.split_of_shape_eq {c d : Chunk κ} {ks ls : List κ} (hshape : c.shape = d.shape)
    (hconsts : c.consts ++ ks = d.consts ++ ls) : c = d ∧ ks = ls := by
  have hlength : c.consts.length = d.consts.length := by
    simpa [Chunk.shape, Chunk.mapConsts, Chunk.withConsts] using
      congrArg (fun e : Chunk Unit => e.consts.length) hshape
  obtain ⟨hsame, hrest⟩ := List.append_inj hconsts hlength
  refine ⟨?_, hrest⟩
  have hback : c.shape.withConsts c.consts = d.shape.withConsts d.consts := by rw [hshape, hsame]
  exact hback

mutual

theorem Record.split_of_shape_eq : ∀ (r q : Record κ) {ks ls : List κ}, r.shape = q.shape →
    r.constants ++ ks = q.constants ++ ls → r = q ∧ ks = ls
  | ⟨chunk, entries⟩, ⟨chunk', entries'⟩, ks, ls, hshape, hconsts => by
    simp only [Record.shape, Record.mapChunks, Record.mk.injEq] at hshape
    rw [Record.constants_mk, Record.constants_mk, List.append_assoc, List.append_assoc] at hconsts
    obtain ⟨rfl, hrest⟩ := Chunk.split_of_shape_eq hshape.1 hconsts
    obtain ⟨rfl, rfl⟩ := Entry.split_of_shape_eq entries entries' hshape.2 hrest
    exact ⟨rfl, rfl⟩

theorem Entry.split_of_shape_eq : ∀ (es es' : List (Entry κ)) {ks ls : List κ},
    Entry.mapAll Chunk.shape es = Entry.mapAll Chunk.shape es' →
    Entry.constants es ++ ks = Entry.constants es' ++ ls → es = es' ∧ ks = ls
  | [], [], _, _, _, hconsts => ⟨rfl, hconsts⟩
  | .function r :: rest, .function r' :: rest', ks, ls, hshape, hconsts => by
    simp only [Entry.mapAll, List.cons.injEq, Entry.function.injEq] at hshape
    rw [Entry.constants_function, Entry.constants_function, List.append_assoc,
      List.append_assoc] at hconsts
    obtain ⟨rfl, hrest⟩ := Routine.split_of_shape_eq r r' hshape.1 hconsts
    obtain ⟨rfl, rfl⟩ := Entry.split_of_shape_eq rest rest' hshape.2 hrest
    exact ⟨rfl, rfl⟩
  | .class name members :: rest, .class name' members' :: rest', ks, ls, hshape, hconsts => by
    simp only [Entry.mapAll, List.cons.injEq, Entry.class.injEq] at hshape
    obtain ⟨⟨rfl, hmembers⟩, hentries⟩ := hshape
    rw [Entry.constants_class, Entry.constants_class, List.append_assoc,
      List.append_assoc] at hconsts
    obtain ⟨rfl, hrest⟩ := Member.split_of_shape_eq members members' hmembers hconsts
    obtain ⟨rfl, rfl⟩ := Entry.split_of_shape_eq rest rest' hentries hrest
    exact ⟨rfl, rfl⟩
  | .function _ :: _, .class .. :: _, _, _, hshape, _ => by simp [Entry.mapAll] at hshape
  | .class .. :: _, .function _ :: _, _, _, hshape, _ => by simp [Entry.mapAll] at hshape
  | [], e :: _, _, _, hshape, _ => by cases e <;> simp [Entry.mapAll] at hshape
  | e :: _, [], _, _, hshape, _ => by cases e <;> simp [Entry.mapAll] at hshape

theorem Routine.split_of_shape_eq : ∀ (r r' : Routine κ) {ks ls : List κ},
    r.mapChunks Chunk.shape = r'.mapChunks Chunk.shape →
    r.constants ++ ks = r'.constants ++ ls → r = r' ∧ ks = ls
  | ⟨body, params⟩, ⟨body', params'⟩, ks, ls, hshape, hconsts => by
    simp only [Routine.mapChunks, Routine.mk.injEq] at hshape
    obtain ⟨hbody, rfl⟩ := hshape
    rw [Routine.constants_mk, Routine.constants_mk] at hconsts
    obtain ⟨rfl, rfl⟩ := Record.split_of_shape_eq body body' hbody hconsts
    exact ⟨rfl, rfl⟩

theorem Member.split_of_shape_eq : ∀ (ms ms' : List (Member κ)) {ks ls : List κ},
    Member.mapAll Chunk.shape ms = Member.mapAll Chunk.shape ms' →
    Member.constants ms ++ ks = Member.constants ms' ++ ls → ms = ms' ∧ ks = ls
  | [], [], _, _, _, hconsts => ⟨rfl, hconsts⟩
  | ⟨name, flags, routine⟩ :: rest, ⟨name', flags', routine'⟩ :: rest', ks, ls, hshape, hconsts => by
    simp only [Member.mapAll, List.cons.injEq, Member.mk.injEq] at hshape
    obtain ⟨⟨rfl, rfl, hroutine⟩, hmembers⟩ := hshape
    rw [Member.constants_cons, Member.constants_cons, List.append_assoc,
      List.append_assoc] at hconsts
    obtain ⟨rfl, hrest⟩ := Routine.split_of_shape_eq routine routine' hroutine hconsts
    obtain ⟨rfl, rfl⟩ := Member.split_of_shape_eq rest rest' hmembers hrest
    exact ⟨rfl, rfl⟩
  | [], ⟨_, _, _⟩ :: _, _, _, hshape, _ => by simp [Member.mapAll] at hshape
  | ⟨_, _, _⟩ :: _, [], _, _, hshape, _ => by simp [Member.mapAll] at hshape

end

/-- Records of one shape differ in their constants, if they differ at all. -/
theorem Record.eq_of_shape_eq {r q : Record κ} (hshape : r.shape = q.shape)
    (hconstants : r.constants = q.constants) : r = q := by
  have happend : r.constants ++ [] = q.constants ++ [] := by rw [hconstants]
  exact (Record.split_of_shape_eq r q hshape happend).1

-- ---------------------------------------------------------------------------
-- Numbers for constants
-- ---------------------------------------------------------------------------

/-- Gives the numbers from the state on, one after the other. -/
def nextNumber (_ : κ) : StateM Nat Nat := fun n => (n, n + 1)

theorem run_mapM_nextNumber (ks : List κ) (n : Nat) :
    (ks.mapM nextNumber).run n = (List.range' n ks.length, n + ks.length) := by
  induction ks generalizing n with
  | nil => rfl
  | cons k rest ih =>
    have hrest := ih (n + 1)
    rw [List.mapM_cons, List.length_cons, List.range'_succ]
    change (n :: ((rest.mapM nextNumber).run (n + 1)).1, ((rest.mapM nextNumber).run (n + 1)).2) = _
    rw [hrest, Nat.add_right_comm, Nat.add_assoc]

/-- The record with every constant replaced by its number in wire order. -/
def Record.numbered (r : Record κ) : Record Nat := ((r.traverse nextNumber).run 0).1

theorem Record.shape_numbered (r : Record κ) : r.numbered.shape = r.shape :=
  (Record.replaces_traverse (f := nextNumber) r 0).1

theorem Record.constants_numbered (r : Record κ) :
    r.numbered.constants = List.range r.constants.length := by
  have hrun := (Record.replaces_traverse (f := nextNumber) r 0).2
  rw [run_mapM_nextNumber, ← List.range_eq_range'] at hrun
  exact (congrArg Prod.fst hrun).symm

/-- The record with the values in the places of their numbers. -/
def Record.filled (r : Record Nat) (values : List Value) : Record Value :=
  r.mapChunks (Chunk.mapConsts fun k => values.getD k .null)

/-- Whatever values take the places of the constants of a record, they do so in wire order. -/
theorem Record.eq_filled_numbered {r : Record κ} {q : Record Value} (hshape : q.shape = r.shape)
    (hlength : q.constants.length = r.constants.length) : q = r.numbered.filled q.constants := by
  refine Record.eq_of_shape_eq ?_ ?_
  · rw [Record.filled, Record.shape_mapConsts, Record.shape_numbered, hshape]
  · rw [Record.filled, Record.constants_mapConsts,
      Record.constants_numbered, ← hlength]
    refine List.ext_getElem (by simp) fun k hk _ => ?_
    simp [List.getD_eq_getElem?_getD, hk]

end Wire

-- ---------------------------------------------------------------------------
-- Hosts
-- ---------------------------------------------------------------------------

/-- The same host, keeping a record of the integers that it is asked for and the values it makes. -/
def Host.recorded {σ : Type} (host : Host σ) : Host (σ × List (Int64 × Value)) where
  wrapInt n := fun (s, log) =>
    ((host.wrapInt n s).1, (host.wrapInt n s).2, log ++ [(n, (host.wrapInt n s).1)])
  declareClass c := fun (s, log) => ((), (host.declareClass c s).2, log)

open Wire

section Recorded

variable {σ : Type} (host : Host σ)

theorem run_mapM_recorded (ns : List Int64) (s : σ) (log : List (Int64 × Value)) :
    (ns.mapM host.recorded.wrapInt).run (s, log) =
      (((ns.mapM host.wrapInt).run s).1, ((ns.mapM host.wrapInt).run s).2,
        log ++ ns.zip ((ns.mapM host.wrapInt).run s).1) := by
  induction ns generalizing s log with
  | nil =>
    rw [List.zip_nil_left, List.append_nil]
    rfl
  | cons n rest ih =>
    let v := ((host.wrapInt n).run s).1
    let s' := ((host.wrapInt n).run s).2
    rw [List.mapM_cons, List.mapM_cons]
    change (v :: ((rest.mapM host.recorded.wrapInt).run (s', log ++ [(n, v)])).1,
      ((rest.mapM host.recorded.wrapInt).run (s', log ++ [(n, v)])).2) =
      (v :: ((rest.mapM host.wrapInt).run s').1, ((rest.mapM host.wrapInt).run s').2,
        log ++ (n :: rest).zip (v :: ((rest.mapM host.wrapInt).run s').1))
    rw [ih, List.zip_cons_cons, List.append_assoc, List.singleton_append]

theorem run_forM_declareClass_recorded (cs : List Class) (s : σ) (log : List (Int64 × Value)) :
    (cs.forM host.recorded.declareClass).run (s, log) =
      ((), ((cs.forM host.declareClass).run s).2, log) := by
  induction cs generalizing s with
  | nil => rfl
  | cons c rest ih => exact ih ((host.declareClass c).run s).2

theorem Wire.Record.run_traverse_recorded (r : Record Int64) (s : σ) (log : List (Int64 × Value)) :
    (r.traverse host.recorded.wrapInt).run (s, log) =
      (((r.traverse host.wrapInt).run s).1, ((r.traverse host.wrapInt).run s).2,
        log ++ r.constants.zip ((r.traverse host.wrapInt).run s).1.constants) := by
  obtain ⟨hshape, hvalues⟩ := Record.replaces_traverse (f := host.wrapInt) r s
  obtain ⟨hshape', hvalues'⟩ := Record.replaces_traverse (f := host.recorded.wrapInt) r (s, log)
  rw [run_mapM_recorded, hvalues] at hvalues'
  obtain ⟨hconsts, hstate⟩ := Prod.mk.inj hvalues'
  have hsame := Record.eq_of_shape_eq (hshape.trans hshape'.symm) hconsts
  exact Prod.ext hsame.symm hstate.symm

/-- The values that a host makes, one for each integer constant of the buffer as far as it is read. -/
theorem load_recorded (buffer : List UInt8) (s : σ) :
    ∃ values : List Value, values.length = (Record.read buffer).2.length ∧
      (Block.load host.recorded buffer).run (s, []) =
        (((Block.load host buffer).run s).1, ((Block.load host buffer).run s).2,
          (Record.read buffer).2.zip values) ∧
      ((Block.load host buffer).run s).1 =
        (Record.read buffer).1.map fun r => (r.numbered.filled values).block none := by
  cases hread : (Record.read buffer).1 with
  | error e =>
    have hvalues := replaces_mapM (f := host.wrapInt) (Record.read buffer).2 s
    refine ⟨(((Record.read buffer).2.mapM host.wrapInt).run s).1, hvalues.1, ?_, ?_⟩
    · rw [run_load_of_error hread, run_load_of_error hread, run_mapM_recorded, List.nil_append]
    · rw [run_load_of_error hread]
      rfl
  | ok r =>
    obtain ⟨hshape, hvalues⟩ := Record.replaces_traverse (f := host.wrapInt) r s
    have hlength := (replaces_mapM (f := host.wrapInt) r.constants s).1
    rw [hvalues] at hlength
    have hmet := Record.met_read_of_ok hread
    refine ⟨((r.traverse host.wrapInt).run s).1.constants, by rw [hmet]; exact hlength, ?_, ?_⟩
    · rw [run_load_of_ok hread, run_load_of_ok hread, Record.run_traverse_recorded,
        run_forM_declareClass_recorded, List.nil_append, hmet]
    · rw [run_load_of_ok hread, Except.map, ← Record.eq_filled_numbered hshape hlength]

end Recorded

/--
While the buffer is loaded, the host is asked for the integers one after the other, and makes one of
the values for each. That they are recorded changes nothing else.
-/
structure Host.Makes {σ : Type} (host : Host σ) (buffer : List UInt8) (s : σ) (ints : List Int64)
    (values : List Value) : Prop where
  length_eq : values.length = ints.length
  run_recorded : (Block.loadOnePass host.recorded buffer).run (s, []) =
    (((Block.loadOnePass host buffer).run s).1, ((Block.loadOnePass host buffer).run s).2,
      ints.zip values)

/--
The host has no part in how a buffer is read, although its constants are made on the way. Two hosts
are asked for the same integers, and get the same error or trees that differ in constants only: where
there is the constant of number `k` in wire order, each has the value that its host has made as the
one of number `k`.
-/
theorem Block.load_two_hosts {σ₁ σ₂ : Type} (host₁ : Host σ₁) (host₂ : Host σ₂)
    (buffer : List UInt8) (s₁ : σ₁) (s₂ : σ₂) :
    (Block.loadOnePass host₁ buffer = Block.load host₁ buffer ∧
      Block.loadOnePass host₂ buffer = Block.load host₂ buffer) ∧
    ∃ (ints : List Int64) (values₁ values₂ : List Value),
      host₁.Makes buffer s₁ ints values₁ ∧ host₂.Makes buffer s₂ ints values₂ ∧
      match ((Block.loadOnePass host₁ buffer).run s₁).1,
        ((Block.loadOnePass host₂ buffer).run s₂).1 with
      | .error e₁, .error e₂ => e₁ = e₂
      | .ok t₁, .ok t₂ => ∃ (r : Record Int64) (numbered : Record Nat),
          (buffer = r.encode ∧ r.height ≤ maxNesting ∧ ∀ q ∈ r.records, q.Sound) ∧
          r.constants = ints ∧ numbered.shape = r.shape ∧
          numbered.constants = List.range ints.length ∧
          t₁ = (numbered.filled values₁).block none ∧ t₂ = (numbered.filled values₂).block none
      | _, _ => False := by
  obtain ⟨values₁, hlength₁, hrun₁, htree₁⟩ := load_recorded host₁ buffer s₁
  obtain ⟨values₂, hlength₂, hrun₂, htree₂⟩ := load_recorded host₂ buffer s₂
  refine ⟨⟨Block.loadOnePass_eq_load host₁ buffer, Block.loadOnePass_eq_load host₂ buffer⟩,
    (Record.read buffer).2, values₁, values₂, ⟨hlength₁, ?_⟩, ⟨hlength₂, ?_⟩, ?_⟩
  · simpa only [Block.loadOnePass_eq_load] using hrun₁
  · simpa only [Block.loadOnePass_eq_load] using hrun₂
  · rw [Block.loadOnePass_eq_load, Block.loadOnePass_eq_load, htree₁, htree₂]
    cases hread : (Record.read buffer).1 with
    | error e => rfl
    | ok r =>
      have hmet := Record.met_read_of_ok hread
      refine ⟨r, r.numbered, Record.read_eq_ok_iff.mp hread, hmet.symm, r.shape_numbered, ?_, rfl,
        rfl⟩
      rw [hmet, Record.constants_numbered]

end Bytecode
