-- SUMMARY: The stack check of a load: no block that fails it comes out, and the first that fails is the one reported.
import Bytecode.Proofs.Wire.RecordBlock
import Bytecode.Proofs.Wire.Traversal

/-!
# Checking while loading

Every block of a loaded tree has passed the stack check, also in functions and methods. Conversely,
where everything else about a buffer is in order, a failing block is reported: the first in
post-order, since a block is checked after the blocks inside it and before the one around it.
-/

namespace Bytecode

theorem Chunk.stackDepth_eq_of_ok {κ : Type} {c : Chunk κ} {depth : Nat}
    (h : Bytecode.stackDepth c.code = .ok depth) :
    Bytecode.stackDepth c.code = .ok c.stackDepth := by
  rw [Chunk.stackDepth, h]

namespace Wire

variable {κ : Type}

-- ---------------------------------------------------------------------------
-- Post-order
-- ---------------------------------------------------------------------------

mutual

/-- A record and all records inside, each behind those below it. -/
def Record.postorder : Record κ → List (Record κ)
  | ⟨chunk, entries⟩ => Entry.postorder entries ++ [⟨chunk, entries⟩]

def Entry.postorder : List (Entry κ) → List (Record κ)
  | [] => []
  | .function r :: rest => Routine.postorder r ++ Entry.postorder rest
  | .class _ members :: rest => Member.postorder members ++ Entry.postorder rest

def Routine.postorder : Routine κ → List (Record κ)
  | ⟨body, _⟩ => Record.postorder body

def Member.postorder : List (Member κ) → List (Record κ)
  | [] => []
  | ⟨_, _, routine⟩ :: rest => Routine.postorder routine ++ Member.postorder rest

end

theorem Member.postorder_eq (members : List (Member κ)) :
    Member.postorder members = members.flatMap fun m => m.routine.body.postorder := by
  induction members with
  | nil => rfl
  | cons m rest ih =>
    obtain ⟨_, _, _, _⟩ := m
    simp [Member.postorder, Routine.postorder, ih]

theorem Entry.postorder_eq (entries : List (Entry κ)) :
    Entry.postorder entries = entries.flatMap fun e => e.bodies.flatMap Record.postorder := by
  induction entries with
  | nil => rfl
  | cons e rest ih =>
    cases e with
    | function r =>
      obtain ⟨_, _⟩ := r
      simp [Entry.postorder, Routine.postorder, Entry.bodies, ih]
    | «class» name members =>
      simp [Entry.postorder, Member.postorder_eq, Entry.bodies, ih, List.flatMap_map]

theorem Record.postorder_eq (r : Record κ) :
    r.postorder = r.bodies.flatMap Record.postorder ++ [r] := by
  obtain ⟨chunk, entries⟩ := r
  simp [Record.postorder, Entry.postorder_eq, Record.bodies, List.flatMap_assoc]

/-- No record is left out, and none comes twice. -/
theorem Record.postorder_perm_records (r : Record κ) : r.postorder.Perm r.records := by
  induction r using Record.induction with
  | step r ih =>
    rw [Record.postorder_eq, Record.records_eq]
    exact (List.perm_append_singleton _ _).trans (.cons r (List.Perm.flatMap_left _ ih))

-- ---------------------------------------------------------------------------
-- The first failure
-- ---------------------------------------------------------------------------

theorem findSome?_flatMap {α β γ : Type} (f : β → Option γ) (g : α → List β) (as : List α) :
    (as.flatMap g).findSome? f = as.findSome? fun a => (g a).findSome? f := by
  induction as with
  | nil => rfl
  | cons a rest ih =>
    rw [List.flatMap_cons, List.findSome?_append, ih, List.findSome?_cons]
    cases (g a).findSome? f <;> rfl

/-- The error that a record is refused with when its code fails the stack check. -/
def Record.buildError? (r : Record κ) : Option ReadError :=
  match stackDepth r.chunk.code with
  | .ok _ => none
  | .error e => some (.build e)

theorem Record.buildError?_eq_none_iff {r : Record κ} :
    r.buildError? = none ↔ ∃ depth, stackDepth r.chunk.code = .ok depth := by
  unfold Record.buildError?
  cases stackDepth r.chunk.code <;> simp

theorem Record.buildError?_eq_some_iff {r : Record κ} {error : ReadError} :
    r.buildError? = some error ↔ ∃ e, stackDepth r.chunk.code = .error e ∧ error = .build e := by
  unfold Record.buildError?
  cases stackDepth r.chunk.code <;> simp [eq_comm]

namespace Passage

variable {p q : Passage}

theorem fault?_append_of_clean (h : p.Clean) (offset : Nat) :
    (p ++ q).fault? offset = q.fault? (offset + p.bytes.length) := by
  rw [fault?_append, (fault?_eq_none_iff offset).mpr h, Option.none_or]

/-- Where the errors of items do not name their places, the first of them is that of the items. -/
theorem fault?_flatMap {α : Type} {item : α → Passage} {fault : α → Option ReadError}
    {items : List α} (h : ∀ a ∈ items, ∀ offset, (item a).fault? offset = fault a) (offset : Nat) :
    Passage.fault? (items.flatMap item) offset = items.findSome? fault := by
  induction items generalizing offset with
  | nil => rfl
  | cons a rest ih =>
    have hhead := h a List.mem_cons_self offset
    have hrest := ih fun b hb => h b (List.mem_cons_of_mem a hb)
    rw [List.flatMap_cons, fault?_append, hhead, hrest, List.findSome?_cons]
    cases fault a <;> rfl

section Nested

variable {body : Record Int64 → Passage} {fault : Record Int64 → Option ReadError}

theorem fault?_routine {r : Routine Int64}
    (hbody : ∀ offset, (body r.body).fault? offset = fault r.body)
    (h : ∀ n ∈ r.lengths, n < 2 ^ 63) (offset : Nat) :
    (routine body r).fault? offset = fault r.body := by
  have hparams : ∀ offset, (params r.params).fault? offset = none := fun offset =>
    (fault?_eq_none_iff offset).mpr (clean_params.mpr h)
  rw [routine, fault?_append, hbody, hparams, Option.or_none]

theorem fault?_member {m : Member Int64}
    (hbody : ∀ offset, (body m.routine.body).fault? offset = fault m.routine.body)
    (h : ∀ n ∈ m.lengths, n < 2 ^ 63) (offset : Nat) :
    (member body m).fault? offset = fault m.routine.body := by
  have hname : (text .methodName m.name).Clean := clean_text.mpr (h _ List.mem_cons_self)
  rw [member, fault?_append_of_clean hname, fault?_append_of_clean (clean_word _)]
  exact fault?_routine hbody (fun n hn => h n (List.mem_cons_of_mem _ hn)) _

theorem fault?_entry {e : Entry Int64}
    (hbody : ∀ q ∈ e.bodies, ∀ offset, (body q).fault? offset = fault q)
    (h : ∀ n ∈ e.lengths, n < 2 ^ 63) (offset : Nat) :
    (entry body e).fault? offset = e.bodies.findSome? fault := by
  cases e with
  | function r =>
    have hmem : r.body ∈ (Entry.function r).bodies := List.mem_singleton_self _
    rw [entry, fault?_append_of_clean (clean_byte _), fault?_routine (hbody r.body hmem) h]
    exact (List.findSome?_singleton).symm
  | «class» name members =>
    have hname : (text .className name).Clean := clean_text.mpr (h _ List.mem_cons_self)
    have hcount : (number .methodCount members.length).Clean :=
      clean_number.mpr (h _ (List.mem_cons_of_mem _ List.mem_cons_self))
    have hmembers : ∀ m ∈ members, ∀ offset,
        (member body m).fault? offset = fault m.routine.body := by
      intro m hm
      refine fault?_member (hbody _ (List.mem_map_of_mem hm)) fun n hn => h n ?_
      simp only [Entry.lengths, List.mem_cons, List.mem_flatMap]
      exact .inr (.inr ⟨m, hm, hn⟩)
    rw [entry, fault?_append_of_clean (clean_byte _), fault?_append_of_clean hname, counted,
      fault?_append_of_clean hcount, fault?_flatMap hmembers]
    exact (List.findSome?_map).symm

theorem fault?_check (r : Record Int64) (offset : Nat) :
    (check r.chunk.code).fault? offset = r.buildError? := by
  unfold check Record.buildError? fault?
  cases stackDepth r.chunk.code <;> rfl

theorem fault?_fields {r : Record Int64} (h : r.WellFormed)
    (hbody : ∀ q ∈ r.bodies, ∀ offset, (body q).fault? offset = fault q) (offset : Nat) :
    (fields body r).fault? offset = (r.bodies.findSome? fault).or r.buildError? := by
  have hlengths : (∀ n ∈ chunkLengths r.chunk, n < 2 ^ 63) ∧
      ∀ n ∈ r.entries.length :: r.entries.flatMap Entry.lengths, n < 2 ^ 63 :=
    List.forall_mem_append.mp h.lengths
  obtain ⟨hchunk, hmap⟩ := clean_chunk.mpr ⟨hlengths.1, h.words⟩
  obtain ⟨hcount, hentries⟩ := List.forall_mem_cons.mp hlengths.2
  have hentry : ∀ e ∈ r.entries, ∀ offset,
      (entry body e).fault? offset = e.bodies.findSome? fault := by
    intro e he
    apply fault?_entry
    · exact fun q hq => hbody q (List.mem_flatMap.mpr ⟨e, he, hq⟩)
    · exact fun n hn => hentries n (List.mem_flatMap.mpr ⟨e, he, hn⟩)
  rw [fields, fault?_append_of_clean hchunk, fault?_append, fault?_append_of_clean hmap,
    fault?_check, counted, fault?_append_of_clean (clean_number.mpr hcount),
    fault?_flatMap hentry, Record.bodies, findSome?_flatMap]

end Nested

/-- In a well-formed record, the first error is that of the first failing record in post-order. -/
theorem fault?_record {levels : Nat} {r : Record Int64} (hheight : r.height ≤ levels)
    (h : ∀ q ∈ r.records, q.WellFormed) (offset : Nat) :
    (record levels r).fault? offset = r.postorder.findSome? Record.buildError? := by
  induction levels generalizing r offset with
  | zero => exact absurd r.height_pos (by omega)
  | succ levels ih =>
    have hbody : ∀ q ∈ r.bodies, ∀ offset,
        (record levels q).fault? offset = q.postorder.findSome? Record.buildError? := by
      intro q hq offset
      refine ih (Record.height_le_succ_iff.mp hheight q hq) (fun p hp => h p ?_) offset
      exact Record.mem_records_of_body hq hp
    rw [record, fault?_fields (h r r.mem_records_self) hbody, Record.postorder_eq,
      List.findSome?_append, findSome?_flatMap, List.findSome?_singleton]

end Passage

-- ---------------------------------------------------------------------------
-- Loading
-- ---------------------------------------------------------------------------

section Load

variable {σ : Type} (host : Host σ) (s : σ)

theorem exists_code_eq_of_load {buffer : List UInt8} {t b : Block} {r : Record Int64}
    (hr : (Record.read buffer).1 = .ok r) (ht : ((Block.load host buffer).run s).1 = .ok t)
    (hb : b ∈ t.blocks) : ∃ q ∈ r.records, b.chunk.code = q.chunk.code := by
  rw [run_load, hr] at ht
  cases ht
  obtain ⟨hshape, -⟩ := Record.replaces_traverse (f := host.wrapInt) r s
  have hmem : b.record ∈ (((r.traverse host.wrapInt).run s).1.block none).record.records := by
    rw [Block.records_record]
    exact List.mem_map_of_mem hb
  rw [Record.record_block] at hmem
  obtain ⟨p, hp, heq⟩ := Record.exists_of_mem_records_collapsed hmem
  obtain ⟨q, hq, hpq⟩ := Record.exists_of_shape_eq hshape hp
  refine ⟨q, hq, ?_⟩
  have hchunk := congrArg Record.chunk heq
  rw [Block.chunk_record, Record.chunk_collapsed] at hchunk
  rw [hchunk, Record.code_eq_of_shape_eq hpq]

theorem stackDepth_of_load {buffer : List UInt8} {t : Block}
    (ht : ((Block.load host buffer).run s).1 = .ok t) :
    ∀ b ∈ t.blocks, stackDepth b.chunk.code = .ok b.chunk.stackDepth := by
  intro b hb
  obtain ⟨r, hr⟩ := exists_load_eq_ok_iff.mp ⟨t, ht⟩
  obtain ⟨-, -, hsound⟩ := Record.read_eq_ok_iff.mp hr
  obtain ⟨q, hq, hcode⟩ := exists_code_eq_of_load host s hr ht hb
  obtain ⟨depth, hdepth⟩ := (hsound q hq).checked
  rw [← hcode] at hdepth
  exact Chunk.stackDepth_eq_of_ok hdepth

theorem load_encode_of_buildError {r : Record Int64} (hheight : r.height ≤ maxNesting)
    (hwf : ∀ q ∈ r.records, q.WellFormed)
    (hfails : ∃ q ∈ r.records, ∀ depth, stackDepth q.chunk.code ≠ .ok depth) :
    ∃ before q after e, r.postorder = before ++ q :: after ∧
      (∀ p ∈ before, ∃ depth, stackDepth p.chunk.code = .ok depth) ∧
      stackDepth q.chunk.code = .error e ∧
      ((Block.load host r.encode).run s).1 = .error (.build e) := by
  obtain ⟨q, hq, hfail⟩ := hfails
  have hsome : (r.postorder.findSome? Record.buildError?).isSome := by
    refine List.findSome?_isSome_iff.mpr ⟨q, r.postorder_perm_records.mem_iff.mpr hq, ?_⟩
    rw [Option.isSome_iff_ne_none, ne_eq, Record.buildError?_eq_none_iff]
    exact fun ⟨depth, hdepth⟩ => hfail depth hdepth
  obtain ⟨error, herror⟩ := Option.isSome_iff_exists.mp hsome
  have hread : (Record.read r.encode).1 = .error error := by
    rw [Record.read_encode fun q hq => (hwf q hq).spellable,
      Passage.fault?_record hheight hwf, herror]
  obtain ⟨before, q, after, hsplit, hq, hbefore⟩ := List.findSome?_eq_some_iff.mp herror
  obtain ⟨e, he, rfl⟩ := Record.buildError?_eq_some_iff.mp hq
  refine ⟨before, q, after, e, hsplit, fun p hp => ?_, he, load_eq_error_iff.mpr hread⟩
  exact Record.buildError?_eq_none_iff.mp (hbefore p hp)

/--
Every block of a loaded tree has passed the stack check, all the way down. A record that is well-formed
otherwise is refused with the error of its first record in post-order that fails.
-/
theorem load_checked :
    (∀ buffer t, ((Block.load host buffer).run s).1 = .ok t →
      ∀ b ∈ t.blocks, stackDepth b.chunk.code = .ok b.chunk.stackDepth) ∧
    ∀ r : Record Int64, r.height ≤ maxNesting → (∀ q ∈ r.records, q.WellFormed) →
      (∃ q ∈ r.records, ∀ depth, stackDepth q.chunk.code ≠ .ok depth) →
      ∃ before q after e, r.postorder = before ++ q :: after ∧
        (∀ p ∈ before, ∃ depth, stackDepth p.chunk.code = .ok depth) ∧
        stackDepth q.chunk.code = .error e ∧
        ((Block.load host r.encode).run s).1 = .error (.build e) := by
  constructor
  · intro buffer t ht
    exact stackDepth_of_load host s ht
  · intro r hheight hwf hfails
    exact load_encode_of_buildError host s hheight hwf hfails

end Load

/-- A record that leaves a value on the stack, with a function that runs out of them. -/
def Record.failing : Record Int64 :=
  ⟨{ code := [0x05] }, [.function ⟨⟨{ code := [0x20] }, []⟩, []⟩]⟩

theorem load_checked_failing :
    (∀ b ∈ ({ chunk := {} } : Block).blocks, stackDepth b.chunk.code = .ok b.chunk.stackDepth) ∧
      ((Block.load Host.silent Record.failing.encode).run ()).1 =
        .error (.build (.stack (.underflow 0 .binaryAdd (-1)))) := by
  obtain ⟨haccepted, hrefused⟩ := load_checked Host.silent ()
  refine ⟨haccepted _ _ load_encode_empty, ?_⟩
  have hinner : stackDepth [0x20] = .error (.stack (.underflow 0 .binaryAdd (-1))) := by cbv
  have hwf : ∀ q ∈ Record.failing.records, q.WellFormed := by
    intro q hq
    rcases List.mem_cons.mp hq with rfl | hq
    · exact ⟨by decide +kernel, by simp [chunkWords]⟩
    · rw [List.mem_singleton.mp hq]
      exact ⟨by decide +kernel, by simp [chunkWords]⟩
  obtain ⟨before, q, after, e, hsplit, hbefore, he, hload⟩ := hrefused Record.failing (by decide)
    hwf ⟨_, List.mem_cons_of_mem _ List.mem_cons_self, by simp [hinner]⟩
  rw [hload]
  cases before with
  | nil =>
    cases hsplit
    cases hinner.symm.trans he
    rfl
  | cons p before =>
    obtain ⟨rfl, -⟩ := List.cons.inj hsplit
    obtain ⟨depth, hdepth⟩ := hbefore _ List.mem_cons_self
    cases hinner.symm.trans hdepth

end Wire

end Bytecode
