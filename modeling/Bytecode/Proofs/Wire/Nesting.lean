-- SUMMARY: The limit on nesting: which trees are too deep to be loaded, and where that is found out.
import Bytecode.Proofs.Persistence
import Bytecode.Proofs.Wire.Traversal

/-!
# Nesting

`Record.Holds` says where in the bytes of a record the records inside of it start. A tree that is in
order otherwise is refused if and only if it is too deep, at the first place where a record starts
that lies below the limit. Trees that are loaded are never too deep.
-/

namespace Bytecode

namespace Wire

-- ---------------------------------------------------------------------------
-- Places
-- ---------------------------------------------------------------------------

/-- The bytes of a method in front of its body. -/
def Member.front (m : Member Int64) : List UInt8 := textBytes m.name ++ wordBytes m.flags.bits.toUInt64

/-- The bytes of a record in front of its declarations. -/
def Record.front (r : Record Int64) : List UInt8 :=
  (chunkPieces r.chunk).flatMap Piece.encode ++ countBytes r.entries.length

/-- A body of the entry, and the bytes of the entry in front of it. -/
inductive Entry.Holds : Entry Int64 → List UInt8 → Record Int64 → Prop
  | function (r : Routine Int64) : Holds (.function r) [Decl.functionTag] r.body
  | method (name : String) (before : List (Member Int64)) (m : Member Int64)
      (after : List (Member Int64)) :
      Holds (.class name (before ++ m :: after))
        (Decl.classTag :: (textBytes name ++ (countBytes (before ++ m :: after).length ++
          (before.flatMap Member.encode ++ m.front))))
        m.routine.body

/-- A record so many levels below another one, and the bytes of that one in front of it. -/
inductive Record.Holds : Record Int64 → Nat → List UInt8 → Record Int64 → Prop
  | self (r : Record Int64) : Holds r 0 [] r
  | inside {r body q : Record Int64} {depth : Nat} {before : List (Entry Int64)} {e : Entry Int64}
      {after : List (Entry Int64)} {front inner : List UInt8} (hentries : r.entries = before ++ e :: after)
      (hbody : e.Holds front body) (hinner : Holds body depth inner q) :
      Holds r (depth + 1) (r.front ++ (before.flatMap Entry.encode ++ (front ++ inner))) q

theorem Entry.Holds.isPrefix_encode {e : Entry Int64} {front : List UInt8} {body : Record Int64}
    (h : e.Holds front body) : front ++ body.encode <+: e.encode := by
  cases h with
  | function r =>
    rw [Entry.encode_function, Routine.encode_eq]
    exact ⟨paramsBytes r.params, by simp⟩
  | method name before m after =>
    rw [Entry.encode_class, List.flatMap_append, List.flatMap_cons, Member.encode_eq,
      Routine.encode_eq, Member.front]
    exact ⟨paramsBytes m.routine.params ++ after.flatMap Member.encode, by simp⟩

/-- The bytes of a record stand where the record starts. -/
theorem Record.Holds.isPrefix_encode {r q : Record Int64} {depth : Nat} {front : List UInt8}
    (h : r.Holds depth front q) : front ++ q.encode <+: r.encode := by
  induction h with
  | self r => exact List.prefix_rfl
  | @inside r body q depth before e after front inner hentries hbody _ ih =>
    obtain ⟨rest, hrest⟩ := ih
    obtain ⟨rest', hrest'⟩ := hbody.isPrefix_encode
    rw [Record.encode_eq r, Record.front, hentries, List.flatMap_append, List.flatMap_cons, ← hrest',
      ← hrest]
    exact ⟨rest ++ (rest' ++ (after.flatMap Entry.encode ++ wordsBytes r.chunk.lineMap)), by simp⟩

theorem Entry.exists_holds_iff {e : Entry Int64} {body : Record Int64} :
    (∃ front, e.Holds front body) ↔ body ∈ e.bodies := by
  constructor
  · rintro ⟨front, h⟩
    cases h <;> simp [Entry.bodies]
  · intro h
    cases e with
    | function r =>
      rw [List.mem_singleton.mp h]
      exact ⟨_, .function r⟩
    | «class» name members =>
      obtain ⟨m, hm, rfl⟩ := List.mem_map.mp h
      obtain ⟨before, after, rfl⟩ := List.append_of_mem hm
      exact ⟨_, .method name before m after⟩

theorem Record.exists_holds_iff {r : Record Int64} {depth : Nat} :
    (∃ front q, r.Holds depth front q) ↔ depth < r.height := by
  induction depth generalizing r with
  | zero => exact ⟨fun _ => r.height_pos, fun _ => ⟨[], r, .self r⟩⟩
  | succ depth ih =>
    have hdeeper : depth + 1 < r.height ↔ ∃ body ∈ r.bodies, depth < body.height := by
      rw [← Nat.not_le, Record.height_le_succ_iff]
      simp only [not_forall, Nat.not_le, exists_prop]
    rw [hdeeper]
    constructor
    · rintro ⟨_, q, h⟩
      cases h with
      | @inside _ body _ _ before e after front inner hentries hbody hinner =>
        refine ⟨body, ?_, ih.mp ⟨inner, q, hinner⟩⟩
        refine List.mem_flatMap.mpr ⟨e, by simp [hentries], ?_⟩
        exact Entry.exists_holds_iff.mp ⟨front, hbody⟩
    · rintro ⟨body, hmem, hheight⟩
      obtain ⟨e, he, hbody⟩ := List.mem_flatMap.mp hmem
      obtain ⟨before, after, hentries⟩ := List.append_of_mem he
      obtain ⟨front, hfront⟩ := Entry.exists_holds_iff.mpr hbody
      obtain ⟨inner, q, hinner⟩ := ih.mpr hheight
      exact ⟨_, q, .inside hentries hfront hinner⟩

/-- The places of records in the bodies of an entry, given those in the bodies by themselves. -/
def Entry.places (deep : Record Int64 → Set Nat) (e : Entry Int64) : Set Nat :=
  {n | ∃ front q, e.Holds front q ∧ ∃ k ∈ deep q, n = front.length + k}

/-- The places of the records that lie so many levels below. -/
def Record.places (depth : Nat) (r : Record Int64) : Set Nat :=
  {n | ∃ front q, r.Holds depth front q ∧ n = front.length}

-- ---------------------------------------------------------------------------
-- Faults
-- ---------------------------------------------------------------------------

namespace Passage

/-- The only fault of the passage is too deep a record, at the first of the places. -/
structure TooDeepAt (p : Passage) (places : Set Nat) : Prop where
  fault : ∀ offset error, p.fault? offset = some error ↔
    ∃ n, IsLeast places n ∧ error = .tooDeep (offset + n)
  bound : ∀ n ∈ places, n ≤ p.bytes.length

variable {p q : Passage} {A B : Set Nat}

theorem exists_isLeast (h : A.Nonempty) : ∃ n, IsLeast A n :=
  ⟨sInf A, Nat.sInf_mem h, fun _ hn => Nat.sInf_le hn⟩

theorem tooDeepAt_of_clean (h : p.Clean) : p.TooDeepAt ∅ where
  fault offset error := by simp [(fault?_eq_none_iff offset).mpr h, IsLeast]
  bound _ hn := hn.elim

theorem TooDeepAt.fault?_eq_none (h : p.TooDeepAt A) (hA : ¬ A.Nonempty) (offset : Nat) :
    p.fault? offset = none := by
  by_contra hfault
  obtain ⟨error, herror⟩ := Option.ne_none_iff_exists'.mp hfault
  obtain ⟨n, hn, -⟩ := (h.fault offset error).mp herror
  exact hA ⟨n, hn.1⟩

theorem TooDeepAt.append (hp : p.TooDeepAt A) (hq : q.TooDeepAt B) :
    (p ++ q).TooDeepAt (A ∪ {n | ∃ k ∈ B, n = p.bytes.length + k}) where
  fault offset error := by
    rw [fault?_append]
    by_cases hA : A.Nonempty
    · obtain ⟨n, hn⟩ := exists_isLeast hA
      have hleast : IsLeast (A ∪ {n | ∃ k ∈ B, n = p.bytes.length + k}) n := by
        refine ⟨.inl hn.1, fun m hm => ?_⟩
        rcases hm with hm | ⟨k, -, rfl⟩
        · exact hn.2 hm
        · exact (hp.bound n hn.1).trans (Nat.le_add_right _ _)
      rw [(hp.fault offset _).mpr ⟨n, hn, rfl⟩, Option.some_or, Option.some.injEq]
      constructor
      · rintro rfl
        exact ⟨n, hleast, rfl⟩
      · rintro ⟨m, hm, rfl⟩
        rw [hm.unique hleast]
    · have hleast : ∀ n, IsLeast (A ∪ {n | ∃ k ∈ B, n = p.bytes.length + k}) n ↔
          ∃ k, IsLeast B k ∧ n = p.bytes.length + k := by
        intro n
        rw [Set.not_nonempty_iff_eq_empty.mp hA, Set.empty_union]
        constructor
        · rintro ⟨⟨k, hk, rfl⟩, hmin⟩
          exact ⟨k, ⟨hk, fun m hm => Nat.le_of_add_le_add_left (hmin ⟨m, hm, rfl⟩)⟩, rfl⟩
        · rintro ⟨k, hk, rfl⟩
          refine ⟨⟨k, hk.1, rfl⟩, ?_⟩
          rintro _ ⟨m, hm, rfl⟩
          exact Nat.add_le_add_left (hk.2 hm) _
      rw [hp.fault?_eq_none hA, Option.none_or, hq.fault]
      simp only [hleast]
      constructor
      · rintro ⟨k, hk, rfl⟩
        exact ⟨_, ⟨k, hk, rfl⟩, by rw [Nat.add_assoc]⟩
      · rintro ⟨_, ⟨k, hk, rfl⟩, rfl⟩
        exact ⟨k, hk, by rw [Nat.add_assoc]⟩
  bound n hn := by
    rw [bytes_append, List.length_append]
    rcases hn with hn | ⟨k, hk, rfl⟩
    · exact (hp.bound n hn).trans (Nat.le_add_right _ _)
    · exact Nat.add_le_add_left (hq.bound k hk) _

theorem TooDeepAt.append_clean (hp : p.TooDeepAt A) (hq : q.Clean) : (p ++ q).TooDeepAt A := by
  simpa using hp.append (tooDeepAt_of_clean hq)

theorem TooDeepAt.clean_append (hq : q.TooDeepAt B) (hp : p.Clean) :
    (p ++ q).TooDeepAt {n | ∃ k ∈ B, n = p.bytes.length + k} := by
  simpa using (tooDeepAt_of_clean hp).append hq

section Items

variable {α : Type} {item : α → Passage} {places : α → Set Nat} {items : List α}

/-- The places in items that follow one another. -/
def itemPlaces (item : α → Passage) (places : α → Set Nat) (items : List α) : Set Nat :=
  {n | ∃ before a after, items = before ++ a :: after ∧
    ∃ k ∈ places a, n = (Passage.bytes (before.flatMap item)).length + k}

theorem itemPlaces_cons (a : α) (rest : List α) : itemPlaces item places (a :: rest) =
    places a ∪ {n | ∃ k ∈ itemPlaces item places rest, n = (item a).bytes.length + k} := by
  ext n
  constructor
  · rintro ⟨before, b, after, hitems, k, hk, rfl⟩
    cases before with
    | nil =>
      obtain ⟨rfl, -⟩ := List.cons.inj hitems
      exact .inl (by simpa using hk)
    | cons c before =>
      obtain ⟨rfl, rfl⟩ := List.cons.inj hitems
      exact .inr ⟨_, ⟨before, b, after, rfl, k, hk, rfl⟩, by simp [Nat.add_assoc]⟩
  · rintro (hn | ⟨_, ⟨before, b, after, rfl, k, hk, rfl⟩, rfl⟩)
    · exact ⟨[], a, rest, rfl, n, hn, by simp⟩
    · exact ⟨a :: before, b, after, rfl, k, hk, by simp [Nat.add_assoc]⟩

theorem tooDeepAt_flatMap (h : ∀ a ∈ items, (item a).TooDeepAt (places a)) :
    Passage.TooDeepAt (items.flatMap item) (itemPlaces item places items) := by
  induction items with
  | nil =>
    have hnone : itemPlaces item places [] = ∅ := by simp [itemPlaces]
    rw [hnone]
    exact tooDeepAt_of_clean clean_nil
  | cons a rest ih =>
    rw [itemPlaces_cons]
    exact (h a List.mem_cons_self).append (ih fun b hb => h b (List.mem_cons_of_mem a hb))

end Items

section Nested

variable {body : Record Int64 → Passage} {deep : Record Int64 → Set Nat}

theorem tooDeepAt_routine {r : Routine Int64} (hbody : (body r.body).TooDeepAt (deep r.body))
    (h : ∀ n ∈ r.lengths, n < 2 ^ 63) : (routine body r).TooDeepAt (deep r.body) :=
  hbody.append_clean (clean_params.mpr h)

theorem tooDeepAt_member {m : Member Int64}
    (hbody : (body m.routine.body).TooDeepAt (deep m.routine.body))
    (h : ∀ n ∈ m.lengths, n < 2 ^ 63) :
    (member body m).TooDeepAt {n | ∃ k ∈ deep m.routine.body, n = m.front.length + k} := by
  have hroutine := tooDeepAt_routine hbody fun n hn => h n (List.mem_cons_of_mem _ hn)
  have hfront : (text .methodName m.name ++ word m.flags.bits.toUInt64).Clean :=
    clean_append.mpr ⟨clean_text.mpr (h _ List.mem_cons_self), clean_word _⟩
  have hbytes : (text .methodName m.name ++ word m.flags.bits.toUInt64).bytes = m.front := by
    simp [Member.front]
  rw [member, ← List.append_assoc, ← hbytes]
  exact hroutine.clean_append hfront

theorem places_class {name : String} {members : List (Member Int64)}
    (hbytes : ∀ q, (body q).bytes = q.encode) :
    (Entry.class name members).places deep = {n | ∃ k ∈ itemPlaces (member body)
        (fun m => {n | ∃ k ∈ deep m.routine.body, n = m.front.length + k}) members,
      n = (byte Decl.classTag ++ (text .className name ++
        number .methodCount members.length)).bytes.length + k} := by
  have hbefore : ∀ before : List (Member Int64),
      Passage.bytes (before.flatMap (member body)) = before.flatMap Member.encode := by
    intro before
    simp only [bytes_flatMap, bytes_member hbytes]
  ext n
  constructor
  · rintro ⟨_, _, ⟨⟩, k, hk, rfl⟩
    rename_i before m after
    refine ⟨_, ⟨before, m, after, rfl, _, ⟨k, hk, rfl⟩, rfl⟩, ?_⟩
    simp only [hbefore]
    simp
    omega
  · rintro ⟨_, ⟨before, m, after, rfl, _, ⟨k, hk, rfl⟩, rfl⟩, rfl⟩
    refine ⟨_, _, .method name before m after, k, hk, ?_⟩
    simp only [hbefore]
    simp
    omega

theorem tooDeepAt_entry {e : Entry Int64} (hbytes : ∀ q, (body q).bytes = q.encode)
    (hbody : ∀ q ∈ e.bodies, (body q).TooDeepAt (deep q)) (h : ∀ n ∈ e.lengths, n < 2 ^ 63) :
    (entry body e).TooDeepAt (e.places deep) := by
  cases e with
  | function r =>
    have hplaces : (Entry.function r).places deep =
        {n | ∃ k ∈ deep r.body, n = (byte Decl.functionTag).bytes.length + k} := by
      ext n
      constructor
      · rintro ⟨_, _, ⟨⟩, k, hk, rfl⟩
        exact ⟨k, hk, rfl⟩
      · rintro ⟨k, hk, rfl⟩
        exact ⟨_, _, .function r, k, hk, rfl⟩
    rw [hplaces]
    exact (tooDeepAt_routine (hbody r.body (by simp [Entry.bodies])) h).clean_append (clean_byte _)
  | «class» name members =>
    have hmembers : ∀ m ∈ members, (member body m).TooDeepAt
        {n | ∃ k ∈ deep m.routine.body, n = m.front.length + k} := by
      intro m hm
      refine tooDeepAt_member (hbody _ (List.mem_map_of_mem hm)) fun n hn => h n ?_
      simp only [Entry.lengths, List.mem_cons, List.mem_flatMap]
      exact .inr (.inr ⟨m, hm, hn⟩)
    have hfront : (byte Decl.classTag ++ (text .className name ++
        number .methodCount members.length)).Clean := by
      simp only [clean_append, clean_byte, clean_text, clean_number, true_and]
      exact ⟨h _ (by simp [Entry.lengths]), h _ (by simp [Entry.lengths])⟩
    have hentry : entry body (.class name members) = (byte Decl.classTag ++ (text .className name ++
        number .methodCount members.length)) ++ members.flatMap (member body) := by
      simp [entry, counted]
    rw [places_class hbytes, hentry]
    exact (tooDeepAt_flatMap hmembers).clean_append hfront

end Nested

theorem places_succ (levels : Nat) (r : Record Int64) :
    r.places (levels + 1) = {n | ∃ k ∈ itemPlaces (entry (record levels))
        (Entry.places (Record.places levels)) r.entries,
      n = (chunk r.chunk ++ number .declarationCount r.entries.length).bytes.length + k} := by
  have hfront : (chunk r.chunk ++ number .declarationCount r.entries.length).bytes = r.front := by
    simp [Record.front]
  have hbefore : ∀ before : List (Entry Int64),
      Passage.bytes (before.flatMap (entry (record levels))) = before.flatMap Entry.encode := by
    intro before
    simp only [bytes_flatMap, bytes_entry (bytes_record levels)]
  rw [hfront]
  ext n
  constructor
  · rintro ⟨_, q, h, rfl⟩
    cases h with
    | @inside _ body _ _ before e after front inner hentries hbody hinner =>
      refine ⟨_, ⟨before, e, after, hentries, _, ⟨front, body, hbody, _, ⟨inner, q, hinner, rfl⟩, rfl⟩,
        rfl⟩, ?_⟩
      rw [hbefore]
      simp only [List.length_append]
  · rintro ⟨_, ⟨before, e, after, hentries, _, ⟨front, body, hbody, _, ⟨inner, q, hinner, rfl⟩, rfl⟩,
      rfl⟩, rfl⟩
    refine ⟨_, q, .inside hentries hbody hinner, ?_⟩
    rw [hbefore]
    simp only [List.length_append]

/-- All else being sound, the only fault is a record below the last level. -/
theorem tooDeepAt_record {levels : Nat} {r : Record Int64} (h : ∀ q ∈ r.records, q.Sound) :
    (record levels r).TooDeepAt (r.places levels) := by
  induction levels generalizing r with
  | zero =>
    have hplaces : r.places 0 = {0} := by
      ext n
      constructor
      · rintro ⟨_, _, ⟨⟩, rfl⟩
        rfl
      · rintro rfl
        exact ⟨[], r, .self r, rfl⟩
    have hleast : ∀ n, IsLeast ({0} : Set Nat) n ↔ n = 0 :=
      fun n => ⟨fun hn => hn.1, fun hn => hn ▸ isLeast_singleton⟩
    rw [hplaces]
    exact ⟨fun offset error => by simp [record, fault?, hleast, eq_comm], by simp⟩
  | succ levels ih =>
    have hsound := h r r.mem_records_self
    have hlengths : (∀ n ∈ chunkLengths r.chunk, n < 2 ^ 63) ∧
        ∀ n ∈ r.entries.length :: r.entries.flatMap Entry.lengths, n < 2 ^ 63 :=
      List.forall_mem_append.mp hsound.lengths
    obtain ⟨hcount, hentries⟩ := List.forall_mem_cons.mp hlengths.2
    obtain ⟨hchunk, hmap⟩ := clean_chunk.mpr ⟨hlengths.1, hsound.words⟩
    have hfront : (chunk r.chunk ++ number .declarationCount r.entries.length).Clean :=
      clean_append.mpr ⟨hchunk, clean_number.mpr hcount⟩
    have hback : (lineMap r.chunk ++ check r.chunk.code).Clean :=
      clean_append.mpr ⟨hmap, clean_check.mpr hsound.checked⟩
    have hitems : ∀ e ∈ r.entries, (entry (record levels) e).TooDeepAt
        (e.places (Record.places levels)) := by
      intro e he
      refine tooDeepAt_entry (bytes_record levels) (fun q hq => ih fun p hp => h p ?_) ?_
      · exact Record.mem_records_of_body (List.mem_flatMap.mpr ⟨e, he, hq⟩) hp
      · exact fun n hn => hentries n (List.mem_flatMap.mpr ⟨e, he, hn⟩)
    have hrecord : record (levels + 1) r = (chunk r.chunk ++ number .declarationCount r.entries.length) ++
        (r.entries.flatMap (entry (record levels)) ++ (lineMap r.chunk ++ check r.chunk.code)) := by
      simp [record, fields, counted]
    rw [places_succ, hrecord]
    exact ((tooDeepAt_flatMap hitems).append_clean hback).clean_append hfront

end Passage

/-- A record that is sound is refused if it is too deep, at the first record below the limit. -/
theorem Record.read_encode_eq_error_iff {r : Record Int64} (h : ∀ q ∈ r.records, q.Sound)
    {error : ReadError} : (Record.read r.encode).1 = .error error ↔
      ∃ n, IsLeast (r.places maxNesting) n ∧ error = .tooDeep n := by
  have hplaces : (Passage.record maxNesting r).TooDeepAt (r.places maxNesting) :=
    Passage.tooDeepAt_record h
  have hfault := hplaces.fault 0 error
  simp only [Nat.zero_add] at hfault
  rw [Record.read_encode fun q hq => (h q hq).spellable, ← hfault]
  cases (Passage.record maxNesting r).fault? 0 <;> simp

end Wire

-- ---------------------------------------------------------------------------
-- Loading
-- ---------------------------------------------------------------------------

open Wire

theorem Block.height_le_of_load {σ : Type} {host : Host σ} {s : σ} {buffer : List UInt8} {t : Block}
    (h : ((Block.load host buffer).run s).1 = .ok t) : t.height ≤ maxNesting := by
  obtain ⟨r, hr⟩ := exists_load_eq_ok_iff.mp ⟨t, h⟩
  obtain ⟨-, hheight, -⟩ := Record.read_eq_ok_iff.mp hr
  rw [run_load, hr] at h
  cases h
  obtain ⟨hshape, -⟩ := Record.replaces_traverse (f := host.wrapInt) r s
  rw [← Record.height_mapChunks_le_iff Chunk.shape, ← Record.shape, ← hshape, Record.shape,
    Record.height_mapChunks_le_iff] at hheight
  rw [← Block.height_record_le_iff, Record.record_block]
  exact Record.height_collapsed_le hheight

theorem Block.load_eq_tooDeep_iff {t : Block} {r : Record Int64} (hr : t.record = r.values)
    (h : ∀ q ∈ r.records, q.Sound) {σ : Type} (host : Host σ) (s : σ) :
    (∃ offset, ((Block.load host r.encode).run s).1 = .error (.tooDeep offset)) ↔
      ∃ path, t.IsPath path ∧ 128 < path.length := by
  have hplaces : (r.places maxNesting).Nonempty ↔ 128 < t.height := by
    have hheight := Block.height_record_le_iff (b := t) (n := 128)
    rw [hr, Record.values, Record.height_mapChunks_le_iff] at hheight
    rw [← Nat.not_le, ← hheight, Nat.not_le, ← Record.exists_holds_iff]
    constructor
    · rintro ⟨_, front, q, hq, -⟩
      exact ⟨front, q, hq⟩
    · rintro ⟨front, q, hq⟩
      exact ⟨_, front, q, hq, rfl⟩
  rw [← Block.lt_height_iff, ← hplaces]
  simp only [load_eq_error_iff, Record.read_encode_eq_error_iff h]
  constructor
  · rintro ⟨_, n, hn, -⟩
    exact ⟨n, hn.1⟩
  · intro hnonempty
    obtain ⟨n, hn⟩ := Passage.exists_isLeast hnonempty
    exact ⟨n, n, hn, rfl⟩

/--
A tree that is in order otherwise is refused as too deep if and only if more than 128 blocks lie on
some way down. The offset is that of the first record with 128 others around it. No loaded tree is
too deep.
-/
theorem Block.load_nesting :
    (∀ t : Block, t.Storable → ∃ r : Record Int64, t.record = r.values ∧
      t.serialize = .ok r.encode ∧ ∀ (σ : Type) (host : Host σ) (s : σ),
        ((∃ offset, ((Block.load host r.encode).run s).1 = .error (.tooDeep offset)) ↔
          ∃ path, t.IsPath path ∧ 128 < path.length) ∧
        ∀ offset, ((Block.load host r.encode).run s).1 = .error (.tooDeep offset) →
          ∃ front q, r.Holds 128 front q ∧ front.length = offset ∧
            front ++ q.encode <+: r.encode ∧
            ∀ front' q', r.Holds 128 front' q' → offset ≤ front'.length) ∧
    ∀ (σ : Type) (host : Host σ) (s : σ) (buffer : List UInt8) (t : Block),
      ((Block.load host buffer).run s).1 = .ok t → ∀ path, t.IsPath path → path.length ≤ 128 := by
  refine ⟨fun t ht => ?refused, fun σ host s buffer t hload path hpath => ?accepted⟩
  case refused =>
    obtain ⟨r, hr, hsound⟩ := ht.exists_record
    refine ⟨r, hr, serialize_eq_ok_iff.mpr ⟨r, hr, rfl⟩, fun σ host s => ?_⟩
    refine ⟨Block.load_eq_tooDeep_iff hr hsound host s, fun offset hload => ?_⟩
    rw [load_eq_error_iff, Record.read_encode_eq_error_iff hsound] at hload
    obtain ⟨n, ⟨⟨front, q, hq, rfl⟩, hleast⟩, heq⟩ := hload
    cases heq
    exact ⟨front, q, hq, rfl, hq.isPrefix_encode, fun front' q' hq' => hleast ⟨front', q', hq', rfl⟩⟩
  case accepted => exact hpath.length_le.trans (Block.height_le_of_load hload)

/-- A block inside so many functions inside one another. -/
def Block.nested : Nat → Block
  | 0 => { chunk := {} }
  | n + 1 => { chunk := {}, decls := [.function { signature := {}, body := Block.nested n }] }

/-- The record of such a block. -/
def Wire.Record.nested : Nat → Record Int64
  | 0 => .empty
  | n + 1 => ⟨{}, [.function ⟨Record.nested n, []⟩]⟩

theorem Block.record_nested (n : Nat) : (Block.nested n).record = (Record.nested n).values := by
  induction n with
  | zero => rfl
  | succ n ih =>
    change (⟨{}, [.function ⟨(Block.nested n).record, []⟩]⟩ : Record Value) =
      ⟨{}, [.function ⟨(Record.nested n).values, []⟩]⟩
    rw [ih]

theorem Block.storable_nested (n : Nat) : (Block.nested n).Storable := by
  have hblocks : ∀ b ∈ (Block.nested n).blocks, ∃ m, b = Block.nested m := by
    induction n with
    | zero => exact fun b hb => ⟨0, List.mem_singleton.mp hb⟩
    | succ n ih =>
      intro b hb
      rw [Block.blocks_eq, List.mem_cons] at hb
      rcases hb with rfl | hb
      · exact ⟨n + 1, rfl⟩
      · exact ih b (by simpa [Block.bodies, Block.nested, Decl.bodies] using hb)
  have hcode : stackDepth [] = .ok 0 := by cbv
  have hchunk : ∀ n ∈ chunkLengths ({} : Chunk Value), n < 2 ^ 63 := by decide +kernel
  refine ⟨fun b hb => ?_, fun b hb => ?_, fun b hb => ?_, fun b hb => ?_⟩ <;>
    obtain ⟨m, rfl⟩ := hblocks b hb
  · refine ⟨?_, ?_⟩
    · cases m <;> simp [Block.nested, Block.build?, hcode]
    · cases m <;> simp [Block.nested]
  · cases m <;> simp [Block.nested]
  · cases m <;> simp [Block.nested, chunkWords]
  · rw [Record.lengths, List.forall_mem_append]
    cases m with
    | zero => exact ⟨hchunk, by simp [Block.nested]⟩
    | succ m =>
      exact ⟨hchunk, by simp [Block.nested, Decl.entry, Entry.lengths, Routine.lengths, textsLengths]⟩

theorem Wire.Record.length_front_nested {n : Nat} {front : List UInt8} {q : Record Int64}
    (h : (Record.nested n).Holds n front q) : front.length = 95 * n := by
  induction n generalizing front with
  | zero =>
    cases h
    rfl
  | succ n ih =>
    have hchunk : ((chunkPieces ({} : Chunk Int64)).flatMap Piece.encode).length = 86 := by
      decide +kernel
    have hhead : (Record.nested (n + 1)).front.length = 94 := by
      rw [Record.front, List.length_append, length_countBytes]
      exact congrArg (· + 8) hchunk
    cases h with
    | @inside _ _ _ _ before e after front inner hentries hbody hinner =>
      obtain ⟨rfl, rfl, rfl⟩ : before = [] ∧ e = .function ⟨Record.nested n, []⟩ ∧ after = [] := by
        simpa [Record.nested, List.cons_eq_append_iff, and_comm] using hentries
      cases hbody
      simp only [List.length_append, List.flatMap_nil, List.length_cons, List.length_nil, hhead,
        ih hinner]
      omega

theorem Block.height_nested (n : Nat) : (Block.nested n).height = n + 1 := by
  induction n with
  | zero => rfl
  | succ n ih => simp [Block.nested, Block.height, Decl.height, Function.height, ih]

theorem Block.load_nesting_nested :
    (Block.nested 128).Storable ∧ ∃ bytes, (Block.nested 128).serialize = .ok bytes ∧
      Block.deserialize bytes = .error (.tooDeep 12160) := by
  refine ⟨Block.storable_nested 128, ?_⟩
  obtain ⟨r, hr, hserialize, hload⟩ := Block.load_nesting.1 _ (Block.storable_nested 128)
  obtain ⟨hdeep, hplace⟩ := hload Unit Host.silent ()
  have hheight : 128 < (Block.nested 128).height := by simp [Block.height_nested]
  obtain ⟨offset, hoffset⟩ := hdeep.mpr (Block.lt_height_iff.mp hheight)
  obtain ⟨front, q, hq, rfl, -⟩ := hplace offset hoffset
  have hrecord : r = Record.nested 128 :=
    Record.values_injective (hr.symm.trans (Block.record_nested 128))
  rw [hrecord] at hq
  rw [Record.length_front_nested hq] at hoffset
  exact ⟨r.encode, hserialize, hoffset⟩

end Bytecode
