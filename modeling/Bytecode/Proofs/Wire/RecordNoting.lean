-- SUMMARY: The readers of records note the constants of records, also of those that they cannot read to the end.
import Bytecode.Proofs.Wire.Compositional
import Bytecode.Proofs.Wire.Noting
import Bytecode.Proofs.Wire.Traversal

/-!
# Notes on records

Reading a buffer notes the integer constants of the longest start that the buffer has in common with
a record, whether the buffer is accepted or not. All items but constants are read without a note. Of an
accepted buffer all constants are noted, in wire order.
-/

namespace Bytecode.Wire

-- ---------------------------------------------------------------------------
-- Items without notes
-- ---------------------------------------------------------------------------

namespace Passage

theorem met_flatMap {α : Type} {item : α → Passage} {items : List α}
    (h : ∀ a, (item a).met = []) : Passage.met (items.flatMap item) = [] := by
  induction items with
  | nil => rfl
  | cons a rest ih => rw [List.flatMap_cons, met_append, h, ih, List.nil_append]

@[simp] theorem met_byte (b : UInt8) : (byte b).met = [] := rfl

@[simp] theorem met_word (w : UInt64) : (word w).met = [] := rfl

@[simp] theorem met_number (field : Field) (n : Nat) : (number field n).met = [] := rfl

@[simp] theorem met_blob (field : Field) (bs : List UInt8) : (blob field bs).met = [] := rfl

@[simp] theorem met_text (field : Field) (s : String) : (text field s).met = [] := rfl

theorem met_counted {α : Type} {field : Field} {item : α → Passage} {items : List α}
    (h : ∀ a, (item a).met = []) : (counted field item items).met = [] := by
  rw [counted, met_append, met_number, met_flatMap h, List.nil_append]

theorem met_texts (field field' : Field) (items : List String) :
    (counted field (text field') items).met = [] :=
  met_counted (met_text field')

theorem met_numbers (field : Field) (items : List UInt64) :
    (counted field (fun w => number field w.toNat) items).met = [] :=
  met_counted fun w => met_number field w.toNat

theorem met_slot (s : Option UInt64) : (slot s).met = [] := by
  cases s <;> rfl

theorem met_params (ps : List (String × ParamKind)) : (params ps).met = [] := by
  rw [params, met_append, met_texts, met_blob, List.nil_append]

@[simp] theorem met_check (code : List UInt8) : (check code).met = [] := rfl

/-- Where a passage starts with an error, only its empty start is clean. -/
theorem met_eq_nil_of_faulty {s : Stretch} {p q : Passage} (hs : s.fault ≠ none)
    (hp : p <+: s :: q) (hclean : p.Clean) : p.met = [] := by
  cases p with
  | nil => rfl
  | cons t p =>
    obtain ⟨rfl, -⟩ := List.cons_prefix_cons.mp hp
    exact absurd (clean_cons.mp hclean).1 hs

end Passage

namespace Reader

variable {α β : Type}

theorem quiet_pure (a : α) : Quiet (pure a) := fun _ => rfl

theorem quiet_throw (e : ReadError) : Quiet (throw e : Reader α) := fun _ => rfl

theorem Quiet.bind {x : Reader α} {f : α → Reader β} (hx : Quiet x) (hf : ∀ a, Quiet (f a)) :
    Quiet (x >>= f) := by
  intro c
  have hmet := hx c
  cases hxc : x c with
  | ok a c' =>
    rw [stop_of_ok hxc] at hmet
    rw [stop_bind_of_ok hxc, hf a c', hmet]
  | error e c' => rw [stop_bind_of_error hxc, hmet]

theorem quiet_take (field : Field) (n : Nat) : Quiet (take field n) := by
  intro c
  by_cases h : (c.rest.take n).length < n
  · simp only [stop, take, if_pos h]
  · simp only [stop, take, if_neg h]

theorem quiet_byte (field : Field) : Quiet (byte field) := by
  intro c
  unfold stop byte
  cases c.rest <;> rfl

theorem quiet_items : Compositional Quiet where
  value := quiet_pure
  fault := fun _ => quiet_throw _
  bind := Quiet.bind
  atOffset := fun hf c => hf c.offset c
  take := quiet_take
  byte := quiet_byte

theorem reads_byte (field : Field) : Reads (byte field) .byte :=
  ⟨strict_byte field, fun b _ => follows_byte field b⟩

theorem reads_word (field : Field) : Reads (word field) .word :=
  ⟨strict_word field, fun w _ => follows_word field w⟩

theorem reads_natural (field : Field) : Reads (natural field) fun w => .number field w.toNat :=
  ⟨strict_natural field, fun w _ => follows_natural field w⟩

theorem reads_blob (field : Field) : Reads (blob field) (.blob field) where
  strict := strict_blob field
  follows bs h := follows_blob field ((Passage.clean_blob.mp h).trans (by decide))

theorem reads_text (field : Field) : Reads (text field) (.text field) where
  strict := strict_text field
  follows s h := follows_text field ((Passage.clean_text.mp h).trans (by decide))

theorem reads_counted (field : Field) {item : Reader α} {spell : α → Passage}
    (hitem : Reads item spell) : Reads (counted field item) (.counted field spell) where
  strict := strict_counted field hitem.strict
  follows as h := by
    obtain ⟨hlength, has⟩ := Passage.clean_counted.mp h
    exact follows_counted field (hlength.trans (by decide)) fun a ha => hitem.follows a (has a ha)

theorem reads_texts (field : Field) : Reads (texts field) (.counted field (.text field)) :=
  reads_counted field (reads_text field)

theorem reads_naturals (field : Field) :
    Reads (naturals field) (.counted field fun w => .number field w.toNat) :=
  reads_counted field (reads_natural field)

theorem reads_constant : Reads constant .constant :=
  ⟨strict_constant, fun n _ => follows_constant n⟩

theorem reads_thisSlot : Reads thisSlot .slot where
  strict := strict_thisSlot
  follows slot h := by
    refine follows_thisSlot fun hslot => ?_
    have hlt := Passage.clean_slot.mp h noSlot hslot
    rw [toNat_noSlot] at hlt
    omega

theorem reads_block (levels : Nat) : Reads (block levels) (.record levels) where
  strict := strict_block levels
  follows _ h := follows_block levels fun q hq => ((Passage.clean_record.mp h).2 q hq).spellable

-- ---------------------------------------------------------------------------
-- Constants and lists
-- ---------------------------------------------------------------------------

/-- The word of an integer constant, at which the constant is noted. -/
def notedWord (n : Int64) : Passage := [{ bytes := wordBytes n.toUInt64, met := [n] }]

theorem tracks_notedWord :
    Tracks (word .integerConstant >>= fun w => note w.toInt64 >>= fun _ => pure w.toInt64)
      (Set.range notedWord) := by
  -- What fits is the word that has been read.
  have hread : ∀ c n (p : Passage), p <+: notedWord n → p.Fits c.rest →
      p = [] ∨ p = notedWord n ∧ ∃ c', word .integerConstant c = .ok n.toUInt64 c' := by
    intro c n p hp hfits
    cases p with
    | nil => exact .inl rfl
    | cons s p =>
      obtain ⟨rfl, hnil⟩ := List.cons_prefix_cons.mp hp
      rw [List.prefix_nil.mp hnil] at hfits ⊢
      exact .inr ⟨rfl, (reads_word .integerConstant).exists_ok ⟨Passage.clean_word _, hfits.2⟩⟩
  intro c
  cases hword : word .integerConstant c with
  | error e c' =>
    have hquiet := quiet_items.word .integerConstant c
    rw [stop_bind_of_error hword, hquiet]
    refine ⟨[], rfl, ⟨_, ⟨0, rfl⟩, [], List.nil_prefix, Passage.fits_nil _, rfl⟩, ?_⟩
    rintro _ ⟨n, rfl⟩ p hp hfits
    rcases hread c n p hp hfits with rfl | ⟨-, c'', hok⟩
    · exact List.nil_prefix
    · cases hword.symm.trans hok
  | ok w c' =>
    obtain ⟨-, hrest, hpast⟩ := strict_word .integerConstant hword
    rw [stop_bind_of_ok hword, hpast]
    refine ⟨[w.toInt64], rfl, ⟨_, ⟨w.toInt64, rfl⟩, _, List.prefix_rfl, ?_, rfl⟩, ?_⟩
    · rw [hrest]
      exact ⟨by simp [notedWord], by simp [notedWord]⟩
    · rintro _ ⟨n, rfl⟩ p hp hfits
      rcases hread c n p hp hfits with rfl | ⟨rfl, c'', hok⟩
      · exact List.nil_prefix
      · cases hword.symm.trans hok
        simp [notedWord]

/-- What may follow the tag of a constant. -/
def constantTails (tag : UInt8) : Set Passage := if tag = intTag then Set.range notedWord else ∅

theorem chain_constantTails : chain Passage.byte constantTails = Set.range Passage.constant := by
  ext p
  constructor
  · rintro ⟨tag, q, hq, rfl⟩
    unfold constantTails at hq
    split at hq
    · rename_i htag
      obtain ⟨n, rfl⟩ := hq
      exact ⟨n, by rw [htag]; rfl⟩
    · cases hq
  · rintro ⟨n, rfl⟩
    exact ⟨intTag, notedWord n, by simp [constantTails], rfl⟩

theorem tracks_constant : Tracks constant (Set.range Passage.constant) := by
  rw [← chain_constantTails]
  apply (quiet_items.byte .constantTag).bind_tracks (reads_byte .constantTag) Passage.met_byte
  · exact ⟨intTag, notedWord 0, by simp [constantTails]⟩
  · intro tag
    unfold constantTails
    split
    · exact .inl tracks_notedWord
    · exact .inr ⟨rfl, quiet_throw _⟩

section Lists

variable {item : Reader α} {spell : α → Passage}

theorem Tracks.many (hitem : Reads item spell) (h : Tracks item (Set.range spell)) (n : Nat) :
    Tracks (many item n) {p | ∃ as : List α, as.length = n ∧ p = as.flatMap spell} := by
  induction n with
  | zero =>
    refine (quiet_pure []).tracks ⟨[], [], rfl, rfl⟩ ?_
    rintro _ ⟨as, hlength, rfl⟩
    rw [List.length_eq_zero_iff.mp hlength]
    rfl
  | succ n ih =>
    have hcons := h.then hitem fun a => ih.map (a :: ·)
    refine hcons.extend ?_ ?_
    · rintro _ ⟨a, _, ⟨as, hlength, rfl⟩, rfl⟩
      exact ⟨a :: as, by rw [List.length_cons, hlength], List.flatMap_cons.symm⟩
    · rintro _ ⟨as, hlength, rfl⟩ hnot
      cases as with
      | nil => cases hlength
      | cons a as =>
        exact absurd ⟨a, _, ⟨as, Nat.succ.inj hlength, rfl⟩, List.flatMap_cons⟩ hnot

/-- A number of items too great for a word starts with an error. -/
theorem Tracks.counted (field : Field) (hitem : Reads item spell)
    (h : Tracks item (Set.range spell)) :
    Tracks (counted field item) (Set.range (Passage.counted field spell)) := by
  have hitems := (quiet_items.natural field).then (reads_natural field)
    (fun w => Passage.met_number field w.toNat) fun w => h.many hitem w.toNat
  refine hitems.extend ?_ ?_
  · rintro _ ⟨w, _, ⟨as, hlength, rfl⟩, rfl⟩
    exact ⟨as, by rw [Passage.counted, hlength]⟩
  · rintro _ ⟨as, rfl⟩ hnot p hp hclean
    by_cases hlength : as.length < 2 ^ 63
    · have hword : (UInt64.ofNat as.length).toNat = as.length :=
        UInt64.toNat_ofNat_of_lt' (hlength.trans (by decide))
      refine absurd ⟨UInt64.ofNat as.length, _, ⟨as, hword.symm, rfl⟩, ?_⟩ hnot
      simp only [Passage.counted, hword]
    · refine Passage.met_eq_nil_of_faulty ?_ hp hclean
      rw [if_neg hlength]
      exact Option.some_ne_none _

end Lists

-- ---------------------------------------------------------------------------
-- Declarations and fields
-- ---------------------------------------------------------------------------

section Nested

variable {block : Reader (Record Int64)} {body : Record Int64 → Passage}

theorem reads_member (hblock : Reads block body) : Reads (member block) (.member body) where
  strict := strict_member hblock.strict
  follows m h := by
    obtain ⟨hlengths, hclean⟩ := Passage.clean_member.mp h
    exact follows_member (hblock.follows _ hclean) fun n hn => (hlengths n hn).trans (by decide)

theorem reads_entry (hblock : Reads block body) : Reads (entry block) (.entry body) where
  strict := strict_entry hblock.strict
  follows e h := by
    obtain ⟨hlengths, hclean⟩ := Passage.clean_entry.mp h
    exact follows_entry (fun q hq => hblock.follows q (hclean q hq)) fun n hn =>
      (hlengths n hn).trans (by decide)

theorem tracks_routine (hblock : Reads block body) (h : Tracks block (Set.range body)) :
    Tracks (routine block) (Set.range (Passage.routine body)) := by
  have hchain : chain body (fun _ => Set.range Passage.params) =
      Set.range (Passage.routine body) := by
    ext p
    constructor
    · rintro ⟨q, _, ⟨ps, rfl⟩, rfl⟩
      exact ⟨⟨q, ps⟩, rfl⟩
    · rintro ⟨⟨q, ps⟩, rfl⟩
      exact ⟨q, _, ⟨ps, rfl⟩, rfl⟩
  rw [← hchain]
  refine h.then hblock fun q => Tracks.map (Routine.mk q) ?_
  refine quiet_items.params.tracks (Set.range_nonempty _) ?_
  rintro _ ⟨ps, rfl⟩
  exact Passage.met_params ps

theorem tracks_member (hblock : Reads block body) (h : Tracks block (Set.range body)) :
    Tracks (member block) (Set.range (Passage.member body)) := by
  have hchain : chain (Passage.text .methodName) (fun _ => chain Passage.word fun _ =>
      Set.range (Passage.routine body)) = Set.range (Passage.member body) := by
    ext p
    constructor
    · rintro ⟨name, _, ⟨flags, _, ⟨r, rfl⟩, rfl⟩, rfl⟩
      exact ⟨⟨name, ⟨flags.toInt64⟩, r⟩, rfl⟩
    · rintro ⟨⟨name, flags, r⟩, rfl⟩
      exact ⟨name, _, ⟨flags.bits.toUInt64, _, ⟨r, rfl⟩, rfl⟩, rfl⟩
  rw [← hchain]
  refine (quiet_items.text .methodName).then (reads_text _) (Passage.met_text _) fun name => ?_
  refine (quiet_items.word .accessFlags).then (reads_word _) Passage.met_word fun flags => ?_
  exact (tracks_routine hblock h).map (Member.mk name ⟨flags.toInt64⟩)

/-- What may follow the tag of a declaration. -/
def entryTails (body : Record Int64 → Passage) (tag : UInt8) : Set Passage :=
  if tag = Decl.functionTag then Set.range (Passage.routine body)
  else if tag = Decl.classTag then
    chain (Passage.text .className) fun _ =>
      Set.range (Passage.counted .methodCount (Passage.member body))
  else ∅

theorem chain_entryTails :
    chain Passage.byte (entryTails body) = Set.range (Passage.entry body) := by
  ext p
  constructor
  · rintro ⟨tag, q, hq, rfl⟩
    unfold entryTails at hq
    split at hq
    · rename_i hfunction
      obtain ⟨r, rfl⟩ := hq
      exact ⟨.function r, by rw [hfunction]; rfl⟩
    · split at hq
      · rename_i hclass
        obtain ⟨name, _, ⟨members, rfl⟩, rfl⟩ := hq
        exact ⟨.class name members, by rw [hclass]; rfl⟩
      · cases hq
  · rintro ⟨e, rfl⟩
    cases e with
    | function r => exact ⟨Decl.functionTag, _, by simp [entryTails], rfl⟩
    | «class» name members =>
      refine ⟨Decl.classTag, _, ?_, rfl⟩
      rw [entryTails, if_neg (by decide), if_pos rfl]
      exact ⟨name, _, ⟨members, rfl⟩, rfl⟩

theorem tracks_entry (hblock : Reads block body) (h : Tracks block (Set.range body)) :
    Tracks (entry block) (Set.range (Passage.entry body)) := by
  have hroutine := tracks_routine hblock h
  have hmembers := (tracks_member hblock h).counted .methodCount (reads_member hblock)
  rw [← chain_entryTails]
  apply (quiet_items.byte .declarationTag).bind_tracks (reads_byte _) Passage.met_byte
  · obtain ⟨q, hq⟩ := hroutine.nonempty
    exact ⟨Decl.functionTag, q, by simpa [entryTails] using hq⟩
  · intro tag
    unfold entryTails
    split
    · exact .inl (hroutine.map Entry.function)
    · split
      · refine .inl ((quiet_items.text .className).then (reads_text _) (Passage.met_text _) ?_)
        exact fun name => hmembers.map (Entry.class name)
      · exact .inr ⟨rfl, quiet_throw _⟩

/-- What may follow the declarations of a block. -/
def lastTails (code : List UInt8) : Set Passage :=
  Set.range fun lineMap : List UInt64 =>
    Passage.counted .lineMapping (fun w => .number .lineMapping w.toNat) lineMap ++
      Passage.check code

/-- The passages of blocks, put together field by field. -/
def fieldPassages (body : Record Int64 → Passage) : Set Passage :=
  chain (Passage.blob .code) fun code =>
  chain (Passage.counted .constantCount Passage.constant) fun _ =>
  chain (Passage.text .blockName) fun _ =>
  chain (Passage.text .filename) fun _ =>
  chain (fun w : UInt64 => Passage.number .startLine w.toNat) fun _ =>
  chain (Passage.counted .sourceLine (Passage.text .sourceLine)) fun _ =>
  chain (Passage.counted .name (Passage.text .name)) fun _ =>
  chain (Passage.counted .variableName (Passage.text .variableName)) fun _ =>
  chain (Passage.counted .superglobalSlot fun w : UInt64 => .number .superglobalSlot w.toNat) fun _ =>
  chain Passage.slot fun _ =>
  chain (Passage.counted .declarationCount (Passage.entry body)) fun _ =>
  lastTails code

theorem fieldPassages_eq : fieldPassages body = Set.range (Passage.fields body) := by
  ext p
  constructor
  · rintro ⟨code, _, ⟨consts, _, ⟨name, _, ⟨filename, _, ⟨startLine, _, ⟨sourceLines, _,
      ⟨names, _, ⟨varnames, _, ⟨superglobals, _, ⟨thisSlot, _, ⟨entries, _, ⟨lineMap, rfl⟩,
      rfl⟩, rfl⟩, rfl⟩, rfl⟩, rfl⟩, rfl⟩, rfl⟩, rfl⟩, rfl⟩, rfl⟩, rfl⟩
    refine ⟨⟨⟨code, consts, names, varnames, superglobals, thisSlot, name, filename, startLine,
      sourceLines, lineMap⟩, entries⟩, ?_⟩
    simp only [Passage.fields, Passage.chunk, Passage.lineMap, List.append_assoc]
  · rintro ⟨⟨c, entries⟩, rfl⟩
    simp only [Passage.fields, Passage.chunk, List.append_assoc]
    exact ⟨_, _, ⟨_, _, ⟨_, _, ⟨_, _, ⟨_, _, ⟨_, _, ⟨_, _, ⟨_, _, ⟨_, _, ⟨_, _, ⟨_, _,
      ⟨c.lineMap, rfl⟩, rfl⟩, rfl⟩, rfl⟩, rfl⟩, rfl⟩, rfl⟩, rfl⟩, rfl⟩, rfl⟩, rfl⟩, rfl⟩

theorem tracks_fields (hblock : Reads block body) (h : Tracks block (Set.range body)) :
    Tracks (fields block) (Set.range (Passage.fields body)) := by
  have hconsts := tracks_constant.counted .constantCount reads_constant
  have hentries := (tracks_entry hblock h).counted .declarationCount (reads_entry hblock)
  rw [← fieldPassages_eq]
  refine (quiet_items.blob .code).then (reads_blob _) (Passage.met_blob _) fun code => ?_
  refine hconsts.then (reads_counted _ reads_constant) fun consts => ?_
  refine (quiet_items.text .blockName).then (reads_text _) (Passage.met_text _) fun name => ?_
  refine (quiet_items.text .filename).then (reads_text _) (Passage.met_text _) fun filename => ?_
  refine (quiet_items.natural .startLine).then (reads_natural _)
    (fun w => Passage.met_number _ w.toNat) fun startLine => ?_
  refine (quiet_items.texts .sourceLine).then (reads_texts _) (Passage.met_texts _ _) fun sourceLines => ?_
  refine (quiet_items.texts .name).then (reads_texts _) (Passage.met_texts _ _) fun names => ?_
  refine (quiet_items.texts .variableName).then (reads_texts _) (Passage.met_texts _ _) fun varnames => ?_
  refine (quiet_items.naturals .superglobalSlot).then (reads_naturals _) (Passage.met_numbers _)
    fun superglobals => ?_
  refine quiet_items.thisSlot.then reads_thisSlot Passage.met_slot fun slot => ?_
  refine hentries.then (reads_counted _ (reads_entry hblock)) fun entries => ?_
  -- Nothing is noted behind the declarations.
  refine Quiet.tracks (Quiet.bind (quiet_items.naturals .lineMapping) fun lineMap => ?_)
    (Set.range_nonempty _) ?_
  · cases stackDepth code with
    | ok depth => exact quiet_pure _
    | error e => exact quiet_throw _
  · rintro _ ⟨lineMap, rfl⟩
    simp only [Passage.met_append, Passage.met_numbers, Passage.met_check, List.append_nil]

end Nested

theorem tracks_block (levels : Nat) : Tracks (block levels) (Set.range (Passage.record levels)) := by
  induction levels with
  | zero =>
    have hquiet : Quiet (block 0) := fun _ => rfl
    refine hquiet.tracks ⟨_, ⟨{}, []⟩, rfl⟩ ?_
    rintro _ ⟨r, rfl⟩
    rfl
  | succ levels ih => exact tracks_fields (reads_block levels) ih

end Reader

theorem Record.met_read (buffer : List UInt8) :
    (Record.read buffer).2 = ((Reader.block maxNesting).stop { rest := buffer }).met.reverse := by
  unfold Record.read EStateM.run Reader.wholeBlock
  cases h : Reader.block maxNesting { rest := buffer } with
  | ok r c =>
    rw [Reader.bind_of_ok h, Reader.stop_of_ok h]
    have hget : (get : Reader Cursor) c = .ok c c := rfl
    rw [Reader.bind_of_ok hget]
    cases c.rest <;> rfl
  | error e c =>
    rw [Reader.bind_of_error h]
    simp only [Reader.stop, h]

/-- Reading a buffer notes the constants of its longest start that is one of a record. -/
theorem Record.noted_read (buffer : List UInt8) :
    Noted (Set.range (Passage.record maxNesting)) buffer (Record.read buffer).2 := by
  obtain ⟨ints, hmet, hnoted⟩ := Reader.tracks_block maxNesting { rest := buffer }
  have hread : (Record.read buffer).2 = ints := by
    rw [Record.met_read, hmet]
    simp
  rwa [hread]

-- ---------------------------------------------------------------------------
-- Constants of accepted buffers
-- ---------------------------------------------------------------------------

namespace Passage

section Nested

variable {body : Record Int64 → Passage}

theorem met_routine {r : Routine Int64} (hbody : (body r.body).met = r.body.constants) :
    (routine body r).met = r.constants := by
  obtain ⟨q, ps⟩ := r
  rw [routine, met_append, met_params, List.append_nil, hbody, Routine.constants_mk]

theorem met_members {members : List (Member Int64)}
    (hbody : ∀ m ∈ members, (body m.routine.body).met = m.routine.body.constants) :
    Passage.met (members.flatMap (member body)) = Member.constants members := by
  induction members with
  | nil => rfl
  | cons m rest ih =>
    obtain ⟨hm, hrest⟩ := List.forall_mem_cons.mp hbody
    rw [List.flatMap_cons, met_append, ih hrest, Member.constants_cons, member, met_append,
      met_append, met_text, met_word, met_routine hm, List.nil_append, List.nil_append]

theorem met_entries {entries : List (Entry Int64)}
    (hbody : ∀ e ∈ entries, ∀ q ∈ e.bodies, (body q).met = q.constants) :
    Passage.met (entries.flatMap (entry body)) = Entry.constants entries := by
  induction entries with
  | nil => rfl
  | cons e rest ih =>
    obtain ⟨he, hrest⟩ := List.forall_mem_cons.mp hbody
    rw [List.flatMap_cons, met_append, ih hrest]
    cases e with
    | function r =>
      have hr := met_routine (he r.body (List.mem_singleton_self _))
      rw [entry, met_append, met_byte, hr, List.nil_append, Entry.constants_function]
    | «class» name members =>
      have hmembers := met_members fun m hm => he m.routine.body (List.mem_map_of_mem hm)
      rw [entry, met_append, met_append, met_byte, met_text, counted, met_append, met_number,
        hmembers, Entry.constants_class]
      rfl

theorem met_constants (consts : List Int64) :
    (counted .constantCount constant consts).met = consts := by
  rw [counted, met_append, met_number, List.nil_append]
  induction consts with
  | nil => rfl
  | cons n rest ih =>
    rw [List.flatMap_cons, met_append, ih]
    rfl

theorem met_fields {r : Record Int64} (hbody : ∀ q ∈ r.bodies, (body q).met = q.constants) :
    (fields body r).met = r.constants := by
  obtain ⟨c, entries⟩ := r
  have hentries : (counted .declarationCount (entry body) entries).met = Entry.constants entries := by
    rw [counted, met_append, met_number, List.nil_append]
    exact met_entries fun e he q hq => hbody q (List.mem_flatMap.mpr ⟨e, he, hq⟩)
  rw [Record.constants_mk, fields, met_append, met_append, met_append, hentries]
  simp [chunk, lineMap, met_constants, met_texts, met_numbers, met_slot]

end Nested

theorem met_record {levels : Nat} {r : Record Int64} (h : r.height ≤ levels) :
    (record levels r).met = r.constants := by
  induction levels generalizing r with
  | zero => exact absurd r.height_pos (by omega)
  | succ levels ih => exact met_fields fun q hq => ih (Record.height_le_succ_iff.mp h q hq)

end Passage

/-- An accepted buffer has had all its constants noted. -/
theorem Record.met_read_of_ok {buffer : List UInt8} {r : Record Int64}
    (h : (Record.read buffer).1 = .ok r) : (Record.read buffer).2 = r.constants := by
  obtain ⟨-, hheight, -⟩ := Record.read_eq_ok_iff.mp h
  rw [Record.met_read]
  rw [Record.read_eq] at h
  split at h
  · rename_i r' c hblock
    split at h
    · cases h
      obtain ⟨-, -, hpast⟩ := Reader.strict_block maxNesting hblock
      rw [Reader.stop_of_ok hblock, hpast]
      simp [Cursor.past, Passage.met_record hheight]
    · cases h
  · cases h

end Bytecode.Wire
