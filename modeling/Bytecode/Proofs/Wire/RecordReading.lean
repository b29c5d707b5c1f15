-- SUMMARY: Reading a record back: its reader follows its passage, and accepts the bytes of sound records only.
import Bytecode.Proofs.Wire.RecordPassage

/-!
# Reading records back

The readers of records follow the passages of records and are strict. Together this settles which
buffers are accepted: those that are the bytes of a record, all of it sound and no deeper than the
reader goes.
-/

namespace Bytecode.Wire

namespace Reader

theorem follows_constant (n : Int64) : Follows constant (.constant n) n := by
  intro c rest hc
  have hbyte := follows_byte .constantTag intTag c (wordBytes n.toUInt64 ++ rest)
    (by simpa [intBytes] using hc)
  have hword := follows_word .integerConstant n.toUInt64
    (c.past (.byte intTag) (wordBytes n.toUInt64 ++ rest)) rest (by simp [Cursor.past])
  change constant c = _
  unfold constant
  rw [bind_of_ok hbyte, if_pos rfl, bind_of_ok hword]
  rfl

theorem strict_constant : Strict constant .constant := by
  intro c n c' h
  obtain ⟨tag, c₁, hbyte, h⟩ := bind_eq_ok h
  split at h
  · rename_i htag
    obtain ⟨w, c₂, hword, h⟩ := bind_eq_ok h
    cases h
    subst htag
    obtain ⟨-, hrest₁, hc₁⟩ := strict_byte .constantTag hbyte
    obtain ⟨-, hrest₂, hc₂⟩ := strict_word .integerConstant hword
    refine ⟨Passage.clean_constant _, ?_, ?_⟩
    · rw [hrest₁, hrest₂]
      simp [intBytes]
    · rw [hc₂, hc₁]
      simp [Passage.constant, Passage.byte, Passage.word, Cursor.past, Nat.add_assoc, Nat.add_comm]
  · cases h

theorem follows_thisSlot {slot : Option UInt64} (h : slot ≠ some noSlot) :
    Follows thisSlot (.slot slot) slot := by
  intro c rest hc
  rw [Passage.bytes_slot] at hc
  have hword := follows_word .thisSlot (slot.getD noSlot) c rest (by simpa using hc)
  simp only [Passage.word, Passage.fault?] at hword
  -- Both tests look at a word that has been taken.
  have hrun : thisSlot c =
      if slot.getD noSlot = noSlot then .ok none (c.past (.word (slot.getD noSlot)) rest)
      else if (slot.getD noSlot).toInt64 < 0 then
        .error (.negative .thisSlot (slot.getD noSlot).toInt64 c.offset)
          (c.past (.word (slot.getD noSlot)) rest)
      else .ok (some (slot.getD noSlot)) (c.past (.word (slot.getD noSlot)) rest) := by
    change (word .thisSlot >>= _) c = _
    rw [bind_of_ok hword]
    split
    · rfl
    · split <;> rfl
  cases slot with
  | none => exact hrun
  | some w =>
    have hw : w ≠ noSlot := fun heq => h (congrArg some heq)
    simp only [Option.getD_some, if_neg hw] at hrun
    by_cases hlt : w.toNat < 2 ^ 63
    · have hneg : ¬ w.toInt64 < 0 := by rw [toInt64_neg_iff]; omega
      simp only [Passage.slot, Passage.number, if_pos hlt, Passage.fault?, hrun, if_neg hneg]
      simp [Passage.word, Cursor.past, countBytes_toNat]
    · have hneg : w.toInt64 < 0 := by rw [toInt64_neg_iff]; omega
      simp only [Passage.slot, Passage.number, if_neg hlt, Passage.fault?, hrun, if_pos hneg]
      exact ⟨c.past (.word w) rest, by simp⟩

theorem strict_thisSlot : Strict thisSlot .slot := by
  intro c slot c' h
  obtain ⟨start, c₀, hget, h⟩ := bind_eq_ok h
  cases hget
  obtain ⟨w, c₁, hword, h⟩ := bind_eq_ok h
  have hleads := strict_word .thisSlot hword
  split at h
  · rename_i hnone
    cases h
    subst hnone
    exact hleads
  · split at h
    · cases h
    · rename_i hneg
      cases h
      have hlt : w.toNat < 2 ^ 63 := by rw [toInt64_neg_iff] at hneg; omega
      simp only [Passage.slot, Passage.number, if_pos hlt, countBytes_toNat]
      exact hleads

/-- A parameter from its name and the tag of its kind. -/
def paramOf : String × UInt8 → Reader (String × ParamKind) := fun (name, tag) =>
  match ParamKind.ofTag? tag with
  | some kind => pure (name, kind)
  | none => throw (.unknownParamTag tag)

theorem mapM_paramOf_tags (ps : List (String × ParamKind)) :
    ((ps.map (·.1)).zip (ps.map (·.2.tag))).mapM paramOf = (pure ps : Reader _) := by
  induction ps with
  | nil => rfl
  | cons p rest ih =>
    obtain ⟨name, kind⟩ := p
    have htag : paramOf (name, kind.tag) = pure (name, kind) := by
      simp only [paramOf, ParamKind.ofTag?_eq_some_iff.mpr rfl]
    simp only [List.map_cons, List.zip_cons_cons, List.mapM_cons, htag, ih, pure_bind]

theorem tags_of_mapM_paramOf {items : List (String × UInt8)} {c c' : Cursor}
    {ps : List (String × ParamKind)} (h : items.mapM paramOf c = .ok ps c') :
    c' = c ∧ ps.map (·.1) = items.map (·.1) ∧ ps.map (·.2.tag) = items.map (·.2) := by
  induction items generalizing ps c with
  | nil =>
    cases h
    exact ⟨rfl, rfl, rfl⟩
  | cons item rest ih =>
    obtain ⟨name, tag⟩ := item
    rw [List.mapM_cons] at h
    obtain ⟨p, c₁, hp, h⟩ := bind_eq_ok h
    obtain ⟨qs, c₂, hqs, hpure⟩ := bind_eq_ok h
    cases hpure
    obtain ⟨rfl, hnames, htags⟩ := ih hqs
    cases hkind : ParamKind.ofTag? tag with
    | none =>
      simp only [paramOf, hkind] at hp
      cases hp
    | some kind =>
      simp only [paramOf, hkind] at hp
      cases hp
      refine ⟨rfl, by simp [hnames], ?_⟩
      simp [htags, ParamKind.ofTag?_eq_some_iff.mp hkind]

theorem follows_params {ps : List (String × ParamKind)}
    (h : ∀ n ∈ textsLengths (ps.map (·.1)), n < 2 ^ 64) : Follows params (.params ps) ps := by
  have hlen : ps.length < 2 ^ 64 := by
    simpa using h (ps.map (·.1)).length (by simp [textsLengths])
  have htags : Follows (blob .paramTags) (.blob .paramTags (ps.map (·.2.tag))) _ :=
    follows_blob .paramTags (by simpa using hlen)
  have hcount : ¬ (ps.map (·.1)).length ≠ (ps.map (·.2.tag)).length := by simp
  have hpairs : Follows (((ps.map (·.1)).zip (ps.map (·.2.tag))).mapM paramOf) [] ps := by
    rw [mapM_paramOf_tags]
    exact follows_pure ps
  refine (follows_texts .paramName h).bind ?_
  rw [← List.append_nil (Passage.blob _ _)]
  refine htags.bind ?_
  rw [if_neg hcount]
  exact hpairs

theorem strict_params : Strict params .params := by
  intro c ps c' h
  obtain ⟨names, c₁, hnames, h⟩ := bind_eq_ok h
  obtain ⟨tags, c₂, htags, h⟩ := bind_eq_ok h
  split at h
  · cases h
  · rename_i hcount
    have hlen : names.length = tags.length := not_not.mp hcount
    obtain ⟨rfl, hfst, hsnd⟩ := tags_of_mapM_paramOf h
    rw [List.map_fst_zip hlen.le] at hfst
    rw [List.map_snd_zip hlen.ge] at hsnd
    rw [Passage.params, hfst, hsnd]
    exact (strict_texts .paramName hnames).append (strict_blob .paramTags htags)

-- ---------------------------------------------------------------------------
-- Declarations and fields
-- ---------------------------------------------------------------------------

section Nested

variable {block : Reader (Record Int64)} {body : Record Int64 → Passage}

theorem follows_routine {r : Routine Int64} (hbody : Follows block (body r.body) r.body)
    (h : ∀ n ∈ r.lengths, n < 2 ^ 64) : Follows (routine block) (.routine body r) r := by
  obtain ⟨q, ps⟩ := r
  refine hbody.bind ?_
  exact (follows_params h).map (Routine.mk q)

theorem strict_routine (hblock : Strict block body) : Strict (routine block) (.routine body) := by
  intro c r c' h
  obtain ⟨q, c₁, hbody, h⟩ := bind_eq_ok h
  obtain ⟨ps, c₂, hparams, hpure⟩ := bind_eq_ok h
  cases hpure
  exact (hblock hbody).append (strict_params hparams)

theorem follows_member {m : Member Int64}
    (hbody : Follows block (body m.routine.body) m.routine.body)
    (h : ∀ n ∈ m.lengths, n < 2 ^ 64) : Follows (member block) (.member body m) m := by
  obtain ⟨name, flags, r⟩ := m
  refine (follows_text .methodName (h _ List.mem_cons_self)).bind ?_
  refine (follows_word .accessFlags flags.bits.toUInt64).bind ?_
  have hroutine := follows_routine hbody fun n hn => h n (List.mem_cons_of_mem _ hn)
  exact hroutine.map (Member.mk name flags)

theorem strict_member (hblock : Strict block body) : Strict (member block) (.member body) := by
  intro c m c' h
  obtain ⟨name, c₁, hname, h⟩ := bind_eq_ok h
  obtain ⟨flags, c₂, hflags, h⟩ := bind_eq_ok h
  obtain ⟨r, c₃, hroutine, hpure⟩ := bind_eq_ok h
  cases hpure
  exact (strict_text .methodName hname).append
    ((strict_word .accessFlags hflags).append (strict_routine hblock hroutine))

theorem follows_entry {e : Entry Int64} (hbody : ∀ q ∈ e.bodies, Follows block (body q) q)
    (h : ∀ n ∈ e.lengths, n < 2 ^ 64) : Follows (entry block) (.entry body e) e := by
  cases e with
  | function r =>
    refine (follows_byte .declarationTag Decl.functionTag).bind ?_
    rw [if_pos rfl]
    exact (follows_routine (hbody r.body (by simp [Entry.bodies])) h).map Entry.function
  | «class» name members =>
    have hmembers : ∀ m ∈ members, Follows (member block) (.member body m) m := by
      intro m hm
      refine follows_member (hbody m.routine.body (List.mem_map_of_mem hm)) fun n hn => h n ?_
      simp only [Entry.lengths, List.mem_cons, List.mem_flatMap]
      exact .inr (.inr ⟨m, hm, hn⟩)
    refine (follows_byte .declarationTag Decl.classTag).bind ?_
    rw [if_neg (by decide), if_pos rfl]
    refine (follows_text .className (h _ (by simp [Entry.lengths, textLength]))).bind ?_
    exact (follows_counted .methodCount (h _ (by simp [Entry.lengths])) hmembers).map
      (Entry.class name)

theorem strict_entry (hblock : Strict block body) : Strict (entry block) (.entry body) := by
  intro c e c' h
  obtain ⟨tag, c₁, hbyte, h⟩ := bind_eq_ok h
  have htag := strict_byte .declarationTag hbyte
  split at h
  · rename_i hfunction
    obtain ⟨r, c₂, hroutine, hpure⟩ := bind_eq_ok h
    cases hpure
    rw [hfunction] at htag
    exact htag.append (strict_routine hblock hroutine)
  · split at h
    · rename_i hclass
      obtain ⟨name, c₂, hname, h⟩ := bind_eq_ok h
      obtain ⟨members, c₃, hmembers, hpure⟩ := bind_eq_ok h
      cases hpure
      rw [hclass] at htag
      exact htag.append ((strict_text .className hname).append
        (strict_counted .methodCount (strict_member hblock) hmembers))
    · cases h

theorem follows_check (code : List UInt8) (r : Record Int64) :
    Follows (match stackDepth code with
      | .ok _ => pure r
      | .error e => throw (.build e)) (.check code) r := by
  intro c rest hc
  change c.rest = rest at hc
  subst hc
  cases h : stackDepth code with
  | ok depth =>
    simp only [Passage.check, h, Passage.fault?]
    rfl
  | error e =>
    simp only [Passage.check, h, Passage.fault?]
    exact ⟨c, rfl⟩

theorem follows_fields {r : Record Int64} (h : r.Spellable)
    (hbody : ∀ q ∈ r.bodies, Follows block (body q) q) :
    Follows (fields block) (.fields body r) r := by
  obtain ⟨hlengths, hslot⟩ := h
  obtain ⟨⟨code, consts, names, varnames, superglobals, thisSlot, name, filename, startLine,
    sourceLines, lineMap⟩, entries⟩ := r
  simp only [Record.lengths, chunkLengths, List.mem_append, List.mem_cons, or_imp, forall_and,
    forall_eq, List.not_mem_nil, false_imp_iff, and_true] at hlengths
  obtain ⟨⟨⟨hcode, hconsts, hname, hfilename, hsuper, hmap⟩, hsource, hnames, hvars⟩, hcount,
    hentries⟩ := hlengths
  have hentry : ∀ e ∈ entries, Follows (entry block) (.entry body e) e := by
    intro e he
    refine follows_entry (fun q hq => hbody q ?_) fun n hn => hentries n ?_
    · exact List.mem_flatMap.mpr ⟨e, he, hq⟩
    · exact List.mem_flatMap.mpr ⟨e, he, hn⟩
  simp only [Passage.fields, Passage.chunk, List.append_assoc]
  refine (follows_blob .code hcode).bind ?_
  refine (follows_counted .constantCount hconsts fun n _ => follows_constant n).bind ?_
  refine (follows_text .blockName hname).bind ?_
  refine (follows_text .filename hfilename).bind ?_
  refine (follows_natural .startLine startLine).bind ?_
  refine (follows_texts .sourceLine hsource).bind ?_
  refine (follows_texts .name hnames).bind ?_
  refine (follows_texts .variableName hvars).bind ?_
  refine (follows_naturals .superglobalSlot hsuper).bind ?_
  refine (follows_thisSlot hslot).bind ?_
  refine (follows_counted .declarationCount hcount hentry).bind ?_
  refine (follows_naturals .lineMapping hmap).bind ?_
  exact follows_check code _

theorem strict_fields (hblock : Strict block body) : Strict (fields block) (.fields body) := by
  intro c r c' h
  obtain ⟨code, c₁, hcode, h⟩ := bind_eq_ok h
  obtain ⟨consts, c₂, hconsts, h⟩ := bind_eq_ok h
  obtain ⟨name, c₃, hname, h⟩ := bind_eq_ok h
  obtain ⟨filename, c₄, hfilename, h⟩ := bind_eq_ok h
  obtain ⟨startLine, c₅, hstart, h⟩ := bind_eq_ok h
  obtain ⟨sourceLines, c₆, hsource, h⟩ := bind_eq_ok h
  obtain ⟨names, c₇, hnames, h⟩ := bind_eq_ok h
  obtain ⟨varnames, c₈, hvarnames, h⟩ := bind_eq_ok h
  obtain ⟨superglobals, c₉, hsuper, h⟩ := bind_eq_ok h
  obtain ⟨slot, c₁₀, hslot, h⟩ := bind_eq_ok h
  obtain ⟨entries, c₁₁, hentries, h⟩ := bind_eq_ok h
  obtain ⟨lineMap, c₁₂, hmap, h⟩ := bind_eq_ok h
  cases hcheck : stackDepth code with
  | error e =>
    rw [hcheck] at h
    cases h
  | ok depth =>
    rw [hcheck] at h
    cases h
    have hpass : Passage.Leads (.check code) c' c' := by
      simp [Passage.check, hcheck, Passage.Leads, Cursor.past]
    simp only [Passage.fields, Passage.chunk, List.append_assoc]
    exact (strict_blob .code hcode).append <|
      (strict_counted .constantCount strict_constant hconsts).append <|
      (strict_text .blockName hname).append <|
      (strict_text .filename hfilename).append <|
      (strict_natural .startLine hstart).append <|
      (strict_texts .sourceLine hsource).append <|
      (strict_texts .name hnames).append <|
      (strict_texts .variableName hvarnames).append <|
      (strict_naturals .superglobalSlot hsuper).append <|
      (strict_thisSlot hslot).append <|
      (strict_counted .declarationCount (strict_entry hblock) hentries).append <|
      (strict_naturals .lineMapping hmap).append hpass

end Nested

theorem follows_block (levels : Nat) {r : Record Int64} (h : ∀ q ∈ r.records, q.Spellable) :
    Follows (block levels) (.record levels r) r := by
  induction levels generalizing r with
  | zero =>
    intro c rest hc
    exact ⟨c, rfl⟩
  | succ levels ih =>
    refine follows_fields (h r r.mem_records_self) fun q hq => ih fun p hp => h p ?_
    exact Record.mem_records_of_body hq hp

theorem strict_block (levels : Nat) : Strict (block levels) (.record levels) := by
  induction levels with
  | zero =>
    intro c r c' h
    cases h
  | succ levels ih => exact strict_fields ih

end Reader

-- ---------------------------------------------------------------------------
-- Whole buffers
-- ---------------------------------------------------------------------------

theorem Record.read_eq (buffer : List UInt8) :
    (Record.read buffer).1 = match Reader.block maxNesting { rest := buffer } with
      | .ok r c => if c.rest = [] then .ok r else .error (.trailingBytes c.rest.length)
      | .error e _ => .error e := by
  unfold Record.read EStateM.run Reader.wholeBlock
  cases h : Reader.block maxNesting { rest := buffer } with
  | ok r c =>
    rw [Reader.bind_of_ok h]
    have hget : (get : Reader Cursor) c = .ok c c := rfl
    rw [Reader.bind_of_ok hget]
    cases hrest : c.rest with
    | nil => simp [hrest, pure, EStateM.pure]
    | cons b bs => simp [hrest, throw, throwThe, MonadExceptOf.throw, EStateM.throw]
  | error e c => rw [Reader.bind_of_error h]

theorem Record.read_encode {r : Record Int64} (h : ∀ q ∈ r.records, q.Spellable) :
    (Record.read r.encode).1 = match (Passage.record maxNesting r).fault? 0 with
      | none => .ok r
      | some e => .error e := by
  have hblock := Reader.follows_block maxNesting h { rest := r.encode } []
    (by rw [Passage.bytes_record, List.append_nil])
  rw [Record.read_eq]
  cases hfault : (Passage.record maxNesting r).fault? 0 with
  | none =>
    simp only [hfault] at hblock
    simp [hblock, Cursor.past]
  | some e =>
    simp only [hfault] at hblock
    obtain ⟨c, hblock⟩ := hblock
    simp [hblock]

/-- The buffers that are accepted, and what they are accepted as. -/
theorem Record.read_eq_ok_iff {buffer : List UInt8} {r : Record Int64} :
    (Record.read buffer).1 = .ok r ↔
      buffer = r.encode ∧ r.height ≤ maxNesting ∧ ∀ q ∈ r.records, q.Sound := by
  constructor
  · intro h
    rw [Record.read_eq] at h
    split at h
    · rename_i r' c hblock
      split at h
      · rename_i hrest
        cases h
        obtain ⟨hclean, hbuffer, -⟩ := Reader.strict_block maxNesting hblock
        refine ⟨?_, Passage.clean_record.mp hclean⟩
        simpa [hrest, Passage.bytes_record] using hbuffer
      · cases h
    · cases h
  · rintro ⟨rfl, hsound⟩
    have hclean := Passage.clean_record.mpr hsound
    rw [Record.read_encode fun q hq => (hsound.2 q hq).spellable,
      (Passage.fault?_eq_none_iff 0).mpr hclean]

end Bytecode.Wire
