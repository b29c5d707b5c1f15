-- SUMMARY: What a disassembler hands out: instructions that tile the stream, and the fault that the stack check finds.
import Bytecode.Disassembler
import Bytecode.Proofs.Assembly.Item
import Bytecode.Proofs.Persistence
import Bytecode.Proofs.Wire.Checking
import Bytecode.Render.View

/-!
# Disassembling

A disassembler hands out the listing of its stream: instructions that stand one behind the other from
the front on, and a fault where they stop short of the end. The stack check in one pass decodes the same
instructions, so that a stream without a decoding fault is listed in full, and so is every block that
was built or loaded.
-/

namespace Bytecode

namespace Instruction

/-- Decoding at a position is decoding what stands there. -/
theorem readAt_eq {code bs : List UInt8} {pos : Nat} {b : UInt8} (hdrop : code.drop pos = b :: bs)
    (hpos : pos < code.length) :
    readAt code pos hpos =
      match decode pos b bs with
      | .ok (i, width) => .ok (i, pos + 1 + width)
      | .error e => .error e := by
  rw [List.drop_eq_getElem_cons hpos] at hdrop
  obtain ⟨hbyte, hrest⟩ := List.cons_eq_cons.mp hdrop
  unfold readAt decode
  rw [hbyte]
  cases Opcode.ofByte? b with
  | none => rfl
  | some op =>
    cases htakes : op.takesOperand with
    | false => simp [htakes]
    | true =>
      simp only [htakes, if_true, Operand.readAt, hrest]
      cases Operand.read bs <;> rfl

end Instruction

-- ---------------------------------------------------------------------------
-- Walks and listings
-- ---------------------------------------------------------------------------

/-- The instructions of a listing, with its fault behind them. -/
def Listing.items (l : Listing) : List (Except InstructionError Instruction) :=
  l.instructions.map .ok ++ l.fault.toList.map .error

theorem lt_length_of_drop_eq_cons {code bs : List UInt8} {pos : Nat} {b : UInt8}
    (h : code.drop pos = b :: bs) : pos < code.length := by
  by_contra hle
  rw [List.drop_eq_nil_of_le (Nat.not_lt.mp hle)] at h
  cases h

theorem drop_eq_drop_of_drop_eq_cons {code bs : List UInt8} {pos : Nat} {b : UInt8}
    (h : code.drop pos = b :: bs) (width : Nat) : code.drop (pos + 1 + width) = bs.drop width := by
  rw [Nat.add_assoc, ← List.drop_drop, h, Nat.add_comm, List.drop_succ_cons]

/-- A disassembler hands out the listing of what is left. -/
theorem Disassembler.items_eq {code rest : List UInt8} {pos : Nat} (h : code.drop pos = rest) :
    (mk code pos).items = (Listing.ofBytesAt pos rest).items := by
  induction pos, rest using Listing.ofBytesAt.induct with
  | case1 pos =>
    have hend : ¬ pos < code.length := Nat.not_lt.mpr (List.drop_eq_nil_iff.mp h)
    rw [items, next?, dif_neg hend]
    simp [Listing.items, Listing.ofBytesAt]
  | case2 pos b bs i width hdecode ih =>
    have hpos := lt_length_of_drop_eq_cons h
    rw [items, next?, dif_pos hpos, Instruction.readAt_eq h hpos, Listing.ofBytesAt, hdecode]
    exact congrArg (Except.ok i :: ·) (ih (drop_eq_drop_of_drop_eq_cons h width))
  | case3 pos b bs e hdecode =>
    have hpos := lt_length_of_drop_eq_cons h
    have hend : (mk code code.length).items = [] := by
      rw [items, next?, dif_neg (Nat.lt_irrefl _)]
    rw [items, next?, dif_pos hpos, Instruction.readAt_eq h hpos, Listing.ofBytesAt, hdecode]
    exact congrArg (Except.error e :: ·) hend

/-- The check in one pass meets the instructions of the listing, and then its fault. -/
theorem StackHeight.passFrom_eq {code rest : List UInt8} {pos : Nat} (h : code.drop pos = rest)
    (height : StackHeight) :
    height.passFrom code pos =
      match height.passAll (Listing.ofBytesAt pos rest).instructions with
      | .error e => .error (.stack e)
      | .ok last =>
        match (Listing.ofBytesAt pos rest).fault with
        | some e => .error (.instruction e)
        | none => .ok last := by
  induction pos, rest using Listing.ofBytesAt.induct generalizing height with
  | case1 pos =>
    have hend : ¬ pos < code.length := Nat.not_lt.mpr (List.drop_eq_nil_iff.mp h)
    rw [passFrom, dif_neg hend, Listing.ofBytesAt]
    rfl
  | case2 pos b bs i width hdecode ih =>
    have hpos := lt_length_of_drop_eq_cons h
    rw [passFrom, dif_pos hpos, Instruction.readAt_eq h hpos, Listing.ofBytesAt, hdecode]
    simp only [passAll_cons]
    cases height.pass i with
    | error e => rfl
    | ok height' => exact ih (drop_eq_drop_of_drop_eq_cons h width) height'
  | case3 pos b bs e hdecode =>
    have hpos := lt_length_of_drop_eq_cons h
    rw [passFrom, dif_pos hpos, Instruction.readAt_eq h hpos, Listing.ofBytesAt, hdecode]
    rfl

theorem stackDepthInOnePass_eq (code : List UInt8) : stackDepthInOnePass code = stackDepth code := by
  unfold stackDepthInOnePass stackDepth Listing.stackDepth
  rw [StackHeight.passFrom_eq (List.drop_zero (l := code)), ← Listing.ofBytes]
  cases StackHeight.passAll {} (Listing.ofBytes code).instructions with
  | error e => rfl
  | ok last =>
    cases (Listing.ofBytes code).fault with
    | some e => rfl
    | none => rfl

theorem StackHeight.pass_ne_unbalanced (h : StackHeight) (i : Instruction) (depth : Int64) :
    h.pass i ≠ .error (.unbalanced depth) := by
  intro hpass
  simp only [pass] at hpass
  split at hpass
  · cases hpass
  · split at hpass <;> cases hpass

theorem StackHeight.passAll_ne_unbalanced (h : StackHeight) (is : List Instruction) (depth : Int64) :
    h.passAll is ≠ .error (.unbalanced depth) := by
  induction is generalizing h with
  | nil => nofun
  | cons i is ih =>
    rw [passAll_cons]
    cases hpass : h.pass i with
    | error e =>
      rintro heq
      cases heq
      exact pass_ne_unbalanced h i depth hpass
    | ok h' => exact ih h'

namespace Listing

variable {l : Listing}

theorem fault_of_stackDepth_eq_unbalanced {depth : Int64}
    (h : l.stackDepth = .error (.stack (.unbalanced depth))) : l.fault = none := by
  unfold stackDepth at h
  cases hrun : StackHeight.passAll {} l.instructions with
  | error e =>
    rw [hrun] at h
    cases h
    exact absurd hrun (StackHeight.passAll_ne_unbalanced {} l.instructions depth)
  | ok last =>
    cases hfault : l.fault with
    | none => rfl
    | some e => simp [hrun, hfault] at h

theorem fault_of_stackDepth_eq_instruction {e : InstructionError}
    (h : l.stackDepth = .error (.instruction e)) : l.fault = some e := by
  unfold stackDepth at h
  cases hrun : StackHeight.passAll {} l.instructions with
  | error e => simp [hrun] at h
  | ok last =>
    cases hfault : l.fault with
    | none =>
      simp only [hrun, hfault] at h
      split at h <;> cases h
    | some e' =>
      simp only [hrun, hfault, Except.error.injEq, BuildError.instruction.injEq] at h
      rw [h]

end Listing

-- ---------------------------------------------------------------------------
-- Tiles
-- ---------------------------------------------------------------------------

/-- The bytes that an instruction can take: an operand has one to five of them. -/
def Instruction.Spans (i : Instruction) (width : Nat) : Prop :=
  match i.operand with
  | none => width = 1
  | some _ => 2 ≤ width ∧ width ≤ 6

/-- Instructions stand one behind the other in a stream, from one offset up to another. -/
inductive Tiles (code : List UInt8) : Nat → List Instruction → Nat → Prop
  | nil (stop : Nat) : Tiles code stop [] stop
  | cons {i : Instruction} {is : List Instruction} {width stop : Nat}
      (hbyte : code[i.offset]? = some i.opcode.byte) (hwidth : i.Spans width)
      (hrest : Tiles code (i.offset + width) is stop) : Tiles code i.offset (i :: is) stop

/-- The faults that end a stream at an offset: of the opcode there, or of the operand behind it. -/
inductive InstructionError.EndsAt (code : List UInt8) (stop : Nat) : InstructionError → Prop
  | unknownOpcode {b : UInt8} (hbyte : code[stop]? = some b) (hop : Opcode.ofByte? b = none) :
      EndsAt code stop (.unknownOpcode stop b)
  | operandTooLong (hstop : stop < code.length) : EndsAt code stop (.operandTooLong (stop + 1))
  | truncatedOperand (hstop : stop < code.length) : EndsAt code stop (.truncatedOperand (stop + 1))

/-- The instructions of a listing cover the stream from one offset on, up to its end or to the fault. -/
def Listing.Covers (l : Listing) (code : List UInt8) (start : Nat) : Prop :=
  ∃ stop, Tiles code start l.instructions stop ∧ (l.fault = none → stop = code.length) ∧
    ∀ e ∈ l.fault, e.EndsAt code stop

theorem Instruction.spans_of_decode {offset width : Nat} {b : UInt8} {bs : List UInt8}
    {i : Instruction} (h : decode offset b bs = .ok (i, width)) : i.Spans (1 + width) := by
  obtain ⟨-, -, -, ⟨hnone, rfl⟩ | ⟨value, hsome, hread⟩⟩ := decode_cases h
  · simp [Spans, hnone]
  · obtain ⟨extra, hextra, hwidth, -, -⟩ := Operand.read_eq_ok_iff.mp hread
    simp only at hwidth
    rw [Operand.maxWidth] at hextra
    simp only [Spans, hsome]
    omega

theorem InstructionError.endsAt_of_decode {code bs : List UInt8} {pos : Nat} {b : UInt8}
    {e : InstructionError} (hdrop : code.drop pos = b :: bs)
    (h : Instruction.decode pos b bs = .error e) : e.EndsAt code pos := by
  have hpos := lt_length_of_drop_eq_cons hdrop
  have hbyte : code[pos]? = some b := by
    rw [← List.head?_drop, hdrop]
    rfl
  unfold Instruction.decode at h
  split at h
  · rename_i hop
    cases h
    exact .unknownOpcode hbyte hop
  · split at h
    · split at h
      · cases h
      · rename_i fault _
        cases h
        cases fault with
        | truncated => exact .truncatedOperand hpos
        | tooLong => exact .operandTooLong hpos
    · cases h

/-- The listing of a stream covers it from its start. -/
theorem Listing.covers_ofBytesAt {code rest : List UInt8} {pos : Nat} (hpos : pos ≤ code.length)
    (h : code.drop pos = rest) : (ofBytesAt pos rest).Covers code pos := by
  induction pos, rest using ofBytesAt.induct with
  | case1 pos =>
    have hend := List.drop_eq_nil_iff.mp h
    rw [ofBytesAt]
    exact ⟨pos, .nil pos, fun _ => Nat.le_antisymm hpos hend, by simp⟩
  | case2 pos b bs i width hdecode ih =>
    have hwidth := Instruction.width_le_of_decode hdecode
    have hlength := congrArg List.length h
    rw [List.length_drop, List.length_cons] at hlength
    obtain ⟨stop, htiles, hcovered, hends⟩ :=
      ih (by omega) (drop_eq_drop_of_drop_eq_cons h width)
    have hspans := Instruction.spans_of_decode hdecode
    obtain ⟨rfl, rfl, -, -⟩ := Instruction.decode_cases hdecode
    have hbyte : code[i.offset]? = some i.opcode.byte := by
      rw [← List.head?_drop, h]
      rfl
    rw [ofBytesAt, hdecode]
    refine ⟨stop, .cons hbyte hspans ?_, hcovered, hends⟩
    rw [← Nat.add_assoc]
    exact htiles
  | case3 pos b bs e hdecode =>
    rw [ofBytesAt, hdecode]
    refine ⟨pos, .nil pos, by simp, ?_⟩
    intro e' he'
    obtain rfl := Option.some.inj he'
    exact InstructionError.endsAt_of_decode h hdecode

-- ---------------------------------------------------------------------------
-- Dumps and views
-- ---------------------------------------------------------------------------

namespace Listing

theorem eq_blank_or_isDigit_of_mem_gutter {offset : Nat} {c : Char}
    (h : c ∈ (gutter offset).toList) : c = ' ' ∨ c.isDigit := by
  have hdigits : ∀ c ∈ (toString offset).toList, c.isDigit := by
    intro c hc
    rw [Assembly.Literal.toList_toString_nat] at hc
    exact Assembly.Literal.isDigit_of_mem_toDigits hc
  simp only [gutter, String.toList_append, String.toList_ofList, List.mem_append,
    List.mem_replicate] at h
  rcases h with (⟨-, rfl⟩ | hdigit) | hspace
  · exact .inl rfl
  · exact .inr (hdigits c hdigit)
  · left
    simpa using hspace

theorem toList_line_none (i : Instruction) :
    (line none i).toList = (gutter i.offset).toList ++ i.text.toList := by
  simp [line]

/-- The line of an instruction can be told from that of a fault. -/
theorem not_isPrefix_line (i : Instruction) : ¬ "<malformed: ".toList <+: (line none i).toList := by
  rintro ⟨rest, hrest⟩
  have hmem : '<' ∈ (gutter i.offset).toList := by
    rw [toList_line_none] at hrest
    cases hgutter : (gutter i.offset).toList with
    | nil => simp [gutter] at hgutter
    | cons c cs =>
      rw [hgutter] at hrest
      have hfirst : '<' = c := (List.cons_eq_cons.mp hrest).1
      rw [hfirst]
      exact List.mem_cons_self
  rcases eq_blank_or_isDigit_of_mem_gutter hmem with hblank | hdigit
  · exact absurd hblank (by decide)
  · exact absurd hdigit (by decide)

theorem oneLine_line (i : Instruction) : Text.OneLine (line none i).toList where
  ne_nil := by simp [toList_line_none, gutter]
  no_newline := by
    rw [toList_line_none, List.mem_append]
    rintro (hgutter | htext)
    · rcases eq_blank_or_isDigit_of_mem_gutter hgutter with hblank | hdigit
      · exact absurd hblank (by decide)
      · exact absurd hdigit (by decide)
    · exact (Assembly.uncut_text i).plain.no_newline htext
  no_return := by
    have htext := (Assembly.uncut_text i).plain
    rw [toList_line_none, List.getLast?_append_of_ne_nil _ htext.ne_nil]
    exact htext.oneLine.no_return

/-- The dump of a listing without a fault has the lines of its instructions, and no other. -/
theorem lines_dump {l : Listing} (h : l.fault = none) :
    Text.lines (l.dump none).toList = l.instructions.map fun i => (line none i).toList := by
  have hlines : l.lines none = l.instructions.map (line none) := by simp [lines, h]
  rw [dump, hlines, Text.lines_toList_intercalate, List.map_map]
  · rfl
  · exact List.forall_mem_map.mpr fun i _ => oneLine_line i

end Listing

theorem Disassembler.items_mk (code : List UInt8) :
    items { code } = (Listing.ofBytes code).items := items_eq rfl

/-- The instructions that are handed out in front of a fault. -/
def Disassembler.shown (d : Disassembler) : List Instruction :=
  (d.items.takeWhile (·.isOk)).filterMap (·.toOption)

theorem Disassembler.shown_mk (code : List UInt8) :
    shown { code } = (Listing.ofBytes code).instructions := by
  rw [shown, items_mk, Listing.items, List.takeWhile_append_of_pos (by simp [Except.isOk,
    Except.toBool]), List.filterMap_append, List.filterMap_map]
  cases (Listing.ofBytes code).fault <;>
    simp [Except.isOk, Except.toBool, Except.toOption, Function.comp_def]

/-- What a view says of an instruction, with its operand and its source line if they are known. -/
def Chunk.entry (c : Chunk Value) (i : Instruction) : Json :=
  match i.operand, c.lineMap[i.offset]? with
  | none, none => .object [("offset", .int i.offset), ("opcode", .str i.opcode.mnemonic)]
  | none, some line =>
    .object
      [("offset", .int i.offset), ("opcode", .str i.opcode.mnemonic), ("line", .int line.toNat)]
  | some operand, none =>
    .object
      [("offset", .int i.offset), ("opcode", .str i.opcode.mnemonic), ("arg", .int operand)]
  | some operand, some line =>
    .object
      [("offset", .int i.offset), ("opcode", .str i.opcode.mnemonic), ("arg", .int operand),
        ("line", .int line.toNat)]

theorem Render.instructionView_eq (c : Chunk Value) (i : Instruction) :
    instructionView c i = c.entry i := by
  simp only [instructionView, Chunk.entry, Chunk.lineAt?]
  cases i.operand <;> cases c.lineMap[i.offset]? <;> rfl

/-- Whatever the code is, its view lists the instructions in front of the fault. -/
theorem Block.lookup_view_instructions (b : Block) :
    ∃ fields, b.view = .object fields ∧ fields.lookup "instructions" =
      some (.array ((Disassembler.shown { code := b.chunk.code }).map b.chunk.entry)) := by
  obtain ⟨chunk, owner, decls⟩ := b
  have hentries : chunk.listing.instructions.map (Render.instructionView chunk) =
      (Disassembler.shown { code := chunk.code }).map chunk.entry := by
    rw [Disassembler.shown_mk, ← Chunk.listing]
    exact List.map_congr_left fun i _ => Render.instructionView_eq chunk i
  refine ⟨_, rfl, ?_⟩
  rw [← hentries]
  rfl

/-- The disassembler, the dump and the view of a block show every instruction of it, and no fault. -/
structure Block.ListedInFull (b : Block) : Prop where
  items : Disassembler.items { code := b.chunk.code } = b.chunk.listing.instructions.map .ok
  tiles : Tiles b.chunk.code 0 b.chunk.listing.instructions b.chunk.code.length
  dump : Text.lines (b.chunk.listing.dump none).toList =
    b.chunk.listing.instructions.map fun i => (Listing.line none i).toList
  sound : ∀ line ∈ Text.lines (b.chunk.listing.dump none).toList, ¬ "<malformed: ".toList <+: line
  /-- Of all that the disassembler hands out there is an entry, in order. -/
  view : ∃ fields entries, b.view = .object fields ∧
    fields.lookup "instructions" = some (.array entries) ∧
    List.Forall₂ (fun item entry => ∃ i, item = .ok i ∧ entry = b.chunk.entry i)
      (Disassembler.items { code := b.chunk.code }) entries

theorem Block.listedInFull {b : Block} {depth : Nat} (h : stackDepth b.chunk.code = .ok depth) :
    b.ListedInFull := by
  have hfault : b.chunk.listing.fault = none := Listing.fault_of_stackDepth_eq_ok h
  obtain ⟨stop, htiles, hcovered, -⟩ :=
    Listing.covers_ofBytesAt (Nat.zero_le _) (List.drop_zero (l := b.chunk.code))
  obtain rfl := hcovered hfault
  have hdump := Listing.lines_dump hfault
  have hitems : Disassembler.items { code := b.chunk.code } =
      b.chunk.listing.instructions.map .ok := by
    rw [Disassembler.items_mk, ← Chunk.listing, Listing.items, hfault]
    simp
  refine ⟨hitems, htiles, hdump, ?_, ?_⟩
  · rw [hdump]
    exact List.forall_mem_map.mpr fun i _ => Listing.not_isPrefix_line i
  · obtain ⟨fields, hview, hlookup⟩ := b.lookup_view_instructions
    refine ⟨fields, _, hview, hlookup, ?_⟩
    rw [hitems, Disassembler.shown_mk, ← Chunk.listing, List.forall₂_map_left_iff,
      List.forall₂_map_right_iff, List.forall₂_same]
    exact fun i _ => ⟨i, rfl, rfl⟩

/--
A disassembler hands out instructions that tile the stream from its first byte on, and then nothing if
they cover it, or else one fault, of the opcode where they stop or of the operand behind it. The stack
check, which decodes on its own, gives no decoding error but this fault, and where there is a fault it
neither accepts the stream nor finds values left over. So the disassembler, the dump and the view of a
block that was built or loaded show every instruction of it.
-/
theorem Disassembler.items_tile :
    (∀ code : List UInt8,
      let l := Listing.ofBytes code
      items { code } = l.instructions.map .ok ++ l.fault.toList.map .error ∧
      l.Covers code 0 ∧
      stackDepthInOnePass code = stackDepth code ∧
      (∀ depth, stackDepth code = .ok depth → l.fault = none) ∧
      (∀ height, stackDepth code = .error (.stack (.unbalanced height)) → l.fault = none) ∧
      ∀ e, stackDepth code = .error (.instruction e) → l.fault = some e) ∧
    (∀ chunk owner decls b, Block.build? chunk owner decls = .ok b → b.ListedInFull) ∧
    ∀ (σ : Type) (host : Host σ) (s : σ) (buffer : List UInt8) (t : Block),
      ((Block.load host buffer).run s).1 = .ok t → ∀ b ∈ t.blocks, b.ListedInFull := by
  refine ⟨fun code => ?stream, fun chunk owner decls b hbuild => ?built,
    fun σ host s buffer t hload b hb => ?loaded⟩
  case stream =>
    exact ⟨items_mk code, Listing.covers_ofBytesAt (Nat.zero_le _) List.drop_zero,
      stackDepthInOnePass_eq code, fun _ => Listing.fault_of_stackDepth_eq_ok,
      fun _ => Listing.fault_of_stackDepth_eq_unbalanced,
      fun _ => Listing.fault_of_stackDepth_eq_instruction⟩
  case built =>
    obtain ⟨depth, hdepth⟩ := Block.exists_stackDepth_of_build? hbuild
    rw [Block.build?, hdepth] at hbuild
    cases hbuild
    exact Block.listedInFull hdepth
  case loaded => exact Block.listedInFull (Wire.stackDepth_of_load host s hload b hb)

theorem Disassembler.items_tile_truncated :
    let code : List UInt8 := [0x40, 0x81, 0x02, 0x04, 0x40, 0x80]
    let b : Block := { chunk := { code := [0x40, 0x81, 0x02, 0x04], lineMap := [7, 7, 7] } }
    (stackDepth code = .error (.instruction (.truncatedOperand 5)) ∧
      items { code } = [.ok ⟨0, .loadConst, some 0x181⟩, .ok ⟨3, .ret, none⟩,
        .error (.truncatedOperand 5)]) ∧
    (Block.build? b.chunk none [] = .ok b ∧
      Text.lines (b.chunk.listing.dump none).toList =
        ["   0  LOAD_CONST 385".toList, "   3  RETURN".toList] ∧
      ∃ fields, b.view = .object fields ∧ fields.lookup "instructions" = some (.array
        [.object [("offset", .int 0), ("opcode", .str "LOAD_CONST"), ("arg", .int 385),
          ("line", .int 7)],
         .object [("offset", .int 3), ("opcode", .str "RETURN")]])) ∧
    ((Block.load Host.silent Wire.Record.empty.encode).run ()).1 = .ok { chunk := {} } ∧
      items { code := [] } = [] := by
  intro code b
  obtain ⟨hstream, hbuilt, hloaded⟩ := items_tile
  have hdepth : stackDepth code = .error (.instruction (.truncatedOperand 5)) := by cbv
  have hlisted : (Listing.ofBytes code).instructions =
      [⟨0, .loadConst, some 0x181⟩, ⟨3, .ret, none⟩] := by cbv
  obtain ⟨hitems, -, -, -, -, hfault⟩ := hstream code
  have hbuild : Block.build? b.chunk none [] = .ok b := by
    have hchecked : stackDepth b.chunk.code = .ok 1 := by cbv
    rw [Block.build?, hchecked]
  have hfull := hbuilt b.chunk none [] b hbuild
  have hinstructions : b.chunk.listing.instructions =
      [⟨0, .loadConst, some 385⟩, ⟨3, .ret, none⟩] := by cbv
  refine ⟨⟨hdepth, ?_⟩, ⟨hbuild, ?_, ?_⟩, Wire.load_encode_empty, ?_⟩
  · rw [hitems, hlisted, hfault _ hdepth]
    rfl
  · rw [hfull.dump, hinstructions]
    cbv
  · obtain ⟨fields, entries, hview, hlookup, hentries⟩ := hfull.view
    rw [hfull.items, hinstructions] at hentries
    refine ⟨fields, hview, hlookup.trans ?_⟩
    obtain _ | ⟨⟨_, ⟨⟩, rfl⟩, _ | ⟨⟨_, ⟨⟩, rfl⟩, ⟨⟩⟩⟩ := hentries
    rfl
  · have hnone : (Chunk.listing (κ := Value) {}).instructions = [] := by cbv
    have hlisted := hloaded _ _ _ _ _ Wire.load_encode_empty _ (Block.mem_blocks_self _)
    rw [hlisted.items, hnone]
    rfl

end Bytecode
