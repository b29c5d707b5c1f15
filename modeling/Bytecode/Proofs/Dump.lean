-- SUMMARY: Dumps: one line for every item of a stream, and the one line that a marker changes.
import Bytecode.Proofs.Disassembler

/-!
# Dumps

A dump is written item by item, and a line feed in front of every item but the first. It has one line
for every item, because no line has a line feed of its own. A marker changes the line of the
instruction that starts there and no other, so that a marker anywhere else changes nothing.
-/

namespace Bytecode

-- ---------------------------------------------------------------------------
-- Unbroken texts
-- ---------------------------------------------------------------------------

namespace Text

/-- No line feed is in the text. -/
def Unbroken (s : String) : Prop := '\n' ∉ s.toList

theorem unbroken_append_iff {s s' : String} : Unbroken (s ++ s') ↔ Unbroken s ∧ Unbroken s' := by
  simp [Unbroken]

theorem newline_not_mem_toDigits {base : Nat} (hlow : 1 < base) (hhigh : base ≤ 16) (n : Nat) :
    '\n' ∉ Nat.toDigits base n := by
  have hdigit : ∀ d < 16, '\n' ≠ d.digitChar := by decide
  induction n using Nat.strongRecOn with
  | ind n ih =>
    rw [Nat.toDigits_eq_if hlow]
    split
    · simp
    · have hrest := ih (n / base) (Nat.div_lt_self (by omega) hlow)
      have hlast := hdigit (n % base) ((Nat.mod_lt n (by omega)).trans_le hhigh)
      simp [hrest, hlast]

theorem unbroken_toString_nat (n : Nat) : Unbroken (toString n) := by
  rw [Unbroken, Assembly.Literal.toList_toString_nat]
  exact newline_not_mem_toDigits (by decide) (by decide) n

theorem unbroken_hexPadded (width n : Nat) : Unbroken (hexPadded width n) := by
  simp [Unbroken, hexPadded, newline_not_mem_toDigits]

end Text

open Text

theorem InstructionError.unbroken_message (e : InstructionError) : Unbroken e.message := by
  have hnat (n : Nat) : '\n' ∉ Nat.toDigits 10 n := newline_not_mem_toDigits (by decide) (by decide) n
  cases e with
  | operandTooLong offset =>
    change Unbroken ("operand at offset " ++ toString offset ++ " does not terminate within 5 bytes")
    simp [Unbroken, hnat]
  | truncatedOperand offset =>
    change Unbroken ("operand at offset " ++ toString offset ++ " runs past the end of the code")
    simp [Unbroken, hnat]
  | unknownOpcode offset byte =>
    change Unbroken ("unknown opcode 0x" ++ hexPadded 2 byte.toNat ++ " at offset " ++ toString offset)
    have hhex := unbroken_hexPadded 2 byte.toNat
    simp only [Unbroken] at hhex
    simp [Unbroken, hnat, hhex]
  | operandTooLarge value =>
    change Unbroken ("operand " ++ toString value ++ " does not fit the 5-byte encoding")
    simp [Unbroken, hnat]

namespace Listing

-- ---------------------------------------------------------------------------
-- Lines
-- ---------------------------------------------------------------------------

theorem oneLine_faultLine (e : InstructionError) : OneLine (faultLine e).toList := by
  have hmessage : '\n' ∉ e.message.toList := e.unbroken_message
  have htext : (faultLine e).toList = ("<malformed: " ++ e.message).toList ++ ['>'] :=
    String.toList_append
  rw [htext]
  refine ⟨List.append_ne_nil_of_right_ne_nil _ (List.cons_ne_nil _ _), by simp [hmessage], ?_⟩
  rw [List.getLast?_concat]
  decide

theorem oneLine_line_marked (marker : Option Nat) (i : Instruction) :
    OneLine (line marker i).toList := by
  by_cases h : marker = some i.offset
  · have htext := (Assembly.uncut_text i).plain
    have hline : (line marker i).toList = arrow.toList ++ i.text.toList := by simp [line, h]
    rw [hline]
    refine ⟨by simp [arrow], ?_, ?_⟩
    · simp [arrow, htext.no_newline]
    · rw [List.getLast?_append_of_ne_nil _ htext.ne_nil]
      exact htext.oneLine.no_return
  · have hline : line marker i = line none i := by simp [line, h]
    rw [hline]
    exact oneLine_line i

/-- A dump has the lines that it is made of, and no other. -/
theorem lines_dump_marked (marker : Option Nat) (l : Listing) :
    Text.lines (l.dump marker).toList = (l.lines marker).map String.toList := by
  refine Text.lines_toList_intercalate fun s hs => ?_
  simp only [lines, List.mem_append, List.mem_map, Option.mem_toList, Option.map_eq_some_iff] at hs
  obtain ⟨i, -, rfl⟩ | ⟨e, -, rfl⟩ := hs
  · exact oneLine_line_marked marker i
  · exact oneLine_faultLine e

/-- The line of an item. -/
def itemLine (marker : Option Nat) : Except InstructionError Instruction → String
  | .ok i => line marker i
  | .error e => faultLine e

theorem map_itemLine_items (marker : Option Nat) (l : Listing) :
    l.items.map (itemLine marker) = l.lines marker := by
  cases hfault : l.fault <;> simp [items, lines, hfault, itemLine]

end Listing

open Listing

-- ---------------------------------------------------------------------------
-- Writing dumps
-- ---------------------------------------------------------------------------

namespace Disassembler

theorem writeItem_eq (marker : Option Nat) (out : String) (item : Except InstructionError Instruction) :
    writeItem marker out item = out ++ itemLine marker item := by
  cases item with
  | ok i =>
    simp only [writeItem, itemLine, line]
    split <;> rw [String.append_assoc]
  | error e =>
    have htext : faultLine e = "<malformed: " ++ e.message ++ ">" := rfl
    simp only [writeItem, itemLine, htext, String.append_assoc]

/-- Every item behind the first is put on a line of its own. -/
theorem dumpOnto_eq_join (marker : Option Nat) (out : String) (written : Nat) (d : Disassembler) :
    dumpOnto marker out (written + 1) d =
      out ++ String.join (d.items.map fun item => "\n" ++ itemLine marker item) := by
  induction d using items.induct generalizing out written with
  | case1 d hnext =>
    rw [dumpOnto, items, hnext]
    simp
  | case2 d item rest hnext ih =>
    rw [dumpOnto, items, hnext]
    simp only [Nat.zero_lt_succ, if_true, writeItem_eq, ih, List.map_cons, String.join_cons,
      String.push_eq_append, String.append_assoc]
    rfl

theorem intercalate_cons_eq_join (line : String) (rest : List String) :
    "\n".intercalate (line :: rest) = line ++ String.join (rest.map ("\n" ++ ·)) := by
  induction rest generalizing line with
  | nil => simp
  | cons next more ih =>
    rw [String.intercalate_cons_cons, ih, List.map_cons, String.join_cons, String.append_assoc,
      String.append_assoc]

theorem dump_eq_intercalate (marker : Option Nat) (code : List UInt8) :
    dump marker code = "\n".intercalate ((items { code }).map (itemLine marker)) := by
  rw [dump, dumpOnto, items]
  cases hnext : next? { code } with
  | none => simp
  | some first =>
    obtain ⟨item, rest⟩ := first
    simp only [Nat.lt_irrefl, if_false, writeItem_eq, String.empty_append, dumpOnto_eq_join,
      List.map_cons, intercalate_cons_eq_join, List.map_map]
    rfl

/-- The dump that is written while a stream is walked over is that of its listing. -/
theorem dump_eq (marker : Option Nat) (code : List UInt8) :
    dump marker code = (Listing.ofBytes code).dump marker := by
  rw [dump_eq_intercalate, items_mk, map_itemLine_items, Listing.dump]

end Disassembler

-- ---------------------------------------------------------------------------
-- Markers
-- ---------------------------------------------------------------------------

/-- A position behind the first byte of an instruction, and in front of the next one or of the stop. -/
def Inside (is : List Instruction) (stop m : Nat) : Prop :=
  ∃ front i back, is = front ++ i :: back ∧ i.offset < m ∧
    m < (back.head?.map Instruction.offset).getD stop

section Tiles

variable {code : List UInt8} {start stop : Nat} {is : List Instruction}

theorem Instruction.Spans.pos {i : Instruction} {width : Nat} (h : i.Spans width) : 0 < width := by
  unfold Spans at h
  split at h <;> omega

theorem Tiles.le (h : Tiles code start is stop) : start ≤ stop := by
  induction h with
  | nil => exact Nat.le_refl _
  | cons hbyte hwidth hrest ih => omega

theorem Tiles.offset_bounds (h : Tiles code start is stop) :
    ∀ i ∈ is, start ≤ i.offset ∧ i.offset < stop := by
  induction h with
  | nil => simp
  | @cons i is width stop hbyte hwidth hrest ih =>
    have hpos := hwidth.pos
    have hle := hrest.le
    refine List.forall_mem_cons.mpr ⟨⟨le_rfl, by omega⟩, fun j hj => ?_⟩
    obtain ⟨hlow, hhigh⟩ := ih j hj
    exact ⟨by omega, hhigh⟩

theorem Tiles.of_append {front back : List Instruction} (h : Tiles code start (front ++ back) stop) :
    ∃ middle, Tiles code start front middle ∧ Tiles code middle back stop := by
  induction front generalizing start with
  | nil => exact ⟨start, .nil start, h⟩
  | cons i front ih =>
    cases h with
    | cons hbyte hwidth hrest =>
      obtain ⟨middle, hfront, hback⟩ := ih hrest
      exact ⟨middle, .cons hbyte hwidth hfront, hback⟩

theorem Tiles.head_offset (h : Tiles code start is stop) :
    (is.head?.map Instruction.offset).getD stop = start := by
  cases h <;> rfl

/-- Instructions in front of another start in front of it, and those behind it start behind it. -/
theorem Tiles.offset_ne {front back : List Instruction} {i : Instruction}
    (h : Tiles code start (front ++ i :: back) stop) :
    (∀ j ∈ front, j.offset < i.offset) ∧
      ∀ j ∈ back, (back.head?.map Instruction.offset).getD stop ≤ j.offset ∧ i.offset < j.offset := by
  obtain ⟨middle, hfront, hback⟩ := h.of_append
  cases hback with
  | @cons _ _ width _ hbyte hwidth hrest =>
    have hpos := hwidth.pos
    refine ⟨fun j hj => (hfront.offset_bounds j hj).2, fun j hj => ?_⟩
    have hlow := (hrest.offset_bounds j hj).1
    rw [hrest.head_offset]
    exact ⟨hlow, by omega⟩

/-- An instruction starts at a position up to the stop unless the position is inside of one. -/
theorem Tiles.forall_offset_ne_iff (h : Tiles code start is stop) {m : Nat} (hm : start ≤ m) :
    (∀ i ∈ is, i.offset ≠ m) ↔ Inside is stop m ∨ stop ≤ m := by
  constructor
  · intro hnone
    induction h with
    | nil stop => exact .inr hm
    | @cons i is width stop hbyte hwidth hrest ih =>
      obtain ⟨hi, his⟩ := List.forall_mem_cons.mp hnone
      by_cases hnext : m < i.offset + width
      · exact .inl ⟨[], i, is, rfl, by omega, by rwa [hrest.head_offset]⟩
      · refine (ih (by omega) his).imp_left ?_
        rintro ⟨front, j, back, rfl, hinside⟩
        exact ⟨i :: front, j, back, rfl, hinside⟩
  · rintro (⟨front, i, back, rfl, hlow, hhigh⟩ | hstop)
    · obtain ⟨hfront, hback⟩ := h.offset_ne
      simp only [List.forall_mem_append, List.forall_mem_cons]
      refine ⟨fun j hj => ?_, by omega, fun j hj => ?_⟩
      · have := hfront j hj
        omega
      · have := (hback j hj).1
        omega
    · intro i hi
      have := (h.offset_bounds i hi).2
      omega

end Tiles

-- ---------------------------------------------------------------------------
-- Marked dumps
-- ---------------------------------------------------------------------------

namespace Listing

variable {l : Listing} {m : Nat}

/-- An offset is aligned to the right in four characters, or stands there in full if it is wider. -/
theorem exists_line_none_eq (i : Instruction) : ∃ fill,
    line none i = String.ofList (List.replicate fill ' ') ++ toString i.offset ++ "  " ++ i.text ∧
      fill + (toString i.offset).length = max 4 (toString i.offset).length := by
  refine ⟨4 - (toString i.offset).length, ?_, by omega⟩
  simp only [line, gutter, reduceCtorEq, if_false]

theorem line_marked_of_ne {i : Instruction} (h : i.offset ≠ m) : line (some m) i = line none i := by
  simp [line, Ne.symm h]

theorem map_line_marked {is : List Instruction} (h : ∀ i ∈ is, i.offset ≠ m) :
    is.map (line (some m)) = is.map (line none) :=
  List.map_congr_left fun i hi => line_marked_of_ne (h i hi)

theorem lines_eq (marker : Option Nat) (l : Listing) :
    l.lines marker = l.instructions.map (line marker) ++ l.fault.toList.map faultLine := by
  cases hfault : l.fault <;> simp [lines, hfault]

theorem dump_marked_of_ne (h : ∀ i ∈ l.instructions, i.offset ≠ m) : l.dump (some m) = l.dump none := by
  rw [dump, dump, lines_eq, lines_eq, map_line_marked h]

/-- The instruction at the marker is the only one with an arrow. -/
theorem dump_marked_of_tiles {code : List UInt8} {start stop : Nat}
    (h : Tiles code start l.instructions stop) {front back : List Instruction} {i : Instruction}
    (hsplit : l.instructions = front ++ i :: back) :
    l.dump (some i.offset) = "\n".intercalate (front.map (line none) ++
      (" ===> " ++ i.text) :: back.map (line none) ++ l.fault.toList.map faultLine) := by
  rw [hsplit] at h
  obtain ⟨hfront, hback⟩ := h.offset_ne
  have hmarked : line (some i.offset) i = " ===> " ++ i.text := by simp [line, arrow]
  rw [dump, lines_eq, hsplit, List.map_append, List.map_cons, hmarked,
    map_line_marked fun j hj => (hfront j hj).ne, map_line_marked fun j hj => (hback j hj).2.ne']

end Listing

/--
The dump of a stream, as it is written item by item, has one line for every item that the disassembler
hands out, with line feeds between them only; a fault is on the last. A marker at the start of an
instruction puts an arrow in place of its offset. A marker inside an instruction, at the bytes that
could not be decoded, or behind the stream changes nothing, and no other is left.
-/
theorem Disassembler.dump_marked (code : List UInt8) :
    let l := Listing.ofBytes code
    items { code } = l.instructions.map .ok ++ l.fault.toList.map .error ∧
    (∀ marker, dump marker code = l.dump marker) ∧
    dump none code =
      "\n".intercalate (l.instructions.map (line none) ++ l.fault.toList.map faultLine) ∧
    Text.lines (dump none code).toList =
      (l.instructions.map (line none) ++ l.fault.toList.map faultLine).map String.toList ∧
    (∀ i ∈ l.instructions, ∃ fill,
      line none i = String.ofList (List.replicate fill ' ') ++ toString i.offset ++ "  " ++ i.text ∧
        fill + (toString i.offset).length = max 4 (toString i.offset).length) ∧
    (∀ front i back, l.instructions = front ++ i :: back →
      dump (some i.offset) code = "\n".intercalate (front.map (line none) ++
        (" ===> " ++ i.text) :: back.map (line none) ++ l.fault.toList.map faultLine)) ∧
    ∃ stop, Tiles code 0 l.instructions stop ∧ (l.fault = none → stop = code.length) ∧
      (∀ e ∈ l.fault, e.EndsAt code stop) ∧
      ∀ m, ((∀ i ∈ l.instructions, i.offset ≠ m) ↔ Inside l.instructions stop m ∨ stop ≤ m) ∧
        (Inside l.instructions stop m ∨ stop ≤ m → dump (some m) code = dump none code) := by
  intro l
  obtain ⟨stop, htiles, hcovered, hends⟩ :=
    Listing.covers_ofBytesAt (Nat.zero_le _) (List.drop_zero (l := code))
  simp only [dump_eq]
  refine ⟨items_mk code, fun _ => rfl, ?_, ?_, fun i _ => exists_line_none_eq i,
    fun front i back hsplit => dump_marked_of_tiles htiles hsplit, stop, htiles, hcovered, hends,
    fun m => ?_⟩
  · rw [Listing.dump, lines_eq]
  · rw [lines_dump_marked, lines_eq]
  · have hne := htiles.forall_offset_ne_iff (Nat.zero_le m)
    exact ⟨hne, fun hm => dump_marked_of_ne (hne.mpr hm)⟩

theorem Disassembler.dump_marked_truncated :
    let code : List UInt8 := [0x05, 0x40, 0x81, 0x02, 0x40, 0x80]
    let fault := "<malformed: operand at offset 5 runs past the end of the code>"
    dump none code = "   0  LOAD_NULL\n   1  LOAD_CONST 385\n" ++ fault ∧
    dump (some 1) code = "   0  LOAD_NULL\n ===> LOAD_CONST 385\n" ++ fault ∧
    dump (some 2) code = dump none code ∧ dump (some 4) code = dump none code := by
  intro code fault
  have hlisted : (Listing.ofBytes code).instructions =
      [⟨0, .loadNull, none⟩, ⟨1, .loadConst, some 385⟩] := by cbv
  have hfault : (Listing.ofBytes code).fault = some (.truncatedOperand 5) := by cbv
  have hfaultLine : faultLine (.truncatedOperand 5) = fault := by
    have htext : faultLine (.truncatedOperand 5) = "<malformed: " ++
      ("operand at offset " ++ toString 5 ++ " runs past the end of the code") ++ ">" := rfl
    rw [htext]
    cbv
  have hfirst : line none ⟨0, .loadNull, none⟩ = "   0  LOAD_NULL" := by cbv
  have hsecond : line none ⟨1, .loadConst, some 385⟩ = "   1  LOAD_CONST 385" := by cbv
  have htext : (⟨1, .loadConst, some 385⟩ : Instruction).text = "LOAD_CONST 385" := by cbv
  obtain ⟨-, -, hdump, -, -, hmarked, stop, -, -, hends, hmarker⟩ := dump_marked code
  have hstop : stop = 4 := by
    have hend := hends _ hfault
    cases hend
    rfl
  have hinside : Inside (Listing.ofBytes code).instructions stop 2 := by
    rw [hlisted]
    exact ⟨[⟨0, .loadNull, none⟩], ⟨1, .loadConst, some 385⟩, [], rfl, by decide, by simp [hstop]⟩
  refine ⟨?_, ?_, (hmarker 2).2 (.inl hinside), (hmarker 4).2 (.inr hstop.le)⟩
  · rw [hdump, hlisted, hfault]
    simp only [List.map_cons, List.map_nil, Option.toList_some, hfirst, hsecond, hfaultLine]
    cbv
  · rw [hmarked [⟨0, .loadNull, none⟩] ⟨1, .loadConst, some 385⟩ [] hlisted, hfault]
    simp only [List.map_cons, List.map_nil, Option.toList_some, hfirst, htext, hfaultLine]
    cbv

end Bytecode
