-- SUMMARY: Listings of streams that are put together: what stands behind is listed as on its own, further on.
import Bytecode.Proofs.SameSteps

/-!
# Streams put together

A stream without a fault can be followed by any other: decoding it does not depend on what comes behind
it, and what comes behind it is listed as it is on its own, with its offsets counted from further on. In
the other direction, a stream can be cut in front of every instruction, and at its end.
-/

namespace Bytecode

-- ---------------------------------------------------------------------------
-- Offsets further on
-- ---------------------------------------------------------------------------

/-- The same instruction, `k` bytes further on. -/
def Instruction.shift (k : Nat) (i : Instruction) : Instruction := { i with offset := i.offset + k }

/-- The same fault, `k` bytes further on; a fault without a place stays as it is. -/
def InstructionError.shift (k : Nat) : InstructionError → InstructionError
  | .operandTooLong offset => .operandTooLong (offset + k)
  | .truncatedOperand offset => .truncatedOperand (offset + k)
  | .unknownOpcode offset byte => .unknownOpcode (offset + k) byte
  | .operandTooLarge value => .operandTooLarge value

namespace Listing

/-- The same listing, `k` bytes further on. -/
def shift (k : Nat) (l : Listing) : Listing where
  instructions := l.instructions.map (.shift k)
  fault := l.fault.map (.shift k)

/-- One listing behind the instructions of another. -/
def behind (is : List Instruction) (l : Listing) : Listing :=
  { l with instructions := is ++ l.instructions }

end Listing

theorem InstructionError.ofOperand_shift (offset k : Nat) (fault : Operand.Fault) :
    ofOperand (offset + k) fault = (ofOperand offset fault).shift k := by
  cases fault <;> rfl

theorem Instruction.decode_shift (offset k : Nat) (b : UInt8) (bs : List UInt8) :
    decode (offset + k) b bs =
      match decode offset b bs with
      | .ok (i, width) => .ok (i.shift k, width)
      | .error e => .error (e.shift k) := by
  unfold decode
  cases Opcode.ofByte? b with
  | none => rfl
  | some op =>
    cases htakes : op.takesOperand with
    | false => simp [htakes, shift]
    | true =>
      cases hread : Operand.read bs with
      | ok reading => simp [htakes, shift]
      | error fault =>
        simp [htakes, Nat.add_right_comm offset k 1, InstructionError.ofOperand_shift (offset + 1) k]

/-- The offset at which a stream starts counts in the offsets of its listing only. -/
theorem Listing.ofBytesAt_shift (offset k : Nat) (bytes : List UInt8) :
    ofBytesAt (offset + k) bytes = (ofBytesAt offset bytes).shift k := by
  induction offset, bytes using ofBytesAt.induct with
  | case1 offset => simp [ofBytesAt, shift]
  | case2 offset b bs i width hdecode ih =>
    have hnext : offset + k + 1 + width = offset + 1 + width + k := by omega
    rw [ofBytesAt, Instruction.decode_shift, hdecode]
    simp only [hnext, ih]
    rw [ofBytesAt, hdecode]
    simp [shift]
  | case3 offset b bs e hdecode =>
    rw [ofBytesAt, Instruction.decode_shift, hdecode, ofBytesAt, hdecode]
    simp [shift]

-- ---------------------------------------------------------------------------
-- One stream behind another
-- ---------------------------------------------------------------------------

/-- An operand is read wherever its bytes stand in front. -/
theorem Operand.read_of_isPrefix {bytes bytes' : List UInt8} {r : Reading} (h : read bytes = .ok r)
    (hstart : bytes.take r.width <+: bytes') : read bytes' = .ok r := by
  obtain ⟨extra, hextra, hwidth, hvalue, hspelling⟩ := read_eq_ok_iff.mp h
  have htake : spellIn extra r.value = bytes.take r.width := by
    rw [hwidth, ← length_spellIn extra r.value]
    exact List.prefix_iff_eq_take.mp hspelling
  rw [← htake] at hstart
  exact read_eq_ok_iff.mpr ⟨extra, hextra, hwidth, hvalue, hstart⟩

/-- An instruction is decoded wherever its bytes stand in front. -/
theorem Instruction.decode_of_isPrefix {offset width : Nat} {b : UInt8} {bs bs' : List UInt8}
    {i : Instruction} (h : decode offset b bs = .ok (i, width)) (hstart : bs.take width <+: bs') :
    decode offset b bs' = .ok (i, width) := by
  unfold decode at h ⊢
  split at h
  · cases h
  · split at h
    · rename_i htakes
      split at h
      · rename_i reading hread
        cases h
        simp only [htakes, if_true, Operand.read_of_isPrefix hread hstart]
      · cases h
    · rename_i htakes
      rw [if_neg htakes]
      exact h

namespace Listing

/-- Whatever comes behind a stream without a fault is listed behind it. -/
theorem ofBytesAt_append {offset : Nat} {bytes : List UInt8} (h : (ofBytesAt offset bytes).fault = none)
    (suffix : List UInt8) :
    ofBytesAt offset (bytes ++ suffix) =
      behind (ofBytesAt offset bytes).instructions (ofBytesAt (offset + bytes.length) suffix) := by
  induction offset, bytes using ofBytesAt.induct with
  | case1 offset => simp [ofBytesAt, behind]
  | case2 offset b bs i width hdecode ih =>
    have hwidth := Instruction.width_le_of_decode hdecode
    have hlength : offset + 1 + width + (bs.drop width).length = offset + (b :: bs).length := by
      rw [List.length_drop, List.length_cons]
      omega
    rw [ofBytesAt, hdecode] at h
    have hstart : bs.take width <+: bs ++ suffix :=
      (List.take_prefix width bs).trans (List.prefix_append bs suffix)
    rw [List.cons_append, ofBytesAt, Instruction.decode_of_isPrefix hdecode hstart, ofBytesAt, hdecode]
    simp only [List.drop_append_of_le_length hwidth, ih h, hlength]
    rfl
  | case3 offset b bs e hdecode =>
    rw [ofBytesAt, hdecode] at h
    cases h

theorem ofBytes_append {code : List UInt8} (h : (ofBytes code).fault = none) (suffix : List UInt8) :
    ofBytes (code ++ suffix) =
      behind (ofBytes code).instructions ((ofBytes suffix).shift code.length) := by
  rw [ofBytes, ofBytesAt_append h, ofBytesAt_shift]
  rfl

-- ---------------------------------------------------------------------------
-- Cutting a stream
-- ---------------------------------------------------------------------------

/-- Where instruction number `n` of a stream starts; behind the last instruction, the end of the stream. -/
def boundary (code : List UInt8) (n : Nat) : Nat :=
  match (ofBytes code).instructions[n]? with
  | some i => i.offset
  | none => code.length

/-- The two parts of a stream that is cut in front of instruction number `n`, each with its listing. -/
structure Cut (offset : Nat) (bytes : List UInt8) (n : Nat) (front back : List UInt8) : Prop where
  whole : bytes = front ++ back
  before : ofBytesAt offset front = { instructions := (ofBytesAt offset bytes).instructions.take n }
  behind : ofBytesAt (offset + front.length) back =
    { instructions := (ofBytesAt offset bytes).instructions.drop n }

/-- A stream without a fault can be cut in front of every instruction, and at its end. -/
theorem exists_cut {offset : Nat} {bytes : List UInt8} (h : (ofBytesAt offset bytes).fault = none)
    {n : Nat} (hn : n ≤ (ofBytesAt offset bytes).instructions.length) :
    ∃ front back, Cut offset bytes n front back := by
  have hstart : ∀ offset bytes, (ofBytesAt offset bytes).fault = none → Cut offset bytes 0 [] bytes := by
    intro offset bytes h
    refine ⟨rfl, by simp [ofBytesAt], ?_⟩
    rw [List.drop_zero, ← h]
    rfl
  induction offset, bytes using ofBytesAt.induct generalizing n with
  | case1 offset =>
    have hzero : n = 0 := by simpa [ofBytesAt] using hn
    subst hzero
    exact ⟨[], [], hstart offset [] h⟩
  | case2 offset b bs i width hdecode ih =>
    cases n with
    | zero => exact ⟨[], b :: bs, hstart offset (b :: bs) h⟩
    | succ n =>
      have hlist : ofBytesAt offset (b :: bs) =
          { ofBytesAt (offset + 1 + width) (bs.drop width) with
            instructions := i :: (ofBytesAt (offset + 1 + width) (bs.drop width)).instructions } := by
        rw [ofBytesAt, hdecode]
      rw [hlist] at h hn
      obtain ⟨front, back, hwhole, hbefore, hbehind⟩ := ih h (Nat.le_of_succ_le_succ hn)
      have hfront : ofBytesAt offset (b :: (bs.take width ++ front)) =
          { ofBytesAt (offset + 1 + width) front with
            instructions := i :: (ofBytesAt (offset + 1 + width) front).instructions } := by
        have hlength : (bs.take width).length = width :=
          List.length_take_of_le (Instruction.width_le_of_decode hdecode)
        rw [ofBytesAt, Instruction.decode_of_isPrefix hdecode (List.prefix_append _ _)]
        simp only [List.drop_left' hlength]
      refine ⟨b :: (bs.take width ++ front), back, ?_, ?_, ?_⟩
      · rw [List.cons_append, List.append_assoc, ← hwhole, List.take_append_drop]
      · rw [hfront, hbefore, hlist, List.take_succ_cons]
      · have hlength : offset + (b :: (bs.take width ++ front)).length =
            offset + 1 + width + front.length := by
          rw [List.length_cons, List.length_append,
            List.length_take_of_le (Instruction.width_le_of_decode hdecode)]
          omega
        rw [hlength, hbehind, hlist, List.drop_succ_cons]
  | case3 offset b bs e hdecode =>
    rw [ofBytesAt, hdecode] at h
    cases h

/-- The listing of a stream with an instruction put into it. -/
theorem Cut.ofBytes_insert {code front back bytes : List UInt8} {n : Nat} {s : Step}
    (h : Cut 0 code n front back) (hs : s.WellFormed) (hencode : s.encode = .ok bytes) :
    ofBytes (front ++ bytes ++ back) =
      { instructions := (ofBytes code).instructions.take n ++ s.instruction front.length ::
          ((ofBytes code).instructions.drop n).map (.shift bytes.length) } := by
  have hfault : (ofBytesAt 0 front).fault = none := by rw [h.before]
  have hback := h.behind
  rw [Nat.zero_add] at hback
  rw [List.append_assoc, ofBytes, ofBytesAt_append hfault, h.before, Nat.zero_add,
    ofBytesAt_encode_append hs hencode, ofBytesAt_shift, hback]
  rfl

/-- The first instruction stands where the stream starts. -/
theorem offset_of_ofBytesAt_head {offset : Nat} {bytes : List UInt8} {i : Instruction}
    (h : (ofBytesAt offset bytes).instructions[0]? = some i) : i.offset = offset := by
  cases bytes with
  | nil => simp [ofBytesAt] at h
  | cons b bs =>
    rw [ofBytesAt] at h
    cases hdecode : Instruction.decode offset b bs with
    | error e => simp [hdecode] at h
    | ok decoded =>
      obtain ⟨j, width⟩ := decoded
      simp only [hdecode, List.getElem?_cons_zero, Option.some.injEq] at h
      rw [← h]
      exact (Instruction.decode_cases hdecode).1

theorem eq_nil_of_ofBytesAt_eq {offset : Nat} {bytes : List UInt8} (h : ofBytesAt offset bytes = {}) :
    bytes = [] := by
  cases bytes with
  | nil => rfl
  | cons b bs =>
    rw [ofBytesAt] at h
    split at h <;> simp at h

/-- A stream is cut where the instruction starts. -/
theorem Cut.length_front {code front back : List UInt8} {n : Nat} (h : Cut 0 code n front back) :
    front.length = boundary code n := by
  have hback := h.behind
  rw [Nat.zero_add] at hback
  have hfirst : (ofBytesAt front.length back).instructions[0]? = (ofBytes code).instructions[n]? := by
    rw [hback, List.getElem?_drop, Nat.add_zero, ofBytes]
  unfold boundary
  split
  · rename_i i hi
    rw [← hfirst] at hi
    exact (offset_of_ofBytesAt_head hi).symm
  · rename_i hnone
    have hdrop : (ofBytesAt 0 code).instructions.drop n = [] :=
      List.drop_eq_nil_iff.mpr (List.getElem?_eq_none_iff.mp hnone)
    rw [hdrop] at hback
    rw [h.whole, eq_nil_of_ofBytesAt_eq hback, List.append_nil]

end Listing

end Bytecode
