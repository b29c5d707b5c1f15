-- SUMMARY: Streams whose instructions are the same steps: one stack depth, and bytes that differ in redundant operands only.
import Bytecode.Proofs.CodeWriter
import Bytecode.Proofs.Stack.Verdict

/-!
# Streams of the same steps

A listing tells the steps of a stream, but not its bytes: an operand may be spelled in more bytes than
it takes. Writing the steps of a stream again gives a stream with the same steps and the same stack
depth. Its bytes are the same too if and only if no operand of several bytes ends in the byte one.
-/

namespace Bytecode

-- ---------------------------------------------------------------------------
-- Decoded instructions
-- ---------------------------------------------------------------------------

theorem Opcode.byte_of_ofByte? {b : UInt8} {op : Opcode} (h : ofByte? b = some op) : op.byte = b := by
  simpa using List.find?_some h

namespace Instruction

/-- The bytes that spell the operand of an instruction of a stream; none if it has no operand. -/
def spelling (code : List UInt8) (i : Instruction) : List UInt8 :=
  match i.operand, Operand.readAt code (i.offset + 1) with
  | some _, .ok (_, next) => code.extract (i.offset + 1) next
  | _, _ => []

variable {offset width : Nat} {b : UInt8} {bs front : List UInt8} {i : Instruction}

/-- What is decoded: an opcode alone, or with the operand that is read behind it. -/
theorem decode_cases (h : decode offset b bs = .ok (i, width)) :
    i.offset = offset ∧ i.opcode.byte = b ∧ i.step.WellFormed ∧
      ((i.operand = none ∧ width = 0) ∨
        ∃ value, i.operand = some value ∧ Operand.read bs = .ok ⟨value, width⟩) := by
  unfold decode at h
  split at h
  · cases h
  · rename_i op hop
    have hbyte := Opcode.byte_of_ofByte? hop
    split at h
    · rename_i htakes
      split at h
      · rename_i reading hread
        cases h
        exact ⟨rfl, hbyte, htakes.symm, .inr ⟨reading.value, rfl, hread⟩⟩
      · cases h
    · rename_i htakes
      cases h
      exact ⟨rfl, hbyte, (Bool.eq_false_of_not_eq_true htakes).symm, .inl ⟨rfl, rfl⟩⟩

theorem fits_step_of_decode (h : decode offset b bs = .ok (i, width)) : i.step.Fits := by
  intro operand hoperand
  have hlt := argument_lt_of_decode h
  rwa [argument, show i.operand = some operand from hoperand] at hlt

theorem width_le_of_decode (h : decode offset b bs = .ok (i, width)) : width ≤ bs.length := by
  obtain ⟨-, -, -, ⟨-, rfl⟩ | ⟨value, -, hread⟩⟩ := decode_cases h
  · exact Nat.zero_le _
  · obtain ⟨extra, -, hwidth, -, hstart⟩ := Operand.read_eq_ok_iff.mp hread
    have hle := hstart.length_le
    rw [Operand.length_spellIn] at hle
    exact hwidth.trans_le hle

theorem spelling_of_decode (h : decode front.length b bs = .ok (i, width)) :
    i.spelling (front ++ b :: bs) = bs.take width := by
  obtain ⟨hoffset, -, -, ⟨hnone, rfl⟩ | ⟨value, hsome, hread⟩⟩ := decode_cases h
  · simp [spelling, hnone]
  · have hdrop : (front ++ b :: bs).drop (front.length + 1) = bs := by simp
    have hreadAt : Operand.readAt (front ++ b :: bs) (front.length + 1) =
        .ok (value, front.length + 1 + width) := by
      simp [Operand.readAt, hdrop, hread]
    simp only [spelling, hsome, hoffset, hreadAt]
    rw [List.extract_eq_take_drop, hdrop, Nat.add_sub_cancel_left]

end Instruction

-- ---------------------------------------------------------------------------
-- The bytes of a step
-- ---------------------------------------------------------------------------

/-- The bytes that the step is written as; none if its operand is too large. -/
def Step.bytes (s : Step) : List UInt8 := s.encode.toOption.getD []

theorem Step.encode_eq {s : Step} (h : s.Fits) : s.encode = .ok s.bytes := by
  unfold Step.bytes
  cases hencode : s.encode with
  | ok bytes => rfl
  | error e =>
    obtain ⟨operand, hoperand, hle, -⟩ := encode_eq_error_iff.mp hencode
    exact absurd (h operand hoperand) (Nat.not_lt.mpr hle)

theorem Step.bytes_of_operand_eq_none {s : Step} (h : s.operand = none) :
    s.bytes = [s.opcode.byte] := by
  simp [bytes, encode, h, Except.toOption]

section Decoded

variable {offset width : Nat} {b : UInt8} {bs : List UInt8} {i : Instruction}

/-- Whatever is written behind the step that was decoded, the bytes of both can be told apart. -/
theorem Instruction.bytes_append_eq_iff (h : decode offset b bs = .ok (i, width))
    (written : List UInt8) :
    i.step.bytes ++ written = b :: bs ↔
      i.step.bytes = b :: bs.take width ∧ written = bs.drop width := by
  obtain ⟨rfl, rfl, hwf, -⟩ := decode_cases h
  obtain ⟨spelling, hbytes, hdecode⟩ :=
    Step.decode_encode hwf (Step.encode_eq (fits_step_of_decode h)) i.offset
  rw [hbytes]
  constructor
  · intro heq
    obtain ⟨-, rfl⟩ := List.cons_eq_cons.mp heq
    -- Both read the same operand, so it takes as many bytes in one as in the other.
    obtain ⟨-, rfl⟩ := Prod.mk.inj (Except.ok.inj (h.symm.trans (hdecode written)))
    rw [List.append_eq, List.take_left, List.drop_left]
    exact ⟨rfl, rfl⟩
  · rintro ⟨hspelling, rfl⟩
    rw [hspelling, List.cons_append, List.take_append_drop]

/-- An operand that was decoded is written in the fewest bytes that its value takes. -/
theorem Instruction.exists_bytes_eq {value : Nat} (h : decode offset b bs = .ok (i, width))
    (hsome : i.operand = some value) :
    ∃ extra least, width = extra + 1 ∧ value < 2 ^ (7 * (extra + 1)) ∧
      bs.take width = Operand.spellIn extra value ∧ Operand.Takes value least ∧
      i.step.bytes = b :: Operand.spellIn least value := by
  obtain ⟨-, rfl, -, ⟨hnone, -⟩ | ⟨value', hsome', hread⟩⟩ := decode_cases h
  · rw [hsome] at hnone
    cases hnone
  · cases hsome.symm.trans hsome'
    obtain ⟨extra, -, hwidth, hvalue, suffix, rfl⟩ := Operand.read_eq_ok_iff.mp hread
    simp only at hwidth hvalue
    obtain ⟨least, -, htakes, hspell⟩ :=
      Operand.exists_spell?_eq (fits_step_of_decode h value hsome)
    refine ⟨extra, least, hwidth, hvalue, ?_, htakes, ?_⟩
    · exact List.take_left' (by rw [Operand.length_spellIn, hwidth])
    · have hoperand : i.step.operand = some value := hsome
      rw [Step.bytes, Step.encode_of_operand_eq_some hoperand, hspell]
      rfl

/-- A step is written in the bytes that it was decoded from unless its operand has a redundant byte. -/
theorem Instruction.bytes_eq_iff (h : decode offset b bs = .ok (i, width)) :
    i.step.bytes = b :: bs.take width ↔
      (1 < (bs.take width).length → (bs.take width).getLast? ≠ some 0x01) := by
  obtain ⟨-, rfl, -, ⟨hnone, rfl⟩ | ⟨value, hsome, -⟩⟩ := decode_cases h
  · have hbytes : i.step.bytes = [i.opcode.byte] := Step.bytes_of_operand_eq_none hnone
    simp [hbytes]
  · obtain ⟨extra, least, -, hvalue, htake, htakes, hbytes⟩ := exists_bytes_eq h hsome
    have hequal : Operand.spellIn least value = Operand.spellIn extra value ↔
        Operand.Takes value extra := by
      constructor
      · intro heq
        have hlength := congrArg List.length heq
        rw [Operand.length_spellIn, Operand.length_spellIn, Nat.add_left_inj] at hlength
        exact hlength ▸ htakes
      · exact fun htakes' => by rw [htakes.unique htakes']
    rw [htake, hbytes, List.cons_inj_right, hequal, Operand.takes_iff_getLast? hvalue,
      Operand.length_spellIn, or_iff_not_imp_left]
    refine imp_congr_left ?_
    omega

/-- A step is written in no more bytes than it was decoded from. -/
theorem Instruction.length_bytes_le (h : decode offset b bs = .ok (i, width)) :
    i.step.bytes.length ≤ 1 + width := by
  obtain ⟨-, -, -, ⟨hnone, rfl⟩ | ⟨value, hsome, -⟩⟩ := decode_cases h
  · rw [Step.bytes_of_operand_eq_none hnone]
    exact le_rfl
  · obtain ⟨extra, least, hwidth, hvalue, -, htakes, hbytes⟩ := exists_bytes_eq h hsome
    have hle := htakes.le hvalue
    rw [hbytes, List.length_cons, Operand.length_spellIn]
    omega

end Decoded

-- ---------------------------------------------------------------------------
-- Streams
-- ---------------------------------------------------------------------------

namespace Listing

/-- A listed instruction is a step that can be written. -/
theorem wellFormed_and_fits_of_mem {offset : Nat} {bytes : List UInt8} {i : Instruction}
    (h : i ∈ (ofBytesAt offset bytes).instructions) : i.step.WellFormed ∧ i.step.Fits := by
  obtain ⟨pos, b, bs, width, hdecode⟩ := exists_decode_of_mem_ofBytesAt h
  obtain ⟨-, -, hwf, -⟩ := Instruction.decode_cases hdecode
  exact ⟨hwf, Instruction.fits_step_of_decode hdecode⟩

/-- Steps that are written one behind the other are listed as these steps. -/
theorem ofBytesAt_flatMap_bytes {steps : List Step} (h : ∀ s ∈ steps, s.WellFormed ∧ s.Fits)
    (offset : Nat) :
    (ofBytesAt offset (steps.flatMap Step.bytes)).instructions.map Instruction.step = steps ∧
      (ofBytesAt offset (steps.flatMap Step.bytes)).fault = none := by
  induction steps generalizing offset with
  | nil => simp [ofBytesAt]
  | cons s steps ih =>
    obtain ⟨⟨hwf, hfits⟩, hrest⟩ := List.forall_mem_cons.mp h
    obtain ⟨hsteps, hfault⟩ := ih hrest (offset + s.bytes.length)
    rw [List.flatMap_cons, ofBytesAt_encode_append hwf (Step.encode_eq hfits)]
    exact ⟨by rw [List.map_cons, hsteps]; rfl, hfault⟩

/-- What the listed instructions are written as. -/
def bytes (l : Listing) : List UInt8 := l.instructions.flatMap fun i => i.step.bytes

/-- Written again, a stream has the same steps, and no fault. -/
theorem ofBytes_bytes (code : List UInt8) :
    (ofBytes (ofBytes code).bytes).instructions.map Instruction.step =
        (ofBytes code).instructions.map Instruction.step ∧
      (ofBytes (ofBytes code).bytes).fault = none := by
  have hsteps : ∀ s ∈ (ofBytes code).instructions.map Instruction.step, s.WellFormed ∧ s.Fits :=
    List.forall_mem_map.mpr fun i hi => wellFormed_and_fits_of_mem hi
  have hbytes : (ofBytes code).bytes =
      ((ofBytes code).instructions.map Instruction.step).flatMap Step.bytes := by
    rw [bytes, List.flatMap_map]
  rw [hbytes]
  exact ofBytesAt_flatMap_bytes hsteps 0

/-- The steps of a stream are written as this stream unless one of its operands has a redundant byte. -/
theorem bytes_ofBytesAt_eq_iff {offset : Nat} {front rest : List UInt8} (hfront : front.length = offset)
    (hfault : (ofBytesAt offset rest).fault = none) :
    (ofBytesAt offset rest).bytes = rest ↔
      ∀ i ∈ (ofBytesAt offset rest).instructions, 1 < (i.spelling (front ++ rest)).length →
        (i.spelling (front ++ rest)).getLast? ≠ some 0x01 := by
  induction offset, rest using ofBytesAt.induct generalizing front with
  | case1 offset => simp [ofBytesAt, bytes]
  | case2 offset b bs i width hdecode ih =>
    subst hfront
    -- The instructions behind the first one are those of the rest, with the first one in front.
    have hsplit : front ++ b :: bs = (front ++ b :: bs.take width) ++ bs.drop width := by simp
    have hlength : (front ++ b :: bs.take width).length = front.length + 1 + width := by
      rw [List.length_append, List.length_cons, List.length_take,
        Nat.min_eq_left (Instruction.width_le_of_decode hdecode)]
      omega
    rw [ofBytesAt, hdecode] at hfault ⊢
    have htail := ih hlength hfault
    rw [← hsplit] at htail
    simp only [bytes, List.flatMap_cons, List.forall_mem_cons] at htail ⊢
    rw [Instruction.bytes_append_eq_iff hdecode, Instruction.bytes_eq_iff hdecode, htail,
      Instruction.spelling_of_decode hdecode]
  | case3 offset b bs e hdecode =>
    rw [ofBytesAt, hdecode] at hfault
    cases hfault

theorem bytes_ofBytes_eq_iff {code : List UInt8} (hfault : (ofBytes code).fault = none) :
    (ofBytes code).bytes = code ↔ ∀ i ∈ (ofBytes code).instructions,
      1 < (i.spelling code).length → (i.spelling code).getLast? ≠ some 0x01 :=
  bytes_ofBytesAt_eq_iff List.length_nil hfault

end Listing

-- ---------------------------------------------------------------------------
-- The stack check
-- ---------------------------------------------------------------------------

/-- The offset of an instruction counts in faults only. -/
theorem StackHeight.pass_of_step_eq {h h' : StackHeight} {i j : Instruction} (hstep : i.step = j.step)
    (hpass : h.pass i = .ok h') : h.pass j = .ok h' := by
  obtain ⟨hopcode, hoperand⟩ := Step.mk.inj hstep
  simp only [pass, hopcode, hoperand] at hpass ⊢
  split at hpass
  · cases hpass
  · split at hpass
    · cases hpass
    · rename_i hnamed hsign
      rw [if_neg hnamed, if_neg hsign]
      exact hpass

theorem StackHeight.passAll_of_steps_eq {h h' : StackHeight} {is js : List Instruction}
    (hsteps : is.map Instruction.step = js.map Instruction.step) (hrun : h.passAll is = .ok h') :
    h.passAll js = .ok h' := by
  induction is generalizing h js with
  | nil =>
    rw [List.map_eq_nil_iff.mp hsteps.symm]
    exact hrun
  | cons i is ih =>
    obtain ⟨j, js, rfl, hstep, hrest⟩ := List.map_eq_cons_iff.mp hsteps.symm
    rw [passAll_cons] at hrun ⊢
    cases hpass : h.pass i with
    | error e =>
      rw [hpass] at hrun
      cases hrun
    | ok h₁ =>
      rw [hpass] at hrun
      rw [pass_of_step_eq hstep.symm hpass]
      exact ih hrest.symm hrun

theorem Listing.stackDepth_of_steps_eq {l l' : Listing} {depth : Nat}
    (hsteps : l.instructions.map Instruction.step = l'.instructions.map Instruction.step)
    (hfault : l'.fault = none) (h : l.stackDepth = .ok depth) : l'.stackDepth = .ok depth := by
  obtain ⟨last, hrun, -, hlast⟩ := stackDepth_eq_ok_iff.mp h
  exact stackDepth_eq_ok_iff.mpr ⟨last, StackHeight.passAll_of_steps_eq hsteps hrun, hfault, hlast⟩

/-- Written again, a stream needs the same operand-stack slots. -/
theorem stackDepth_bytes {code : List UInt8} {depth : Nat} (h : stackDepth code = .ok depth) :
    stackDepth (Listing.ofBytes code).bytes = .ok depth := by
  obtain ⟨hsteps, hfault⟩ := Listing.ofBytes_bytes code
  exact Listing.stackDepth_of_steps_eq hsteps.symm hfault h

end Bytecode
