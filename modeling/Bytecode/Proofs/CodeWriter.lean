-- SUMMARY: Code writers and listings as inverses, with steps that are refused on the way.
import Bytecode.CodeWriter
import Bytecode.Proofs.Operand

/-!
# Writing and listing

A step is refused exactly if its operand is too large, and the opcode that was written for it is taken
back. What an accepted step has written is one instruction to the disassembler, whatever comes behind
it. So the listing of a stream holds the accepted steps, each at the offset where the writer stood
before it, and no fault.
-/

namespace Bytecode

-- ---------------------------------------------------------------------------
-- Single steps
-- ---------------------------------------------------------------------------

namespace Step

/-- An operand is there exactly if the opcode takes one. -/
def WellFormed (s : Step) : Prop := s.operand.isSome = s.opcode.takesOperand

instance : DecidablePred WellFormed := fun s =>
  inferInstanceAs (Decidable (s.operand.isSome = s.opcode.takesOperand))

/-- The operand, if there is one, is small enough to be encoded. -/
def Fits (s : Step) : Prop := ∀ operand ∈ s.operand, operand < 2 ^ 35

instance : DecidablePred Fits := fun s =>
  inferInstanceAs (Decidable (∀ operand ∈ s.operand, operand < 2 ^ 35))

/-- The instruction that the step writes at an offset. -/
def instruction (s : Step) (offset : Nat) : Instruction := ⟨offset, s.opcode, s.operand⟩

theorem encode_of_operand_eq_some {s : Step} {operand : Nat} (h : s.operand = some operand) :
    s.encode = match Operand.spell? operand with
      | some spelling => .ok (s.opcode.byte :: spelling)
      | none => .error (.operandTooLarge operand) := by
  simp only [encode, h, Operand.append_eq]
  cases Operand.spell? operand <;> rfl

theorem encode_eq_error_iff {s : Step} {e : InstructionError} :
    s.encode = .error e ↔
      ∃ operand, s.operand = some operand ∧ 2 ^ 35 ≤ operand ∧ e = .operandTooLarge operand := by
  cases h : s.operand with
  | none => simp [encode, h]
  | some operand =>
    rw [encode_of_operand_eq_some h]
    simp only [Option.some.injEq, exists_eq_left', ← Operand.spell?_eq_none_iff]
    cases Operand.spell? operand <;> simp [eq_comm]

/-- The bytes of an instruction are decoded as this instruction, whatever follows them. -/
theorem decode_encode {s : Step} (h : s.WellFormed) {bytes : List UInt8}
    (hencode : s.encode = .ok bytes) (offset : Nat) :
    ∃ spelling, bytes = s.opcode.byte :: spelling ∧ ∀ suffix,
      Instruction.decode offset s.opcode.byte (spelling ++ suffix) =
        .ok (s.instruction offset, spelling.length) := by
  unfold WellFormed at h
  cases hoperand : s.operand with
  | none =>
    have hnone : s.opcode.takesOperand = false := by simpa [hoperand] using h.symm
    refine ⟨[], by simpa [encode, hoperand] using hencode.symm, fun suffix => ?_⟩
    simp [Instruction.decode, Opcode.ofByte?_byte, hnone, instruction, hoperand]
  | some operand =>
    have hsome : s.opcode.takesOperand = true := by simpa [hoperand] using h.symm
    rw [encode_of_operand_eq_some hoperand] at hencode
    by_cases hvalue : operand < 2 ^ 35
    · obtain ⟨extra, hextra, htakes, hspell⟩ := Operand.exists_spell?_eq hvalue
      rw [hspell] at hencode
      cases hencode
      refine ⟨Operand.spellIn extra operand, rfl, fun suffix => ?_⟩
      have hread : Operand.read (Operand.spellIn extra operand ++ suffix) = .ok ⟨operand, extra + 1⟩ :=
        Operand.readWithin_spellIn hextra htakes.1 suffix
      simp [Instruction.decode, Opcode.ofByte?_byte, hsome, hread, instruction, hoperand]
    · rw [Operand.spell?_eq_none_iff.mpr (Nat.not_lt.mp hvalue)] at hencode
      cases hencode

end Step

theorem Listing.ofBytesAt_encode_append {s : Step} (h : s.WellFormed) {bytes : List UInt8}
    (hencode : s.encode = .ok bytes) (offset : Nat) (suffix : List UInt8) :
    ofBytesAt offset (bytes ++ suffix) =
      { ofBytesAt (offset + bytes.length) suffix with
        instructions := s.instruction offset ::
          (ofBytesAt (offset + bytes.length) suffix).instructions } := by
  obtain ⟨spelling, rfl, hdecode⟩ := Step.decode_encode h hencode offset
  have hnext : offset + 1 + spelling.length = offset + (s.opcode.byte :: spelling).length := by
    rw [List.length_cons]
    omega
  rw [List.cons_append, ofBytesAt, hdecode suffix]
  simp only [List.drop_left, hnext]

namespace CodeWriter

theorem write_apply (s : Step) (w : CodeWriter) :
    write s w = match s.encode with
      | .ok bytes => .ok () { code := w.code ++ bytes }
      | .error e => .error e w := by
  cases h : s.operand with
  | none =>
    simp only [write, Step.encode, h]
    rfl
  | some operand =>
    rw [Step.encode_of_operand_eq_some h]
    simp only [write, h, emitOperand, Operand.write_apply]
    -- The opcode that a refused operand leaves behind is cut off again.
    cases Operand.spell? operand <;> simp [offset]

theorem attempt_eq (w : CodeWriter) (s : Step) :
    w.attempt s = match s.encode with
      | .ok bytes => (none, { code := w.code ++ bytes })
      | .error e => (some e, w) := by
  rw [attempt, write_apply]
  cases s.encode <;> rfl

theorem attempt_fst_eq_some_iff {w : CodeWriter} {s : Step} {e : InstructionError} :
    (w.attempt s).1 = some e ↔
      ∃ operand, s.operand = some operand ∧ 2 ^ 35 ≤ operand ∧ e = .operandTooLarge operand := by
  rw [attempt_eq, ← Step.encode_eq_error_iff]
  cases s.encode <;> simp

theorem attempt_fst_eq_none_iff {w : CodeWriter} {s : Step} :
    (w.attempt s).1 = none ↔ s.Fits := by
  rw [Option.eq_none_iff_forall_ne_some]
  simp only [ne_eq, attempt_fst_eq_some_iff, Step.Fits, Option.mem_def, ← Nat.not_le]
  grind

theorem attempt_snd_of_refused {w : CodeWriter} {s : Step} (h : (w.attempt s).1 ≠ none) :
    (w.attempt s).2 = w := by
  rw [attempt_eq] at h ⊢
  cases hencode : s.encode with
  | ok bytes => simp [hencode] at h
  | error e => rfl

theorem exists_encode_of_accepted {w : CodeWriter} {s : Step} (h : (w.attempt s).1 = none) :
    ∃ bytes, s.encode = .ok bytes ∧ (w.attempt s).2 = { code := w.code ++ bytes } := by
  rw [attempt_eq] at h ⊢
  cases hencode : s.encode with
  | ok bytes => exact ⟨bytes, rfl, rfl⟩
  | error e => simp [hencode] at h

-- ---------------------------------------------------------------------------
-- Runs
-- ---------------------------------------------------------------------------

/-- The instructions of the steps that are accepted, each at the offset of the writer in front of it. -/
def placed (w : CodeWriter) : List Step → List Instruction
  | [] => []
  | s :: steps =>
    match w.attempt s with
    | (none, w') => s.instruction w.offset :: w'.placed steps
    | (some _, w') => w'.placed steps

theorem map_step_placed (w : CodeWriter) (steps : List Step) :
    (w.placed steps).map Instruction.step = steps.filter fun s => s.Fits := by
  induction steps generalizing w with
  | nil => rfl
  | cons s steps ih =>
    rw [placed]
    split
    · rename_i w' hattempt
      have hfits : s.Fits := attempt_fst_eq_none_iff.mp (congrArg Prod.fst hattempt)
      rw [List.map_cons, ih, List.filter_cons, if_pos (decide_eq_true hfits)]
      rfl
    · rename_i e w' hattempt
      have hfits : ¬ s.Fits := by
        rw [← attempt_fst_eq_none_iff (w := w), hattempt]
        simp
      rw [ih, List.filter_cons, if_neg (by simpa using hfits)]

/-- Whatever the writer has written before, the steps add their instructions behind it. -/
theorem exists_code_attemptAll (w : CodeWriter) {steps : List Step}
    (h : ∀ s ∈ steps, s.WellFormed) :
    ∃ added, (w.attemptAll steps).code = w.code ++ added ∧
      Listing.ofBytesAt w.offset added = { instructions := w.placed steps } := by
  induction steps generalizing w with
  | nil => exact ⟨[], by simp [attemptAll], by simp [Listing.ofBytesAt, placed]⟩
  | cons s steps ih =>
    obtain ⟨hs, hrest⟩ := List.forall_mem_cons.mp h
    obtain ⟨added, hcode, hlisting⟩ := ih (w.attempt s).2 hrest
    rw [attemptAll, placed]
    split
    · rename_i w' hattempt
      obtain ⟨bytes, hencode, hwriter⟩ := exists_encode_of_accepted (congrArg Prod.fst hattempt)
      rw [hattempt] at hcode hlisting hwriter
      subst hwriter
      refine ⟨bytes ++ added, by rw [hattempt, hcode, List.append_assoc], ?_⟩
      have hoffset : offset { code := w.code ++ bytes } = w.offset + bytes.length := by simp [offset]
      rw [hoffset] at hlisting
      rw [Listing.ofBytesAt_encode_append hs hencode, hlisting]
    · rename_i e w' hattempt
      have hwriter : (w.attempt s).2 = w := attempt_snd_of_refused (by simp [hattempt])
      rw [hattempt] at hcode hlisting hwriter
      subst hwriter
      rw [hattempt]
      exact ⟨added, hcode, hlisting⟩

/--
A step is refused exactly if its operand is `2 ^ 35` or more, with a fault that names the operand, and
leaves the stream, and so the offset, as it was. The listing of a stream that was written step by step
has no fault, and holds the steps whose operands fit, in order, each at the offset of the writer just
before it.
-/
theorem ofBytes_attemptAll {steps : List Step} (h : ∀ s ∈ steps, s.WellFormed) :
    (∀ (w : CodeWriter) (s : Step),
      (∀ e, (w.attempt s).1 = some e ↔
        ∃ operand, s.operand = some operand ∧ 2 ^ 35 ≤ operand ∧ e = .operandTooLarge operand) ∧
      ((w.attempt s).1 ≠ none → (w.attempt s).2 = w)) ∧
    Listing.ofBytes (attemptAll {} steps).code = { instructions := placed {} steps, fault := none } ∧
    (placed {} steps).map Instruction.step = steps.filter fun s => s.Fits := by
  refine ⟨fun w s => ⟨fun e => attempt_fst_eq_some_iff, attempt_snd_of_refused⟩, ?_,
    map_step_placed {} steps⟩
  obtain ⟨added, hcode, hlisting⟩ := exists_code_attemptAll {} h
  rw [Listing.ofBytes, hcode, List.nil_append]
  exact hlisting

theorem ofBytes_attemptAll_refused_between :
    let steps : List Step :=
      [⟨.nop, none⟩, ⟨.loadConst, some 0x181⟩, ⟨.call, some (2 ^ 35)⟩, ⟨.ret, none⟩]
    let w : CodeWriter := { code := [0x00, 0x40, 0x81, 0x02] }
    (∀ s ∈ steps, s.WellFormed) ∧
      w.attempt ⟨.call, some (2 ^ 35)⟩ = (some (.operandTooLarge (2 ^ 35)), w) ∧
      Listing.ofBytes [0x00, 0x40, 0x81, 0x02, 0x04] =
        { instructions := [⟨0, .nop, none⟩, ⟨1, .loadConst, some 0x181⟩, ⟨4, .ret, none⟩] } := by
  intro steps w
  have hsteps : ∀ s ∈ steps, s.WellFormed := by decide
  obtain ⟨hstep, hlisting, -⟩ := ofBytes_attemptAll hsteps
  obtain ⟨hfault, hwriter⟩ := hstep w ⟨.call, some (2 ^ 35)⟩
  have hrefused : (w.attempt ⟨.call, some (2 ^ 35)⟩).1 = some (.operandTooLarge (2 ^ 35)) :=
    (hfault _).mpr ⟨2 ^ 35, rfl, le_rfl, rfl⟩
  exact ⟨hsteps, Prod.ext hrefused (hwriter (by rw [hrefused]; nofun)), hlisting⟩

end CodeWriter

end Bytecode
