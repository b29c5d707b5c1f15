-- SUMMARY: The machine words of the stack check: no operation on them overflows, on any stream.
import Bytecode.Proofs.Stack.Verdict

/-!
# Arithmetic of the stack check

An operand is below `2 ^ 35`, a height is never below zero when the next instruction is met, and it is
never above the number of instructions before it. So on a stream that is shorter than `2 ^ 63` bytes
every operation of the check has the value that it has on unbounded integers.
-/

namespace Bytecode

-- ---------------------------------------------------------------------------
-- Single operations
-- ---------------------------------------------------------------------------

theorem not_negOverflow_iff {a : Int64} : ¬ a.toBitVec.negOverflow ↔ -2 ^ 63 < a.toInt := by
  have hlow : -2 ^ 63 ≤ a.toInt := a.le_toInt
  rw [BitVec.negOverflow, Int64.toInt_toBitVec, beq_iff_eq]
  omega

theorem not_saddOverflow_iff {a b : Int64} :
    ¬ a.toBitVec.saddOverflow b.toBitVec ↔
      -2 ^ 63 ≤ a.toInt + b.toInt ∧ a.toInt + b.toInt < 2 ^ 63 := by
  rw [BitVec.saddOverflow, Int64.toInt_toBitVec, Int64.toInt_toBitVec, Bool.or_eq_true,
    decide_eq_true_iff, decide_eq_true_iff]
  omega

theorem not_smulOverflow_iff {a b : Int64} :
    ¬ a.toBitVec.smulOverflow b.toBitVec ↔
      -2 ^ 63 ≤ a.toInt * b.toInt ∧ a.toInt * b.toInt < 2 ^ 63 := by
  rw [BitVec.smulOverflow, Int64.toInt_toBitVec, Int64.toInt_toBitVec, Bool.or_eq_true,
    decide_eq_true_iff, decide_eq_true_iff]
  omega

/-- No operation by which the change of the height is found overflows. -/
def StackEffect.Exact (effect : StackEffect) (operand : Nat) : Prop :=
  let word := Int64.ofNat operand
  match effect with
  | .fixed _ => True
  | .minusOperand => ¬ word.toBitVec.negOverflow
  | .minusOperandPlusOne =>
    ¬ word.toBitVec.negOverflow ∧ ¬ (-word).toBitVec.saddOverflow (1 : Int64).toBitVec
  | .minusTwiceOperandPlusOne =>
    ¬ (-2 : Int64).toBitVec.smulOverflow word.toBitVec ∧
      ¬ (-2 * word).toBitVec.saddOverflow (1 : Int64).toBitVec

theorem StackEffect.exact_of_lt (effect : StackEffect) {operand : Nat} (h : operand < 2 ^ 35) :
    effect.Exact operand := by
  have hword := toInt_ofNat_operand h
  have hneg := toInt_neg_operand h
  have htwice := toInt_twice_operand h
  have hone : (1 : Int64).toInt = 1 := by decide
  have htwo : (-2 : Int64).toInt = -2 := by decide
  cases effect with
  | fixed delta => trivial
  | minusOperand =>
    simp only [Exact, not_negOverflow_iff, hword]
    omega
  | minusOperandPlusOne =>
    simp only [Exact, not_negOverflow_iff, not_saddOverflow_iff, hword, hneg, hone]
    omega
  | minusTwiceOperandPlusOne =>
    simp only [Exact, not_smulOverflow_iff, not_saddOverflow_iff, hword, htwice, hone, htwo]
    omega

-- ---------------------------------------------------------------------------
-- Steps of the check
-- ---------------------------------------------------------------------------

namespace StackHeight

/-- The bounds of a step over an instruction that is met behind `n` others, and that it is exact. -/
structure Exact (h : StackHeight) (n : Nat) (i : Instruction) : Prop where
  operand_lt : i.argument < 2 ^ 35
  operand_word : (Int64.ofNat i.argument).toInt = i.argument
  height : 0 ≤ h.current.toInt ∧ h.current.toInt ≤ n
  effect : i.opcode.effect.Exact i.argument
  sum : ¬ h.current.toBitVec.saddOverflow (i.opcode.effect.apply i.argument).toBitVec
  next_word : (h.current + i.opcode.effect.apply i.argument).toInt = h.current.toInt + i.delta
  next : -2 ^ 36 ≤ h.current.toInt + i.delta ∧ h.current.toInt + i.delta ≤ n + 1

theorem exact_of_bounds {h : StackHeight} {n : Nat} {i : Instruction} (hargument : i.argument < 2 ^ 35)
    (hnonneg : 0 ≤ h.current.toInt) (hle : h.current.toInt ≤ n) (hn : n < 2 ^ 63 - 1) :
    h.Exact n i := by
  have hdelta : i.delta ≤ 1 := i.opcode.delta_effect_le_one i.argument
  have hlow : -2 ^ 36 ≤ i.delta := i.opcode.effect.neg_le_delta hargument
  have heffect : (i.opcode.effect.apply i.argument).toInt = i.delta :=
    StackEffect.toInt_apply hargument
  exact {
    operand_lt := hargument
    operand_word := toInt_ofNat_operand hargument
    height := ⟨hnonneg, hle⟩
    effect := i.opcode.effect.exact_of_lt hargument
    sum := by
      rw [not_saddOverflow_iff, heffect]
      omega
    next_word := toInt_current_add ⟨hnonneg, by omega⟩ hargument
    next := ⟨by omega, by omega⟩ }

/-- What the check has counted after instructions that pass is at least zero, and at most their number. -/
theorem bounds_of_passAll {is : List Instruction} (hargument : ∀ i ∈ is, i.argument < 2 ^ 35)
    {h : StackHeight} (hrun : passAll {} is = .ok h) :
    (0 ≤ h.current.toInt ∧ h.current.toInt ≤ is.length) ∧
      0 ≤ h.peak.toInt ∧ h.peak.toInt ≤ is.length := by
  obtain ⟨last, hreached, hpasses, hlast⟩ := reached_of_passAll_eq_ok hargument hrun le_rfl
  rw [List.drop_length] at hlast
  cases hlast
  obtain ⟨m, hm, hpeak⟩ := hreached.peak.1
  have hheight := heightAt_le is m
  refine ⟨⟨?_, ?_⟩, hreached.peak.nonneg, by omega⟩
  · rw [hreached.current]
    exact hpasses.heightAt_nonneg le_rfl
  · rw [hreached.current]
    exact heightAt_le is is.length

end StackHeight

/--
Wherever the check meets an instruction of a stream, the operand is below `2 ^ 35` and is itself as a
machine word, the height is at least zero and at most the number of instructions before it, no operation
overflows, and the height after it is at least `-2 ^ 36` and at most the number of instructions up to it.
A depth that is found is at most the number of instructions, and the machine word for it read as a
natural number.
-/
theorem stackDepth_exact {code : List UInt8} (h : code.length < 2 ^ 63) :
    (∀ n i height, (Listing.ofBytes code).instructions[n]? = some i →
      StackHeight.passAll {} ((Listing.ofBytes code).instructions.take n) = .ok height →
      height.Exact n i) ∧
    ∀ depth, stackDepth code = .ok depth →
      depth ≤ (Listing.ofBytes code).instructions.length ∧
      ∃ last, StackHeight.passAll {} (Listing.ofBytes code).instructions = .ok last ∧
        last.peak.toInt = depth ∧ last.peak.toUInt64.toNat = depth := by
  have hl := Listing.bounded_ofBytes h
  constructor
  · intro n i height hi hrun
    have hargument : ∀ j ∈ (Listing.ofBytes code).instructions.take n, j.argument < 2 ^ 35 :=
      fun j hj => hl.argument j (List.mem_of_mem_take hj)
    have hn : n < (Listing.ofBytes code).instructions.length := (List.getElem?_eq_some_iff.mp hi).1
    obtain ⟨⟨hnonneg, hle⟩, -⟩ := StackHeight.bounds_of_passAll hargument hrun
    rw [List.length_take_of_le hn.le] at hle
    have hlength := hl.length
    exact StackHeight.exact_of_bounds (hl.argument i (List.mem_of_getElem? hi)) hnonneg hle (by omega)
  · intro depth hdepth
    obtain ⟨last, hrun, -, -, rfl⟩ := Listing.stackDepth_eq_ok_iff.mp hdepth
    obtain ⟨-, hnonneg, hle⟩ := StackHeight.bounds_of_passAll hl.argument hrun
    have hword : last.peak.toUInt64.toNat = last.peak.toInt.toNat :=
      Int64.toNat_toUInt64_of_le (Int64.le_iff_toInt_le.mpr hnonneg)
    exact ⟨by omega, last, hrun, (Int.toNat_of_nonneg hnonneg).symm, hword⟩

theorem stackDepth_exact_wide_operand :
    let code : List UInt8 := [0x05, 0x53, 0xff, 0xfe, 0xfe, 0xfe, 0x7e]
    (code.length < 2 ^ 63 ∧
      StackHeight.passAll {} ((Listing.ofBytes code).instructions.take 1) = .ok ⟨1, 1⟩) ∧
      StackHeight.Exact ⟨1, 1⟩ 1 ⟨1, .makeHash, some (2 ^ 35 - 1)⟩ ∧
      (stackDepth [0x05, 0x04] = .ok 1 ∧
        1 ≤ (Listing.ofBytes [0x05, 0x04]).instructions.length) := by
  intro code
  have hlength : code.length < 2 ^ 63 := by decide
  have hsecond : (Listing.ofBytes code).instructions[1]? =
      some ⟨1, .makeHash, some (2 ^ 35 - 1)⟩ := by cbv
  have hrun : StackHeight.passAll {} ((Listing.ofBytes code).instructions.take 1) =
      .ok ⟨1, 1⟩ := by cbv
  have hdepth : stackDepth [0x05, 0x04] = .ok 1 := by cbv
  have hexact := (stackDepth_exact hlength).1 1 _ _ hsecond hrun
  have hbound := (stackDepth_exact (show [(0x05 : UInt8), 0x04].length < 2 ^ 63 by decide)).2 1 hdepth
  exact ⟨⟨hlength, hrun⟩, hexact, hdepth, hbound.1⟩

end Bytecode
