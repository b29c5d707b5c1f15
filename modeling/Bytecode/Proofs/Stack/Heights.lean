-- SUMMARY: Stack heights over unbounded integers, and the machine words of the stack check that stand for them.
import Bytecode.Proofs.Listing
import Bytecode.StackCheck

/-!
# Heights

`heightAt is n` is the height after the first `n` instructions, over unbounded integers. The stack
check counts in machine words. As long as it lets instructions pass, its words are these heights: a
height grows by one at most with each instruction, and falls by less than `2 ^ 36`.
-/

namespace Bytecode

/-- The change of the height for a given operand, over unbounded integers. -/
def StackEffect.delta (effect : StackEffect) (operand : Nat) : Int :=
  match effect with
  | .fixed delta => delta.toInt
  | .minusOperand => -operand
  | .minusOperandPlusOne => -operand + 1
  | .minusTwiceOperandPlusOne => -2 * operand + 1

/-- The change of the height that an instruction makes, over unbounded integers. -/
def Instruction.delta (i : Instruction) : Int := i.opcode.effect.delta i.argument

/-- The height after a number of instructions, over unbounded integers. -/
def heightAt (is : List Instruction) (n : Nat) : Int := ((is.take n).map Instruction.delta).sum

@[simp] theorem heightAt_zero (is : List Instruction) : heightAt is 0 = 0 := by
  simp [heightAt]

theorem heightAt_succ {is : List Instruction} {n : Nat} {i : Instruction} (h : is[n]? = some i) :
    heightAt is (n + 1) = heightAt is n + i.delta := by
  simp [heightAt, List.take_add_one, h]

theorem Opcode.delta_effect_le_one (op : Opcode) (operand : Nat) :
    op.effect.delta operand ≤ 1 := by
  cases op <;> simp only [Opcode.effect, Opcode.row, StackEffect.delta] <;> first | decide | omega

theorem heightAt_le (is : List Instruction) (n : Nat) : heightAt is n ≤ n := by
  induction n with
  | zero => simp
  | succ n ih =>
    cases h : is[n]? with
    | none =>
      have htake : is.take (n + 1) = is.take n := by simp [List.take_add_one, h]
      rw [heightAt, htake]
      exact ih.trans (by omega)
    | some i =>
      have hdelta : i.delta ≤ 1 := i.opcode.delta_effect_le_one i.argument
      rw [heightAt_succ h]
      omega

-- ---------------------------------------------------------------------------
-- Machine words
-- ---------------------------------------------------------------------------

theorem toInt_add_of_mem {a b : Int64} (hlow : -2 ^ 63 ≤ a.toInt + b.toInt)
    (hhigh : a.toInt + b.toInt < 2 ^ 63) : (a + b).toInt = a.toInt + b.toInt := by
  rw [Int64.toInt_add]
  exact Int.bmod_eq_of_le (by omega) (by omega)

section Operands

variable {operand : Nat}

theorem toInt_ofNat_operand (h : operand < 2 ^ 35) : (Int64.ofNat operand).toInt = operand :=
  Int64.toInt_ofNat_of_lt (by omega)

theorem toInt_neg_operand (h : operand < 2 ^ 35) :
    (-Int64.ofNat operand).toInt = -(operand : Int) := by
  rw [Int64.toInt_neg, toInt_ofNat_operand h]
  exact Int.bmod_eq_of_le (by omega) (by omega)

theorem toInt_twice_operand (h : operand < 2 ^ 35) :
    (-2 * Int64.ofNat operand).toInt = -2 * (operand : Int) := by
  have htwo : (-2 : Int64).toInt = -2 := by decide
  rw [Int64.toInt_mul, toInt_ofNat_operand h, htwo]
  exact Int.bmod_eq_of_le (by omega) (by omega)

theorem StackEffect.toInt_apply {effect : StackEffect} (h : operand < 2 ^ 35) :
    (effect.apply operand).toInt = effect.delta operand := by
  have hneg := toInt_neg_operand h
  have htwice := toInt_twice_operand h
  have hone : (1 : Int64).toInt = 1 := by decide
  cases effect with
  | fixed delta => exact Int8.toInt_toInt64 delta
  | minusOperand => exact hneg
  | minusOperandPlusOne =>
    unfold StackEffect.apply StackEffect.delta
    rw [toInt_add_of_mem (by omega) (by omega), hneg, hone]
  | minusTwiceOperandPlusOne =>
    unfold StackEffect.apply StackEffect.delta
    rw [toInt_add_of_mem (by omega) (by omega), htwice, hone]

end Operands

theorem StackEffect.neg_le_delta (effect : StackEffect) {operand : Nat} (h : operand < 2 ^ 35) :
    -2 ^ 36 ≤ effect.delta operand := by
  cases effect with
  | fixed delta =>
    have hlow : -2 ^ 7 ≤ delta.toInt := delta.le_toInt
    simp only [StackEffect.delta]
    omega
  | _ =>
    simp only [StackEffect.delta]
    omega

namespace StackHeight

/-- The height after an instruction is one that the machine words have. -/
structure Counts (h : StackHeight) (i : Instruction) : Prop where
  nonneg : 0 ≤ h.current.toInt
  lt : h.current.toInt + i.delta < 2 ^ 63

variable {h : StackHeight} {i : Instruction}

theorem toInt_current_add (hcounts : h.Counts i) (hargument : i.argument < 2 ^ 35) :
    (h.current + i.opcode.effect.apply i.argument).toInt = h.current.toInt + i.delta := by
  obtain ⟨hnonneg, hlt⟩ := hcounts
  have heffect : (i.opcode.effect.apply i.argument).toInt = i.delta :=
    StackEffect.toInt_apply hargument
  have hlow : -2 ^ 36 ≤ i.delta := i.opcode.effect.neg_le_delta hargument
  rw [toInt_add_of_mem (by omega) (by omega), heffect]

/-- A height past the machine words comes out below zero, so that no instruction passes there. -/
theorem current_add_neg (hargument : i.argument < 2 ^ 35)
    (h63 : 2 ^ 63 ≤ h.current.toInt + i.delta) :
    h.current + i.opcode.effect.apply i.argument < 0 := by
  have heffect : (i.opcode.effect.apply i.argument).toInt = i.delta :=
    StackEffect.toInt_apply hargument
  have hdelta : i.delta ≤ 1 := i.opcode.delta_effect_le_one i.argument
  have hcurrent : h.current.toInt < 2 ^ 63 := h.current.toInt_lt
  have hsum : h.current.toInt + i.delta = 2 ^ 63 := by omega
  rw [Int64.lt_iff_toInt_lt, Int64.toInt_add, heffect, hsum]
  decide

end StackHeight

end Bytecode
