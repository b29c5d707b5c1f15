-- SUMMARY: Bounds on what a listing holds: the values of operands, and the number of instructions.
import Mathlib
import Bytecode.Listing
import Bytecode.Proofs.Operand

/-!
# Bounds on listings

The operands of a listing are below `2 ^ 35`, whatever the bytes are, and every instruction takes at
least one byte of the stream.
-/

namespace Bytecode

namespace Instruction

/-- The operand, or zero where there is none. -/
def argument (i : Instruction) : Nat := i.operand.getD 0

theorem argument_lt_of_decode {offset : Nat} {b : UInt8} {bs : List UInt8} {i : Instruction}
    {width : Nat} (h : decode offset b bs = .ok (i, width)) : i.argument < 2 ^ 35 := by
  unfold decode at h
  split at h
  · cases h
  · split at h
    · split at h
      · rename_i reading hreading
        cases h
        exact Operand.value_lt_of_readWithin hreading
      · cases h
    · cases h
      exact Nat.two_pow_pos 35

end Instruction

namespace Listing

/-- What is listed has been decoded somewhere in the stream. -/
theorem exists_decode_of_mem_ofBytesAt {offset : Nat} {bytes : List UInt8} {i : Instruction}
    (h : i ∈ (ofBytesAt offset bytes).instructions) :
    ∃ pos b bs width, Instruction.decode pos b bs = .ok (i, width) := by
  induction offset, bytes using ofBytesAt.induct with
  | case1 offset =>
    rw [ofBytesAt] at h
    cases h
  | case2 offset b bs j width hdecode ih =>
    rw [ofBytesAt, hdecode] at h
    rcases List.mem_cons.mp h with rfl | htail
    · exact ⟨offset, b, bs, width, hdecode⟩
    · exact ih htail
  | case3 offset b bs fault hdecode =>
    rw [ofBytesAt, hdecode] at h
    cases h

theorem argument_lt_of_mem_ofBytesAt {offset : Nat} {bytes : List UInt8} {i : Instruction}
    (h : i ∈ (ofBytesAt offset bytes).instructions) : i.argument < 2 ^ 35 := by
  obtain ⟨pos, b, bs, width, hdecode⟩ := exists_decode_of_mem_ofBytesAt h
  exact Instruction.argument_lt_of_decode hdecode

theorem length_instructions_ofBytesAt_le (offset : Nat) (bytes : List UInt8) :
    (ofBytesAt offset bytes).instructions.length ≤ bytes.length := by
  induction offset, bytes using ofBytesAt.induct with
  | case1 offset => simp [ofBytesAt]
  | case2 offset b bs j width hdecode ih =>
    rw [ofBytesAt, hdecode]
    simp only [List.length_drop, List.length_cons] at ih ⊢
    omega
  | case3 offset b bs fault hdecode =>
    rw [ofBytesAt, hdecode]
    exact Nat.zero_le _

end Listing

end Bytecode
