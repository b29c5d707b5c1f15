-- SUMMARY: Words and their bytes determine each other.
import Mathlib
import Bytecode.Wire.Word

/-!
# Words and bytes

Main statements: the bytes of a word read back as that word, and eight bytes are the bytes of the word
that they read as.
-/

namespace Bytecode.Wire

theorem ofLittleEndian_littleEndian (count n : Nat) :
    ofLittleEndian (littleEndian count n) = n % 256 ^ count := by
  induction count generalizing n with
  | zero => simp [littleEndian, ofLittleEndian, Nat.mod_one]
  | succ count ih =>
    simp [littleEndian, ofLittleEndian, ih, Nat.pow_succ', Nat.mod_mul]

theorem ofLittleEndian_lt (bs : List UInt8) : ofLittleEndian bs < 256 ^ bs.length := by
  induction bs with
  | nil => simp [ofLittleEndian]
  | cons b bs ih =>
    have hb : b.toNat < 256 := b.toNat_lt
    simp only [ofLittleEndian, List.length_cons, Nat.pow_succ']
    omega

theorem wordOfBytes_wordBytes (w : UInt64) : wordOfBytes (wordBytes w) = w := by
  have h : w.toNat < 256 ^ wordSize := by simpa [wordSize] using w.toNat_lt
  simp [wordOfBytes, wordBytes, ofLittleEndian_littleEndian, Nat.mod_eq_of_lt h]

theorem wordBytes_wordOfBytes {bs : List UInt8} (h : bs.length = wordSize) :
    wordBytes (wordOfBytes bs) = bs := by
  have hlt : ofLittleEndian bs < 2 ^ 64 := by
    simpa [h, wordSize] using ofLittleEndian_lt bs
  rw [wordBytes, wordOfBytes, UInt64.toNat_ofNat_of_lt' hlt, ← h, littleEndian_ofLittleEndian]

end Bytecode.Wire
