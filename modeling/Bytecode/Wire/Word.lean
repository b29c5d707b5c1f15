-- SUMMARY: Machine words as bytes, lowest byte first.

/-!
# Words

All integers of the wire format are 64-bit words of eight bytes, lowest byte first. Signed values are
in two's complement.
-/

namespace Bytecode.Wire

/-- The bytes of a word. -/
def wordSize : Nat := 8

/-- The lowest `count` bytes of a number, lowest first. -/
def littleEndian : Nat → Nat → List UInt8
  | 0, _ => []
  | count + 1, n => UInt8.ofNat n :: littleEndian count (n / 256)

/-- The number whose bytes are given, lowest first. -/
def ofLittleEndian : List UInt8 → Nat
  | [] => 0
  | b :: bs => b.toNat + 256 * ofLittleEndian bs

theorem length_littleEndian (count n : Nat) : (littleEndian count n).length = count := by
  induction count generalizing n with
  | zero => rfl
  | succ count ih => simp [littleEndian, ih]

theorem littleEndian_ofLittleEndian (bs : List UInt8) :
    littleEndian bs.length (ofLittleEndian bs) = bs := by
  induction bs with
  | nil => rfl
  | cons b bs ih =>
    have hb : b.toNat < 256 := b.toNat_lt
    have hdiv : (b.toNat + 256 * ofLittleEndian bs) / 256 = ofLittleEndian bs := by omega
    have hmod : UInt8.ofNat (b.toNat + 256 * ofLittleEndian bs) = b := by
      apply UInt8.toNat_inj.mp
      simp
    simp [littleEndian, ofLittleEndian, hdiv, hmod, ih]

/-- The bytes of an unsigned word. -/
def wordBytes (w : UInt64) : List UInt8 := littleEndian wordSize w.toNat

/-- The word with the given bytes. -/
def wordOfBytes (bs : List UInt8) : UInt64 := UInt64.ofNat (ofLittleEndian bs)

theorem length_wordBytes (w : UInt64) : (wordBytes w).length = wordSize :=
  length_littleEndian wordSize w.toNat

end Bytecode.Wire
