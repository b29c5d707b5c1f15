-- SUMMARY: Operands of a given width: reading and spelling as inverses, and which spellings are the shortest.
import Mathlib
import Bytecode.Instruction

/-!
# Operands

Among the spellings of one width every value below `2 ^ (7 * width)` has exactly one. A reader accepts
just these, of any width up to `Operand.maxWidth`, and whatever follows them; a value is spelled in
the first width that holds it. A spelling that is longer than it has to be ends in the byte one, which
does nothing but cancel the high bit of the byte in front of it.
-/

namespace Bytecode.Operand

/-- The spelling of a value in `extra + 1` bytes: all but the last have their high bit set. -/
def spellIn : Nat → Nat → List UInt8
  | 0, value => [UInt8.ofNat value]
  | extra + 1, value => UInt8.ofNat (value % 0x80 + 0x80) :: spellIn extra (value >>> 7 ^^^ 1)

@[simp] theorem length_spellIn (extra value : Nat) : (spellIn extra value).length = extra + 1 := by
  induction extra generalizing value with
  | zero => rfl
  | succ extra ih => simp [spellIn, ih]

-- ---------------------------------------------------------------------------
-- One byte more
-- ---------------------------------------------------------------------------

/-- The high bit of a byte falls on the lowest bit of what follows. -/
theorem xor_shiftLeft_seven {low : Nat} (h : low < 0x80) (tail : Nat) :
    (low + 0x80) ^^^ tail <<< 7 = 0x80 * (tail ^^^ 1) + low := by
  have hdiv : ((low + 0x80) ^^^ tail <<< 7) / 2 ^ 7 = tail ^^^ 1 := by
    rw [Nat.xor_div_two_pow, Nat.shiftLeft_eq, Nat.mul_div_cancel _ (by decide), Nat.xor_comm]
    congr 1
    omega
  have hmod : ((low + 0x80) ^^^ tail <<< 7) % 2 ^ 7 = low := by
    rw [Nat.xor_mod_two_pow, Nat.shiftLeft_eq, Nat.mul_mod_left, Nat.xor_zero]
    omega
  omega

/-- A value determines its first byte, and what the bytes behind it have to make up. -/
theorem xor_shiftLeft_eq_iff {byte tail value : Nat} (hlow : 0x80 ≤ byte) (hhigh : byte < 0x100) :
    byte ^^^ tail <<< 7 = value ↔ byte = value % 0x80 + 0x80 ∧ tail = value >>> 7 ^^^ 1 := by
  obtain ⟨low, rfl⟩ := Nat.exists_eq_add_of_le' hlow
  rw [xor_shiftLeft_seven (by omega), Nat.shiftRight_eq_div_pow]
  constructor
  · rintro rfl
    have hdiv : (0x80 * (tail ^^^ 1) + low) / 2 ^ 7 = tail ^^^ 1 := by omega
    rw [hdiv, Nat.xor_xor_cancel_right]
    omega
  · rintro ⟨hbyte, rfl⟩
    rw [Nat.xor_xor_cancel_right]
    omega

theorem xor_shiftRight_seven (value : Nat) :
    (value ^^^ (value % 0x80 + 0x80)) >>> 7 = value >>> 7 ^^^ 1 := by
  have hbyte : (value % 0x80 + 0x80) / 2 ^ 7 = 1 := by omega
  rw [Nat.shiftRight_eq_div_pow, Nat.shiftRight_eq_div_pow, Nat.xor_div_two_pow, hbyte]

theorem xor_one_lt_two_pow_iff {n m : Nat} (hm : m ≠ 0) : n ^^^ 1 < 2 ^ m ↔ n < 2 ^ m := by
  have hone : 1 < 2 ^ m := Nat.one_lt_two_pow hm
  constructor
  · intro h
    have hback := Nat.xor_lt_two_pow h hone
    rwa [Nat.xor_xor_cancel_right] at hback
  · exact fun h => Nat.xor_lt_two_pow h hone

/-- What the bytes behind the first have to make up fits into one byte less. -/
theorem shiftRight_xor_one_lt_iff {value extra : Nat} :
    value >>> 7 ^^^ 1 < 2 ^ (7 * (extra + 1)) ↔ value < 2 ^ (7 * (extra + 2)) := by
  have hpow : 2 ^ (7 * (extra + 2)) = 2 ^ (7 * (extra + 1)) * 2 ^ 7 := by
    rw [← Nat.pow_add]
    rfl
  rw [xor_one_lt_two_pow_iff (by omega), Nat.shiftRight_eq_div_pow,
    Nat.div_lt_iff_lt_mul (by decide), hpow]

-- ---------------------------------------------------------------------------
-- Reading
-- ---------------------------------------------------------------------------

theorem readWithin_spellIn {budget extra value : Nat} (hbudget : extra < budget)
    (hvalue : value < 2 ^ (7 * (extra + 1))) (suffix : List UInt8) :
    readWithin budget (spellIn extra value ++ suffix) = .ok ⟨value, extra + 1⟩ := by
  obtain ⟨rest, rfl⟩ := Nat.exists_eq_add_one_of_ne_zero (Nat.ne_zero_of_lt hbudget)
  induction extra generalizing rest value with
  | zero =>
    have hbyte : (UInt8.ofNat value).toNat = value :=
      UInt8.toNat_ofNat_of_lt (show value < 0x100 by omega)
    have hlast : UInt8.ofNat value < 0x80 := by
      rw [UInt8.lt_iff_toNat_lt, hbyte]
      exact hvalue
    simp [spellIn, readWithin, hlast, hbyte]
  | succ extra ih =>
    have hbyte : (UInt8.ofNat (value % 0x80 + 0x80)).toNat = value % 0x80 + 0x80 :=
      UInt8.toNat_ofNat_of_lt (show _ < 0x100 by omega)
    have hmore : ¬ UInt8.ofNat (value % 0x80 + 0x80) < 0x80 := by
      rw [UInt8.lt_iff_toNat_lt, hbyte]
      exact Nat.not_lt.mpr (Nat.le_add_left _ _)
    have hjoin : (value % 0x80 + 0x80) ^^^ (value >>> 7 ^^^ 1) <<< 7 = value :=
      (xor_shiftLeft_eq_iff (by omega) (by omega)).mpr ⟨rfl, rfl⟩
    obtain ⟨rest, rfl⟩ := Nat.exists_eq_add_one_of_ne_zero (by omega : rest ≠ 0)
    have htail := ih (shiftRight_xor_one_lt_iff.mpr hvalue) rest (by omega)
    rw [spellIn, List.cons_append, readWithin, if_neg hmore, htail]
    simp only [hbyte, hjoin]

/-- Whatever is read is one of these spellings. -/
theorem exists_of_readWithin {budget : Nat} {bytes : List UInt8} {r : Reading}
    (h : readWithin budget bytes = .ok r) :
    ∃ extra < budget, r.width = extra + 1 ∧ r.value < 2 ^ (7 * (extra + 1)) ∧
      spellIn extra r.value <+: bytes := by
  induction budget generalizing bytes r with
  | zero => cases h
  | succ budget ih =>
    cases bytes with
    | nil => cases h
    | cons b bs =>
      unfold readWithin at h
      split at h
      · rename_i hlast
        cases h
        refine ⟨0, Nat.succ_pos _, rfl, hlast, bs, ?_⟩
        simp [spellIn]
      · rename_i hmore
        split at h
        · rename_i tail htail
          cases h
          obtain ⟨extra, hextra, hwidth, hvalue, hstart⟩ := ih htail
          have hlow : 0x80 ≤ b.toNat := Nat.not_lt.mp hmore
          obtain ⟨hbyte, hrest⟩ := (xor_shiftLeft_eq_iff hlow b.toNat_lt).mp rfl
          refine ⟨extra + 1, by omega, by rw [hwidth], ?_, ?_⟩
          · rw [← shiftRight_xor_one_lt_iff, ← hrest]
            exact hvalue
          · have hfirst : UInt8.ofNat ((b.toNat ^^^ tail.value <<< 7) % 0x80 + 0x80) = b := by
              rw [← hbyte, UInt8.ofNat_toNat]
            rw [spellIn, hfirst, ← hrest, List.prefix_cons_inj]
            exact hstart
        · cases h

theorem lt_two_pow_of_extra_lt {value extra budget : Nat} (hextra : extra < budget)
    (hvalue : value < 2 ^ (7 * (extra + 1))) : value < 2 ^ (7 * budget) :=
  hvalue.trans_le (Nat.pow_le_pow_right (by decide) (Nat.mul_le_mul_left 7 hextra))

theorem value_lt_of_readWithin {budget : Nat} {bytes : List UInt8} {r : Reading}
    (h : readWithin budget bytes = .ok r) : r.value < 2 ^ (7 * budget) := by
  obtain ⟨extra, hextra, -, hvalue, -⟩ := exists_of_readWithin h
  exact lt_two_pow_of_extra_lt hextra hvalue

-- ---------------------------------------------------------------------------
-- The shortest spelling
-- ---------------------------------------------------------------------------

/-- A value takes `extra + 1` bytes and no fewer. -/
def Takes (value extra : Nat) : Prop :=
  value < 2 ^ (7 * (extra + 1)) ∧ (extra = 0 ∨ 2 ^ (7 * extra) ≤ value)

theorem exists_takes {value most : Nat} (h : value < 2 ^ (7 * (most + 1))) :
    ∃ extra ≤ most, Takes value extra := by
  induction most with
  | zero => exact ⟨0, le_rfl, h, .inl rfl⟩
  | succ most ih =>
    by_cases hless : value < 2 ^ (7 * (most + 1))
    · obtain ⟨extra, hextra, htakes⟩ := ih hless
      exact ⟨extra, by omega, htakes⟩
    · exact ⟨most + 1, le_rfl, h, .inr (Nat.not_lt.mp hless)⟩

theorem Takes.le {value extra extra' : Nat} (h : Takes value extra)
    (hvalue : value < 2 ^ (7 * (extra' + 1))) : extra ≤ extra' := by
  rcases h.2 with rfl | hleast
  · exact Nat.zero_le _
  · have hpow := (Nat.pow_lt_pow_iff_right (by decide)).mp (hleast.trans_lt hvalue)
    omega

theorem Takes.shiftRight {value extra : Nat} (h : Takes value (extra + 1)) :
    ¬ value < 0x80 ∧ Takes (value >>> 7 ^^^ 1) extra := by
  obtain ⟨hfits, hzero | hleast⟩ := h
  · cases hzero
  · have hpow : 2 ^ 7 ≤ 2 ^ (7 * (extra + 1)) := Nat.pow_le_pow_right (by decide) (by omega)
    refine ⟨by omega, shiftRight_xor_one_lt_iff.mpr hfits, ?_⟩
    cases extra with
    | zero => exact .inl rfl
    | succ extra =>
      right
      rw [← Nat.not_lt] at hleast ⊢
      rwa [shiftRight_xor_one_lt_iff]

theorem spellWithin_succ {budget value : Nat} (h : ¬ value < 0x80) :
    spellWithin (budget + 1) value =
      (spellWithin budget (value >>> 7 ^^^ 1)).map (UInt8.ofNat (value % 0x80 + 0x80) :: ·) := by
  rw [spellWithin, if_neg h, ← xor_shiftRight_seven]

theorem Takes.spellWithin_eq {budget value extra : Nat} (h : Takes value extra)
    (hbudget : extra < budget) : spellWithin budget value = some (spellIn extra value) := by
  obtain ⟨rest, rfl⟩ := Nat.exists_eq_add_one_of_ne_zero (Nat.ne_zero_of_lt hbudget)
  induction extra generalizing rest value with
  | zero =>
    have hlast : value < 0x80 := h.1
    simp [spellWithin, spellIn, hlast]
  | succ extra ih =>
    obtain ⟨hmore, htakes⟩ := h.shiftRight
    obtain ⟨rest, rfl⟩ := Nat.exists_eq_add_one_of_ne_zero (by omega : rest ≠ 0)
    have htail := ih htakes rest (by omega)
    rw [spellWithin_succ hmore, htail]
    rfl

theorem spellWithin_eq_none {budget value : Nat} (h : 2 ^ (7 * budget) ≤ value) :
    spellWithin budget value = none := by
  induction budget generalizing value with
  | zero => rfl
  | succ budget ih =>
    have hpow : 2 ^ 7 ≤ 2 ^ (7 * (budget + 1)) := Nat.pow_le_pow_right (by decide) (by omega)
    have hrest : spellWithin budget (value >>> 7 ^^^ 1) = none := by
      cases budget with
      | zero => rfl
      | succ budget =>
        apply ih
        rw [← Nat.not_lt] at h ⊢
        rwa [shiftRight_xor_one_lt_iff]
    rw [spellWithin_succ (by omega), hrest]
    rfl

theorem exists_spell?_eq {value : Nat} (h : value < 2 ^ 35) :
    ∃ extra < maxWidth, Takes value extra ∧ spell? value = some (spellIn extra value) := by
  obtain ⟨extra, hextra, htakes⟩ := exists_takes (show value < 2 ^ (7 * (4 + 1)) from h)
  have hwidth : extra < maxWidth := Nat.lt_succ_of_le hextra
  exact ⟨extra, hwidth, htakes, htakes.spellWithin_eq hwidth⟩

theorem spell?_eq_none_iff {value : Nat} : spell? value = none ↔ 2 ^ 35 ≤ value := by
  constructor
  · intro hnone
    by_contra hless
    obtain ⟨extra, -, -, hsome⟩ := exists_spell?_eq (Nat.not_le.mp hless)
    rw [hnone] at hsome
    cases hsome
  · exact fun hlarge => spellWithin_eq_none (show 2 ^ (7 * maxWidth) ≤ value from hlarge)

theorem Takes.unique {value extra extra' : Nat} (h : Takes value extra) (h' : Takes value extra') :
    extra = extra' :=
  Nat.le_antisymm (h.le h'.1) (h'.le h.1)

/-- The last of several bytes is one if and only if the bytes in front of it would have been enough. -/
theorem getLast?_spellIn_eq_some_one_iff {extra value : Nat} (h : value < 2 ^ (7 * (extra + 2))) :
    (spellIn (extra + 1) value).getLast? = some 1 ↔ value < 2 ^ (7 * (extra + 1)) := by
  induction extra generalizing value with
  | zero =>
    have hrest : value >>> 7 ^^^ 1 < 0x80 := shiftRight_xor_one_lt_iff.mpr h
    have hbyte : (UInt8.ofNat (value >>> 7 ^^^ 1)).toNat = value >>> 7 ^^^ 1 :=
      UInt8.toNat_ofNat_of_lt (show _ < 0x100 by omega)
    have hzero : value >>> 7 ^^^ 1 = 0 ^^^ 1 ↔ value >>> 7 = 0 := Nat.xor_left_inj
    simp only [spellIn, List.getLast?_cons_cons, List.getLast?_singleton, Option.some.injEq,
      ← UInt8.toNat_inj, hbyte]
    refine hzero.trans ?_
    rw [Nat.shiftRight_eq_div_pow]
    omega
  | succ extra ih =>
    have hcons : (spellIn (extra + 2) value).getLast? =
        (spellIn (extra + 1) (value >>> 7 ^^^ 1)).getLast? := rfl
    rw [hcons, ih (shiftRight_xor_one_lt_iff.mpr h), shiftRight_xor_one_lt_iff]

theorem takes_iff_getLast? {extra value : Nat} (h : value < 2 ^ (7 * (extra + 1))) :
    Takes value extra ↔
      (spellIn extra value).length = 1 ∨ (spellIn extra value).getLast? ≠ some 1 := by
  rw [length_spellIn]
  cases extra with
  | zero => simpa [Takes] using h
  | succ extra =>
    rw [Ne, getLast?_spellIn_eq_some_one_iff h, Nat.not_lt]
    simp [Takes, h]

-- ---------------------------------------------------------------------------
-- Operands of a stream
-- ---------------------------------------------------------------------------

theorem read_eq_ok_iff {bytes : List UInt8} {r : Reading} :
    read bytes = .ok r ↔ ∃ extra < maxWidth, r.width = extra + 1 ∧
      r.value < 2 ^ (7 * (extra + 1)) ∧ spellIn extra r.value <+: bytes := by
  constructor
  · exact exists_of_readWithin
  · rintro ⟨extra, hextra, hwidth, hvalue, suffix, rfl⟩
    rw [read, readWithin_spellIn hextra hvalue, ← hwidth]

theorem readAt_eq_ok_iff {code : List UInt8} {pos value next : Nat} :
    readAt code pos = .ok (value, next) ↔ ∃ extra < maxWidth, next = pos + (extra + 1) ∧
      value < 2 ^ (7 * (extra + 1)) ∧ spellIn extra value <+: code.drop pos := by
  unfold readAt
  cases h : read (code.drop pos) with
  | ok r =>
    obtain ⟨extra, hextra, hwidth, hvalue, hstart⟩ := read_eq_ok_iff.mp h
    simp only [Except.ok.injEq, Prod.mk.injEq]
    constructor
    · rintro ⟨rfl, rfl⟩
      exact ⟨extra, hextra, by rw [hwidth], hvalue, hstart⟩
    · rintro ⟨extra', hextra', rfl, hvalue', hstart'⟩
      have hread : read (code.drop pos) = .ok ⟨value, extra' + 1⟩ :=
        read_eq_ok_iff.mpr ⟨extra', hextra', rfl, hvalue', hstart'⟩
      rw [h] at hread
      cases hread
      exact ⟨rfl, rfl⟩
  | error fault =>
    simp only [reduceCtorEq, false_iff]
    rintro ⟨extra, hextra, -, hvalue, hstart⟩
    have hread : read (code.drop pos) = .ok ⟨value, extra + 1⟩ :=
      read_eq_ok_iff.mpr ⟨extra, hextra, rfl, hvalue, hstart⟩
    rw [h] at hread
    cases hread

theorem readAt_zero_eq_ok_iff {bytes : List UInt8} {value : Nat} :
    readAt bytes 0 = .ok (value, bytes.length) ↔
      ∃ extra < maxWidth, value < 2 ^ (7 * (extra + 1)) ∧ bytes = spellIn extra value := by
  rw [readAt_eq_ok_iff]
  simp only [Nat.zero_add, List.drop_zero]
  constructor
  · rintro ⟨extra, hextra, hlength, hvalue, hstart⟩
    refine ⟨extra, hextra, hvalue, (hstart.eq_of_length ?_).symm⟩
    rw [length_spellIn, hlength]
  · rintro ⟨extra, hextra, hvalue, rfl⟩
    exact ⟨extra, hextra, length_spellIn extra value, hvalue, List.prefix_rfl⟩

theorem write_apply (value : Nat) (out : List UInt8) :
    write value out = match spell? value with
      | some spelling => .ok () (out ++ spelling)
      | none => .error (.operandTooLarge value) out := by
  unfold write
  cases spell? value <;> rfl

theorem append_eq (code : List UInt8) (value : Nat) :
    append code value = match spell? value with
      | some spelling => .ok (code ++ spelling)
      | none => .error (.operandTooLarge value) := by
  rw [append, write_apply]
  cases spell? value <;> rfl

/--
Writing an operand succeeds exactly for the values below `2 ^ 35`. It then adds one to five bytes to
the stream, and these are read where they stand as this value, whatever follows them. For any other
value the fault names the value, and the stream is left as it was.
-/
theorem readAt_write (value : Nat) :
    (∀ out, (∃ longer, (write value).run out = .ok () longer) ↔ value < 2 ^ 35) ∧
    (value < 2 ^ 35 → ∃ spelling, 1 ≤ spelling.length ∧ spelling.length ≤ 5 ∧
      ∀ out, (write value).run out = .ok () (out ++ spelling) ∧
        ∀ suffix, readAt (out ++ spelling ++ suffix) out.length =
          .ok (value, out.length + spelling.length)) ∧
    (2 ^ 35 ≤ value → ∀ out, (write value).run out = .error (.operandTooLarge value) out) := by
  refine ⟨fun out => ?domain, fun hvalue => ?spelled, fun hvalue out => ?refused⟩
  case domain =>
    rw [EStateM.run, write_apply, ← Nat.not_le, ← spell?_eq_none_iff]
    cases spell? value <;> simp
  case spelled =>
    obtain ⟨extra, hextra, htakes, hspell⟩ := exists_spell?_eq hvalue
    have hwidth : (spellIn extra value).length ≤ maxWidth := by
      rw [length_spellIn]
      exact hextra
    refine ⟨spellIn extra value, by simp, hwidth, fun out => ⟨?_, fun suffix => ?_⟩⟩
    · rw [EStateM.run, write_apply, hspell]
    · rw [readAt_eq_ok_iff]
      refine ⟨extra, hextra, by simp, htakes.1, suffix, ?_⟩
      rw [List.append_assoc, List.drop_left]
  case refused =>
    rw [EStateM.run, write_apply, spell?_eq_none_iff.mpr hvalue]

theorem readAt_write_three_bytes :
    ((write 0x4000).run [7] = .ok () [7, 0x80, 0x81, 0x00] ∧
      readAt [7, 0x80, 0x81, 0x00, 0xff] 1 = .ok (0x4000, 4)) ∧
    (write (2 ^ 35)).run [7] = .error (.operandTooLarge (2 ^ 35)) [7] := by
  refine ⟨?_, (readAt_write (2 ^ 35)).2.2 le_rfl [7]⟩
  obtain ⟨spelling, -, -, hspelling⟩ := (readAt_write 0x4000).2.1 (by decide)
  obtain ⟨hwrite, hread⟩ := hspelling [7]
  have hbytes : spelling = [0x80, 0x81, 0x00] := by
    have hrun : (write 0x4000).run [7] = .ok () ([7] ++ [0x80, 0x81, 0x00]) := by cbv
    rw [hrun] at hwrite
    injection hwrite with _ happend
    exact (List.append_cancel_left happend).symm
  subst hbytes
  exact ⟨hwrite, hread [0xff]⟩

/--
Bytes that are one operand are no shorter than what its value is written as. They are what it is
written as if and only if they are no longer, and if and only if they are a single byte or do not end
in the byte one. No other bytes of this length have the value.
-/
theorem write_tfae_of_readAt {bytes : List UInt8} {value : Nat}
    (h : readAt bytes 0 = .ok (value, bytes.length)) :
    value < 2 ^ 35 ∧
    (∃ spelling, (write value).run [] = .ok () spelling ∧ spelling.length ≤ bytes.length ∧
      [spelling = bytes, spelling.length = bytes.length,
        bytes.length = 1 ∨ bytes.getLast? ≠ some 0x01].TFAE) ∧
    ∀ bytes', readAt bytes' 0 = .ok (value, bytes'.length) → bytes'.length = bytes.length →
      bytes' = bytes := by
  obtain ⟨extra, hextra, hvalue, rfl⟩ := readAt_zero_eq_ok_iff.mp h
  have hdomain : value < 2 ^ 35 := lt_two_pow_of_extra_lt hextra hvalue
  obtain ⟨least, -, htakes, hspell⟩ := exists_spell?_eq hdomain
  have hwrite : (write value).run [] = .ok () (spellIn least value) := by
    rw [EStateM.run, write_apply, hspell]
    rfl
  refine ⟨hdomain, ⟨spellIn least value, hwrite, ?_, ?_⟩, ?_⟩
  · rw [length_spellIn, length_spellIn]
    exact Nat.succ_le_succ (htakes.le hvalue)
  · have hwidth : (spellIn least value).length = (spellIn extra value).length ↔ least = extra := by
      rw [length_spellIn, length_spellIn, Nat.add_left_inj]
    have htakes_iff : Takes value extra ↔ least = extra :=
      ⟨htakes.unique, fun heq => heq ▸ htakes⟩
    tfae_have 1 → 2 := congrArg List.length
    tfae_have 2 → 1 := fun hlength => by rw [hwidth.mp hlength]
    tfae_have 2 ↔ 3 := by rw [hwidth, ← htakes_iff, takes_iff_getLast? hvalue]
    tfae_finish
  · intro bytes' h' hlength
    obtain ⟨extra', -, -, rfl⟩ := readAt_zero_eq_ok_iff.mp h'
    rw [length_spellIn, length_spellIn, Nat.add_left_inj] at hlength
    rw [hlength]

theorem write_tfae_of_readAt_redundant :
    (readAt [0xff, 0x00] 0 = .ok (0xff, 2) ∧ (write 0xff).run [] = .ok () [0xff, 0x00]) ∧
    (readAt [0xff, 0x80, 0x01] 0 = .ok (0xff, 3) ∧
      ∃ spelling, (write 0xff).run [] = .ok () spelling ∧ spelling.length < 3) := by
  have hshort : readAt [0xff, 0x00] 0 = .ok (0xff, 2) := by cbv
  have hlong : readAt [0xff, 0x80, 0x01] 0 = .ok (0xff, 3) := by cbv
  refine ⟨⟨hshort, ?_⟩, hlong, ?_⟩
  · obtain ⟨-, ⟨spelling, hwrite, -, htfae⟩, -⟩ := write_tfae_of_readAt hshort
    have hspelling : spelling = [0xff, 0x00] := (htfae.out 2 0).mp (Or.inr (by decide))
    rw [hwrite, hspelling]
  · obtain ⟨-, ⟨spelling, hwrite, hle, htfae⟩, -⟩ := write_tfae_of_readAt hlong
    have hequal := htfae.out 1 2
    have hne : spelling.length ≠ 3 := fun heq => absurd (hequal.mp heq) (by decide)
    exact ⟨spelling, hwrite, Nat.lt_of_le_of_ne hle hne⟩

end Bytecode.Operand
