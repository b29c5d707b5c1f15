-- SUMMARY: Where operands end: how the bytes with their high bit set decide what is read, and which bytes are looked at.
import Bytecode.Proofs.Operand

/-!
# The extent of operands

Bytes with their high bit set say that the operand goes on. The number of these at the front of a
stream, counted as far as an operand may go, decides whether an operand is too long, runs past the end
or is read, and how many bytes are looked at. The other bytes of the stream have no part in it.
-/

namespace Bytecode.Operand

/-- The number of bytes at the front that have their high bit set, of the first `budget` bytes. -/
def highWithin (budget : Nat) (bytes : List UInt8) : Nat :=
  ((bytes.take budget).takeWhile (0x80 ≤ ·)).length

/-- The exclusive or of the bytes, each shifted left by seven times its place. -/
def combined (bytes : List UInt8) : Nat :=
  (bytes.zipIdx.map fun (b, j) => b.toNat <<< (7 * j)).foldr (· ^^^ ·) 0

section Laws

variable {budget : Nat} {b : UInt8} {bs bytes bytes' : List UInt8}

@[simp] theorem highWithin_zero (bytes : List UInt8) : highWithin 0 bytes = 0 := by
  simp [highWithin]

@[simp] theorem highWithin_nil (budget : Nat) : highWithin budget [] = 0 := by
  simp [highWithin]

theorem highWithin_of_last (h : b < 0x80) : highWithin (budget + 1) (b :: bs) = 0 := by
  have hnot : ¬ 0x80 ≤ b := UInt8.not_le.mpr h
  simp [highWithin, hnot]

theorem highWithin_of_more (h : ¬ b < 0x80) :
    highWithin (budget + 1) (b :: bs) = highWithin budget bs + 1 := by
  have hmore : 0x80 ≤ b := UInt8.not_lt.mp h
  simp [highWithin, hmore]

theorem highWithin_le (budget : Nat) (bytes : List UInt8) : highWithin budget bytes ≤ budget :=
  (List.takeWhile_prefix _).length_le.trans (List.length_take_le _ _)

theorem highWithin_le_length (budget : Nat) (bytes : List UInt8) :
    highWithin budget bytes ≤ bytes.length :=
  (List.takeWhile_prefix _).length_le.trans (List.length_take_le' _ _)

theorem foldr_xor_shiftLeft (values : List Nat) (n : Nat) :
    (values.map (· <<< n)).foldr (· ^^^ ·) 0 = values.foldr (· ^^^ ·) 0 <<< n := by
  induction values with
  | nil => simp
  | cons value rest ih => rw [List.map_cons, List.foldr_cons, ih, List.foldr_cons, Nat.shiftLeft_xor_distrib]

theorem combined_cons (b : UInt8) (bs : List UInt8) :
    combined (b :: bs) = b.toNat ^^^ combined bs <<< 7 := by
  have hplaces : ((bs.zipIdx.map (Prod.map id (· + 1))).map fun (c, j) => c.toNat <<< (7 * j)) =
      (bs.zipIdx.map fun (c, j) => c.toNat <<< (7 * j)).map (· <<< 7) := by
    rw [List.map_map, List.map_map]
    refine List.map_congr_left fun (c, j) _ => ?_
    exact Nat.shiftLeft_add c.toNat (7 * j) 7
  rw [combined, List.zipIdx_cons', List.map_cons, List.foldr_cons, hplaces, foldr_xor_shiftLeft]
  rfl

/-- What is read: the first `highWithin` bytes and the one behind them, if there is room for them. -/
theorem readWithin_eq (budget : Nat) (bytes : List UInt8) :
    readWithin budget bytes =
      if highWithin budget bytes = budget then .error .tooLong
      else if bytes.length ≤ highWithin budget bytes then .error .truncated
      else .ok ⟨combined (bytes.take (highWithin budget bytes + 1)), highWithin budget bytes + 1⟩ := by
  induction budget generalizing bytes with
  | zero => simp [readWithin]
  | succ budget ih =>
    cases bytes with
    | nil => simp [readWithin]
    | cons b bs =>
      by_cases hlast : b < 0x80
      · simp [readWithin, hlast, highWithin_of_last hlast, combined]
      · rw [readWithin, if_neg hlast, ih, highWithin_of_more hlast]
        simp only [Nat.add_right_cancel_iff, List.length_cons, Nat.add_le_add_iff_right,
          List.take_succ_cons, combined_cons]
        split_ifs <;> rfl

/-- Bytes that are not looked at have no part in what is read, unless the bytes run out. -/
theorem readWithin_congr (h : readWithin budget bytes ≠ .error .truncated)
    (hbytes : ∀ j ≤ highWithin budget bytes, j < budget → bytes'[j]? = bytes[j]?) :
    readWithin budget bytes' = readWithin budget bytes := by
  induction budget generalizing bytes bytes' with
  | zero => rfl
  | succ budget ih =>
    cases bytes with
    | nil => exact absurd rfl h
    | cons b bs =>
      have hfirst : bytes'[0]? = some b := hbytes 0 (Nat.zero_le _) (Nat.succ_pos _)
      cases bytes' with
      | nil => cases hfirst
      | cons b' bs' =>
        obtain rfl := Option.some.inj hfirst
        by_cases hlast : b' < 0x80
        · simp only [readWithin, if_pos hlast]
        · rw [highWithin_of_more hlast] at hbytes
          have hrest : readWithin budget bs ≠ .error .truncated := by
            intro herror
            simp [readWithin, hlast, herror] at h
          have hread := ih hrest fun j hj hlt =>
            hbytes (j + 1) (Nat.succ_le_succ hj) (Nat.succ_lt_succ hlt)
          simp only [readWithin, if_neg hlast, hread]

end Laws

-- ---------------------------------------------------------------------------
-- Operands at a position
-- ---------------------------------------------------------------------------

/-- The number of bytes from a position on that have their high bit set, of those an operand may take. -/
def highRun (code : List UInt8) (pos : Nat) : Nat := highWithin maxWidth (code.drop pos)

theorem readAt_eq_highRun (code : List UInt8) (pos : Nat) :
    readAt code pos =
      if highRun code pos = maxWidth then .error (.operandTooLong pos)
      else if code.length ≤ pos + highRun code pos then .error (.truncatedOperand pos)
      else .ok (combined ((code.drop pos).take (highRun code pos + 1)), pos + highRun code pos + 1) := by
  have hroom : (code.drop pos).length ≤ highRun code pos ↔ code.length ≤ pos + highRun code pos := by
    rw [List.length_drop, Nat.sub_le_iff_le_add']
  rw [readAt, read, readWithin_eq, ← highRun]
  simp only [hroom]
  split_ifs <;> rfl

theorem value_lt_of_readAt {code : List UInt8} {pos value next : Nat}
    (h : readAt code pos = .ok (value, next)) : value < 2 ^ 35 := by
  obtain ⟨extra, hextra, -, hvalue, -⟩ := readAt_eq_ok_iff.mp h
  exact lt_two_pow_of_extra_lt hextra hvalue

theorem readAt_congr {code code' : List UInt8} {pos : Nat}
    (h : readAt code pos ≠ .error (.truncatedOperand pos))
    (hbytes : ∀ j ≤ highRun code pos, j < maxWidth → code'[pos + j]? = code[pos + j]?) :
    readAt code' pos = readAt code pos := by
  have hread : read (code.drop pos) ≠ .error .truncated := by
    intro herror
    rw [readAt, herror] at h
    exact h rfl
  have hcongr : read (code'.drop pos) = read (code.drop pos) := by
    refine readWithin_congr hread fun j hj hlt => ?_
    rw [List.getElem?_drop, List.getElem?_drop]
    exact hbytes j hj hlt
  rw [readAt, hcongr, readAt]

/--
Five bytes with their high bit set are an operand that is too long. After fewer of them there has to be
one more byte, or the operand runs past the end; if it is there, the operand ends with it, and its value
is the exclusive or of all its bytes, each shifted to its place. Unless the operand runs past the end,
no byte but these has a part in the result, whether it stands in front, stands behind or is added.
-/
theorem readAt_classified (code : List UInt8) (pos : Nat) :
    (readAt code pos = .error (.operandTooLong pos) ↔ highRun code pos = 5) ∧
    (readAt code pos = .error (.truncatedOperand pos) ↔
      highRun code pos < 5 ∧ code.length ≤ pos + highRun code pos) ∧
    (highRun code pos < 5 → pos + highRun code pos < code.length →
      ∃ value, readAt code pos = .ok (value, pos + highRun code pos + 1) ∧
        pos + highRun code pos + 1 ≤ code.length ∧ value < 2 ^ 35 ∧
        value = combined ((code.drop pos).take (highRun code pos + 1))) ∧
    (readAt code pos ≠ .error (.truncatedOperand pos) →
      (∀ code' : List UInt8,
        (∀ j ≤ highRun code pos, j < 5 → code'[pos + j]? = code[pos + j]?) →
          readAt code' pos = readAt code pos) ∧
      ∀ suffix, readAt (code ++ suffix) pos = readAt code pos) := by
  have hwidth : highRun code pos ≤ 5 := highWithin_le maxWidth _
  have hlength : highRun code pos ≤ code.length - pos := by
    rw [← List.length_drop]
    exact highWithin_le_length maxWidth _
  have hread : readAt code pos =
      if highRun code pos = 5 then .error (.operandTooLong pos)
      else if code.length ≤ pos + highRun code pos then .error (.truncatedOperand pos)
      else .ok (combined ((code.drop pos).take (highRun code pos + 1)), pos + highRun code pos + 1) :=
    readAt_eq_highRun code pos
  have htruncated : readAt code pos = .error (.truncatedOperand pos) ↔
      highRun code pos < 5 ∧ code.length ≤ pos + highRun code pos := by
    rw [hread]
    split_ifs with hlong hroom
    · simp [hlong]
    · simpa [hroom] using Nat.lt_of_le_of_ne hwidth hlong
    · simp [hroom]
  refine ⟨?tooLong, htruncated, fun hless hroom => ?read, fun hnot => ⟨fun code' => ?changed, ?extended⟩⟩
  case tooLong =>
    rw [hread]
    split_ifs with hlong hroom <;> simp [hlong]
  case read =>
    rw [if_neg (Nat.ne_of_lt hless), if_neg (Nat.not_le.mpr hroom)] at hread
    exact ⟨_, hread, hroom, value_lt_of_readAt hread, rfl⟩
  case changed => exact readAt_congr hnot
  case extended =>
    intro suffix
    refine readAt_congr hnot fun j hj hlt => List.getElem?_append_left ?_
    rw [Ne, htruncated] at hnot
    change j < 5 at hlt
    omega

/-- An operand of two bytes between others. -/
theorem readAt_classified_two_bytes :
    (highRun [0x00, 0x81, 0x02, 0xff] 1 = 1 ∧ highRun [0x80, 0x80, 0x80, 0x80, 0x80] 0 = 5) ∧
    readAt [0x00, 0x81, 0x02, 0xff] 1 = .ok (0x181, 3) ∧
    readAt [0xff, 0x81, 0x02] 1 = .ok (0x181, 3) ∧
    readAt ([0x00, 0x81, 0x02, 0xff] ++ [0x05]) 1 = .ok (0x181, 3) ∧
    readAt [0x80, 0x80, 0x80, 0x80, 0x80] 0 = .error (.operandTooLong 0) := by
  have hrun : highRun [0x00, 0x81, 0x02, 0xff] 1 = 1 := by decide
  have hlong : highRun [0x80, 0x80, 0x80, 0x80, 0x80] 0 = 5 := by decide
  obtain ⟨-, -, hread, hlocal⟩ := readAt_classified [0x00, 0x81, 0x02, 0xff] 1
  rw [hrun] at hread hlocal
  obtain ⟨value, hok, -, -, rfl⟩ := hread (by decide) (by decide)
  obtain ⟨hchanged, hextended⟩ := hlocal (by simp [hok])
  have hvalue : combined (([0x00, 0x81, 0x02, 0xff] : List UInt8).drop 1 |>.take 2) = 0x181 := by decide
  rw [hvalue] at hok
  refine ⟨⟨hrun, hlong⟩, hok, ?_, (hextended [0x05]).trans hok, (readAt_classified _ 0).1.mpr hlong⟩
  refine (hchanged [0xff, 0x81, 0x02] fun j hj _ => ?_).trans hok
  interval_cases j <;> rfl

end Bytecode.Operand
