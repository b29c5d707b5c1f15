-- SUMMARY: The stack check on streams that are put together, and on streams with a checkpoint put into them.
import Bytecode.Proofs.Concatenation

/-!
# Composition

An accepted stream ends at height zero. A stream behind it is therefore checked as it is on its own: the
same depth is found, or the same fault, further on. A checkpoint that is put into an accepted stream is
found wrong exactly if it names another height than the one there, and does nothing otherwise.
-/

namespace Bytecode

/-- The same fault, `k` bytes further on; what is left over at the end has no place. -/
def StackError.shift (k : Nat) : StackError → StackError
  | .underflow offset opcode depth => .underflow (offset + k) opcode depth
  | .checkpointMismatch offset expected actual => .checkpointMismatch (offset + k) expected actual
  | .unbalanced depth => .unbalanced depth

/-- The same fault, `k` bytes further on. -/
def BuildError.shift (k : Nat) : BuildError → BuildError
  | .instruction cause => .instruction (cause.shift k)
  | .stack cause => .stack (cause.shift k)

namespace StackHeight

-- ---------------------------------------------------------------------------
-- Further on, and above an earlier peak
-- ---------------------------------------------------------------------------

/-- The same height where `peak` has been reached before. -/
def above (peak : Int64) (h : StackHeight) : StackHeight :=
  { h with peak := if h.peak < peak then peak else h.peak }

@[simp] theorem current_above (peak : Int64) (h : StackHeight) :
    (h.above peak).current = h.current := rfl

theorem toInt_if_lt (a b : Int64) : (if a < b then b else a).toInt = max a.toInt b.toInt := by
  split
  · rename_i hlt
    rw [max_eq_right (Int64.lt_iff_toInt_lt.mp hlt).le]
  · rename_i hle
    rw [Int64.lt_iff_toInt_lt, not_lt] at hle
    rw [max_eq_left hle]

theorem toInt_peak_above (peak : Int64) (h : StackHeight) :
    (h.above peak).peak.toInt = max h.peak.toInt peak.toInt := toInt_if_lt h.peak peak

/-- Neither an offset nor an earlier peak counts in whether an instruction passes. -/
theorem pass_above_shift (peak : Int64) (k : Nat) (h : StackHeight) (i : Instruction) :
    (h.above peak).pass (i.shift k) =
      match h.pass i with
      | .ok h' => .ok (h'.above peak)
      | .error e => .error (e.shift k) := by
  have hpeak : ∀ current : Int64,
      (if (h.above peak).peak < current then current else (h.above peak).peak) =
        (above peak ⟨current, if h.peak < current then current else h.peak⟩).peak := by
    intro current
    rw [← Int64.toInt_inj, toInt_if_lt, toInt_peak_above, toInt_peak_above, toInt_if_lt]
    exact max_right_comm _ _ _
  unfold pass
  simp only [hpeak]
  by_cases hnamed : i.opcode = .checkstack ∧ h.current ≠ Int64.ofNat (i.operand.getD 0)
  · have hnamed' : (i.shift k).opcode = .checkstack ∧
        (h.above peak).current ≠ Int64.ofNat ((i.shift k).operand.getD 0) := hnamed
    rw [if_pos hnamed, if_pos hnamed']
    rfl
  · have hnamed' : ¬ ((i.shift k).opcode = .checkstack ∧
        (h.above peak).current ≠ Int64.ofNat ((i.shift k).operand.getD 0)) := hnamed
    rw [if_neg hnamed, if_neg hnamed']
    by_cases hsign : h.current + i.opcode.effect.apply (i.operand.getD 0) < 0
    · have hsign' : (h.above peak).current +
          (i.shift k).opcode.effect.apply ((i.shift k).operand.getD 0) < 0 := hsign
      rw [if_pos hsign, if_pos hsign']
      rfl
    · have hsign' : ¬ (h.above peak).current +
          (i.shift k).opcode.effect.apply ((i.shift k).operand.getD 0) < 0 := hsign
      rw [if_neg hsign, if_neg hsign']
      rfl

theorem passAll_above_shift (peak : Int64) (k : Nat) (h : StackHeight) (is : List Instruction) :
    (h.above peak).passAll (is.map (.shift k)) =
      match h.passAll is with
      | .ok h' => .ok (h'.above peak)
      | .error e => .error (e.shift k) := by
  induction is generalizing h with
  | nil => rfl
  | cons i is ih =>
    rw [List.map_cons, passAll_cons, passAll_cons, pass_above_shift]
    cases h.pass i with
    | error e => rfl
    | ok h' => exact ih h'

/-- The height behind an accepted stream is the one at the start, above the peak of the stream. -/
theorem eq_above_of_passAll {code : List UInt8} {last : StackHeight}
    (hrun : passAll {} (Listing.ofBytes code).instructions = .ok last) (hzero : last.current = 0) :
    0 ≤ last.peak.toInt ∧ last = above last.peak {} := by
  obtain ⟨h, hreached, -, hlast⟩ :=
    reached_of_passAll_eq_ok (fun _ => Listing.argument_lt_of_mem_ofBytesAt) hrun le_rfl
  rw [List.drop_length] at hlast
  cases hlast
  have hnonneg := hreached.peak.nonneg
  refine ⟨hnonneg, ?_⟩
  have hpeak : last.peak = (above last.peak {}).peak := by
    rw [← Int64.toInt_inj, toInt_peak_above]
    exact (max_eq_right hnonneg).symm
  have hcurrent : last.current = (above last.peak {}).current := hzero
  cases last
  exact congrArg₂ StackHeight.mk hcurrent hpeak

end StackHeight

-- ---------------------------------------------------------------------------
-- One stream behind another
-- ---------------------------------------------------------------------------

/--
A stream behind an accepted one needs its own depth or the depth of that one, whichever is greater. If it
is not accepted on its own, it is refused for the same reason, found as many bytes further on as the
accepted stream has.
-/
theorem stackDepth_append {a b : List UInt8} {depth : Nat} (h : stackDepth a = .ok depth) :
    stackDepth (a ++ b) =
      match stackDepth b with
      | .ok depth' => .ok (max depth depth')
      | .error e => .error (e.shift a.length) := by
  obtain ⟨last, hrun, hfault, hzero, rfl⟩ := Listing.stackDepth_eq_ok_iff.mp h
  obtain ⟨hnonneg, habove⟩ := StackHeight.eq_above_of_passAll hrun hzero
  have hboth : StackHeight.passAll {} (Listing.ofBytes (a ++ b)).instructions =
      match StackHeight.passAll {} (Listing.ofBytes b).instructions with
      | .ok h' => .ok (h'.above last.peak)
      | .error e => .error (e.shift a.length) := by
    rw [Listing.ofBytes_append hfault, ← StackHeight.passAll_above_shift, ← habove]
    simp only [Listing.behind, Listing.shift, StackHeight.passAll_append, hrun]
    rfl
  have hfaults : (Listing.ofBytes (a ++ b)).fault = (Listing.ofBytes b).fault.map (.shift a.length) := by
    rw [Listing.ofBytes_append hfault]
    rfl
  unfold stackDepth Listing.stackDepth
  rw [hboth, hfaults]
  cases StackHeight.passAll {} (Listing.ofBytes b).instructions with
  | error e => rfl
  | ok lastOfB =>
    cases (Listing.ofBytes b).fault with
    | some e => rfl
    | none =>
      by_cases hend : lastOfB.current = 0
      · simp only [Option.map_none, StackHeight.current_above, hend, if_true,
          StackHeight.toInt_peak_above]
        congr 1
        omega
      · simp only [Option.map_none, StackHeight.current_above, hend, if_false]
        rfl

theorem stackDepth_append_two_values :
    stackDepth [0x05, 0x04] = .ok 1 ∧
      stackDepth ([0x05, 0x04] ++ [0x40, 0, 0x40, 1, 0x20, 0x04]) = .ok 2 ∧
      stackDepth ([0x05, 0x04] ++ [0x05, 0x7f, 2]) = .error (.stack (.checkpointMismatch 3 2 1)) ∧
      stackDepth ([0x05, 0x04] ++ [0x40, 0x80]) = .error (.instruction (.truncatedOperand 3)) := by
  have hfirst : stackDepth [0x05, 0x04] = .ok 1 := by cbv
  have hdepth : stackDepth [0x40, 0, 0x40, 1, 0x20, 0x04] = .ok 2 := by cbv
  have hmismatch : stackDepth [0x05, 0x7f, 2] = .error (.stack (.checkpointMismatch 1 2 1)) := by cbv
  have htruncated : stackDepth [0x40, 0x80] = .error (.instruction (.truncatedOperand 1)) := by cbv
  refine ⟨hfirst, ?_, ?_, ?_⟩
  · rw [stackDepth_append hfirst, hdepth]
    rfl
  · rw [stackDepth_append hfirst, hmismatch]
    rfl
  · rw [stackDepth_append hfirst, htruncated]
    rfl

-- ---------------------------------------------------------------------------
-- Checkpoints
-- ---------------------------------------------------------------------------

/-- The step that writes a checkpoint. -/
def Step.checkpoint (height : Nat) : Step := ⟨.checkstack, some height⟩

/-- A checkpoint changes nothing, or names another height than the one it is met at. -/
theorem StackHeight.pass_checkpoint {h : StackHeight} {value : Nat} (hvalue : value < 2 ^ 35)
    (hnonneg : 0 ≤ h.current.toInt) (hpeak : h.current.toInt ≤ h.peak.toInt) (pos : Nat) :
    h.pass ((Step.checkpoint value).instruction pos) =
      if h.current.toInt = value then .ok h
      else .error (.checkpointMismatch pos value h.current) := by
  have hnamed : h.current = Int64.ofNat value ↔ h.current.toInt = value := by
    rw [← Int64.toInt_inj, toInt_ofNat_operand hvalue]
  have heffect : h.current + Opcode.checkstack.effect.apply value = h.current := Int64.add_zero _
  have hsign : ¬ h.current < 0 := by
    rw [Int64.lt_iff_toInt_lt, not_lt]
    exact hnonneg
  have hkept : ¬ h.peak < h.current := by
    rw [Int64.lt_iff_toInt_lt, not_lt]
    exact hpeak
  by_cases hequal : h.current.toInt = value
  · simp [pass, Step.instruction, Step.checkpoint, hnamed, heffect, hsign, hkept, hequal]
  · simp [pass, Step.instruction, Step.checkpoint, hnamed, hequal]

/--
A checkpoint with a height of up to five bytes can be put in front of every instruction of an accepted
stream, and at its end. If it names the height there, the stream needs the same depth as before. If not,
the check stops at it, and tells where it stands, what it names and what the height there is.
-/
theorem stackDepth_insert_checkpoint {code : List UInt8} {depth n value : Nat}
    (h : stackDepth code = .ok depth) (hn : n ≤ (Listing.ofBytes code).instructions.length)
    (hvalue : value < 2 ^ 35) :
    ∃ (bytes : List UInt8) (height : StackHeight),
      (Step.checkpoint value).encode = .ok bytes ∧
      StackHeight.passAll {} ((Listing.ofBytes code).instructions.take n) = .ok height ∧
      height.current.toInt = heightAt (Listing.ofBytes code).instructions n ∧
      let pos := Listing.boundary code n
      stackDepth (code.take pos ++ bytes ++ code.drop pos) =
        if height.current.toInt = value then .ok depth
        else .error (.stack (.checkpointMismatch pos value height.current)) := by
  obtain ⟨last, hrun, hfault, hzero, hdepth⟩ := Listing.stackDepth_eq_ok_iff.mp h
  have hargument : ∀ i ∈ (Listing.ofBytes code).instructions, i.argument < 2 ^ 35 :=
    fun _ => Listing.argument_lt_of_mem_ofBytesAt
  obtain ⟨height, hreached, hpasses, hrest⟩ :=
    StackHeight.reached_of_passAll_eq_ok hargument hrun hn
  obtain ⟨front, back, hcut⟩ := Listing.exists_cut hfault hn
  have hencode : (Step.checkpoint value).encode = .ok (Step.checkpoint value).bytes :=
    Step.encode_eq fun operand hoperand => by cases hoperand; exact hvalue
  have hnonneg : 0 ≤ height.current.toInt := by
    rw [hreached.current]
    exact hpasses.heightAt_nonneg hn
  have hpeak : height.current.toInt ≤ height.peak.toInt := by
    rw [hreached.current]
    exact hreached.peak.2 ⟨n, le_rfl, rfl⟩
  refine ⟨_, height, hencode, hreached.run, hreached.current, ?_⟩
  have htake : code.take (Listing.boundary code n) = front := by
    rw [← hcut.length_front, hcut.whole, List.take_left]
  have hdrop : code.drop (Listing.boundary code n) = back := by
    rw [← hcut.length_front, hcut.whole, List.drop_left]
  have hwf : (Step.checkpoint value).WellFormed := rfl
  have hlist := hcut.ofBytes_insert hwf hencode
  rw [hcut.length_front] at hlist
  have hpass := StackHeight.pass_checkpoint hvalue hnonneg hpeak (Listing.boundary code n)
  have hsplit : ∀ i is, StackHeight.passAll {} ((Listing.ofBytes code).instructions.take n ++ i :: is) =
      (height.pass i).bind fun h' => h'.passAll is := by
    intro i is
    rw [StackHeight.passAll_append, hreached.run]
    rfl
  simp only [htake, hdrop]
  by_cases hequal : height.current.toInt = value
  · rw [if_pos hequal] at hpass ⊢
    -- The instructions behind the checkpoint are the same steps as before, at other offsets.
    have hbehind : height.passAll (((Listing.ofBytes code).instructions.drop n).map
        (.shift (Step.checkpoint value).bytes.length)) = .ok last :=
      StackHeight.passAll_of_steps_eq (by rw [List.map_map]; rfl) hrest
    refine Listing.stackDepth_eq_ok_iff.mpr ⟨last, ?_, by rw [hlist], hzero, hdepth⟩
    rw [hlist, hsplit, hpass]
    exact hbehind
  · rw [if_neg hequal] at hpass ⊢
    unfold stackDepth Listing.stackDepth
    rw [hlist, hsplit, hpass]
    rfl

theorem stackDepth_insert_checkpoint_before_add :
    let code : List UInt8 := [0x40, 0, 0x40, 1, 0x20, 0x04]
    (stackDepth code = .ok 2 ∧ 2 ≤ (Listing.ofBytes code).instructions.length ∧ 0x4080 < 2 ^ 35) ∧
      stackDepth [0x40, 0, 0x40, 1, 0x7f, 2, 0x20, 0x04] = .ok 2 ∧
      stackDepth [0x40, 0, 0x40, 1, 0x7f, 0x80, 0x80, 0x00, 0x20, 0x04] =
        .error (.stack (.checkpointMismatch 4 0x4080 2)) := by
  intro code
  have hdepth : stackDepth code = .ok 2 := by cbv
  have hcount : 2 ≤ (Listing.ofBytes code).instructions.length := by cbv
  have hpos : Listing.boundary code 2 = 4 := by cbv
  have hheight : StackHeight.passAll {} ((Listing.ofBytes code).instructions.take 2) =
      .ok ⟨2, 2⟩ := by cbv
  have hnamed : (Step.checkpoint 2).encode = .ok [0x7f, 2] := by cbv
  have hother : (Step.checkpoint 0x4080).encode = .ok [0x7f, 0x80, 0x80, 0x00] := by cbv
  refine ⟨⟨hdepth, hcount, by decide⟩, ?_, ?_⟩
  · obtain ⟨bytes, height, hbytes, hrun, -, hresult⟩ :=
      stackDepth_insert_checkpoint hdepth hcount (show 2 < 2 ^ 35 by decide)
    cases hnamed.symm.trans hbytes
    cases hheight.symm.trans hrun
    rw [hpos] at hresult
    exact hresult
  · obtain ⟨bytes, height, hbytes, hrun, -, hresult⟩ :=
      stackDepth_insert_checkpoint hdepth hcount (show 0x4080 < 2 ^ 35 by decide)
    cases hother.symm.trans hbytes
    cases hheight.symm.trans hrun
    rw [hpos] at hresult
    exact hresult

end Bytecode
