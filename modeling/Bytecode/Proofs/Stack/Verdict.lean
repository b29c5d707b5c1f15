-- SUMMARY: The verdict of the stack check: what it says of a stream, in terms of the heights along it.
import Bytecode.Proofs.Stack.Heights

/-!
# The verdict of the stack check

`Listing.Verdict` says in terms of unbounded heights what the check makes of a listing: the greatest
height if everything is in order, else the first thing that is not. `stackDepth_eq_iff` says that the
check gives exactly this. A step lemma relates one instruction to its height, a run lemma the first
instructions of a stream to theirs.
-/

namespace Bytecode

/-- An instruction that is met at a height is in order. -/
structure Instruction.Passes (height : Int) (i : Instruction) : Prop where
  checkpoint : i.opcode = .checkstack → height = i.argument
  nonneg : 0 ≤ height + i.delta

/--
What is wrong with an instruction that is met at a height. A checkpoint that names another height is
found before the height after the instruction is looked at.
-/
inductive Instruction.Offends (height : Int) (i : Instruction) : StackError → Prop
  | checkpoint {actual : Int64} (hop : i.opcode = .checkstack) (hne : height ≠ i.argument)
      (hactual : actual.toInt = height) :
      Offends height i (.checkpointMismatch i.offset i.argument actual)
  | underflow {depth : Int64} (hcheckpoint : i.opcode = .checkstack → height = i.argument)
      (hneg : height + i.delta < 0) (hdepth : depth.toInt = height + i.delta) :
      Offends height i (.underflow i.offset i.opcode depth)

/-- The first `n` instructions are in order. -/
def PassesUpTo (is : List Instruction) (n : Nat) : Prop :=
  ∀ m < n, ∀ i, is[m]? = some i → i.Passes (heightAt is m)

/-- The greatest height after at most `n` instructions. -/
def IsPeak (is : List Instruction) (n : Nat) (peak : Int) : Prop :=
  IsGreatest {height | ∃ m ≤ n, heightAt is m = height} peak

/-- What the heights along a listing say of it. -/
inductive Listing.Verdict (l : Listing) : Except BuildError Nat → Prop
  | accepted {depth : Nat} (hpasses : PassesUpTo l.instructions l.instructions.length)
      (hfault : l.fault = none) (hend : heightAt l.instructions l.instructions.length = 0)
      (hpeak : IsPeak l.instructions l.instructions.length depth) :
      Verdict l (.ok depth)
  | offending {n : Nat} {i : Instruction} {e : StackError} (hpasses : PassesUpTo l.instructions n)
      (hi : l.instructions[n]? = some i) (hoffends : i.Offends (heightAt l.instructions n) e) :
      Verdict l (.error (.stack e))
  | undecodable {e : InstructionError}
      (hpasses : PassesUpTo l.instructions l.instructions.length) (hfault : l.fault = some e) :
      Verdict l (.error (.instruction e))
  | unbalanced {depth : Int64} (hpasses : PassesUpTo l.instructions l.instructions.length)
      (hfault : l.fault = none) (hend : heightAt l.instructions l.instructions.length ≠ 0)
      (hdepth : depth.toInt = heightAt l.instructions l.instructions.length) :
      Verdict l (.error (.stack (.unbalanced depth)))

theorem PassesUpTo.mono {is : List Instruction} {m n : Nat} (h : PassesUpTo is n) (hmn : m ≤ n) :
    PassesUpTo is m := fun k hk => h k (hk.trans_le hmn)

theorem PassesUpTo.succ {is : List Instruction} {n : Nat} {i : Instruction} (h : PassesUpTo is n)
    (hi : is[n]? = some i) (hpasses : i.Passes (heightAt is n)) : PassesUpTo is (n + 1) := by
  intro m hm j hj
  rcases Nat.lt_or_eq_of_le (Nat.le_of_lt_succ hm) with hlt | rfl
  · exact h m hlt j hj
  · cases hi.symm.trans hj
    exact hpasses

theorem PassesUpTo.heightAt_nonneg {is : List Instruction} {n : Nat} (h : PassesUpTo is n)
    (hn : n ≤ is.length) : 0 ≤ heightAt is n := by
  cases n with
  | zero => simp
  | succ n =>
    have hi : is[n]? = some is[n] := List.getElem?_eq_getElem hn
    rw [heightAt_succ hi]
    exact (h n n.lt_succ_self _ hi).nonneg

theorem isPeak_zero (is : List Instruction) : IsPeak is 0 0 := by
  refine ⟨⟨0, le_rfl, heightAt_zero is⟩, ?_⟩
  rintro _ ⟨m, hm, rfl⟩
  rw [Nat.le_zero.mp hm, heightAt_zero]

theorem IsPeak.nonneg {is : List Instruction} {n : Nat} {peak : Int} (h : IsPeak is n peak) :
    0 ≤ peak := h.2 ⟨0, n.zero_le, heightAt_zero is⟩

theorem IsPeak.succ {is : List Instruction} {n : Nat} {peak : Int} (h : IsPeak is n peak) :
    IsPeak is (n + 1) (max peak (heightAt is (n + 1))) := by
  obtain ⟨⟨m, hm, hpeak⟩, hle⟩ := h
  constructor
  · rcases max_choice peak (heightAt is (n + 1)) with hmax | hmax
    · exact ⟨m, hm.trans n.le_succ, by rw [hmax, hpeak]⟩
    · exact ⟨n + 1, le_rfl, hmax.symm⟩
  · rintro _ ⟨k, hk, rfl⟩
    rcases Nat.lt_or_eq_of_le hk with hlt | rfl
    · exact (hle ⟨k, Nat.le_of_lt_succ hlt, rfl⟩).trans (le_max_left _ _)
    · exact le_max_right _ _

-- ---------------------------------------------------------------------------
-- One instruction
-- ---------------------------------------------------------------------------

namespace StackHeight

variable {h : StackHeight} {i : Instruction}

/-- One instruction, with its tests and its effect over unbounded integers. -/
theorem pass_eq (hcounts : h.Counts i) (hargument : i.argument < 2 ^ 35) :
    h.pass i =
      if i.opcode = .checkstack ∧ h.current.toInt ≠ i.argument then
        .error (.checkpointMismatch i.offset i.argument h.current)
      else if h.current.toInt + i.delta < 0 then
        .error (.underflow i.offset i.opcode (h.current + i.opcode.effect.apply i.argument))
      else
        .ok ⟨h.current + i.opcode.effect.apply i.argument,
          if h.peak < h.current + i.opcode.effect.apply i.argument then
            h.current + i.opcode.effect.apply i.argument
          else h.peak⟩ := by
  have hword := toInt_ofNat_operand hargument
  have hnamed : h.current ≠ Int64.ofNat i.argument ↔ h.current.toInt ≠ i.argument := by
    rw [← hword, ne_eq, ne_eq, Int64.toInt_inj]
  have hsign : h.current + i.opcode.effect.apply i.argument < 0 ↔
      h.current.toInt + i.delta < 0 := by
    rw [Int64.lt_iff_toInt_lt, toInt_current_add hcounts hargument]
    rfl
  simp only [← hnamed, ← hsign]
  rfl

theorem pass_of_passes (hcounts : h.Counts i) (hargument : i.argument < 2 ^ 35)
    (hpasses : i.Passes h.current.toInt) :
    ∃ h', h.pass i = .ok h' ∧ h'.current.toInt = h.current.toInt + i.delta ∧
      h'.peak.toInt = max h.peak.toInt (h.current.toInt + i.delta) := by
  obtain ⟨hcheckpoint, hnonneg⟩ := hpasses
  have hcurrent := toInt_current_add hcounts hargument
  have hnamed : ¬ (i.opcode = .checkstack ∧ h.current.toInt ≠ i.argument) :=
    fun ⟨hop, hne⟩ => hne (hcheckpoint hop)
  rw [pass_eq hcounts hargument, if_neg hnamed, if_neg (not_lt.mpr hnonneg)]
  refine ⟨_, rfl, hcurrent, ?_⟩
  rw [← hcurrent]
  split
  · rename_i hlt
    rw [max_eq_right (Int64.lt_iff_toInt_lt.mp hlt).le]
  · rename_i hle
    rw [Int64.lt_iff_toInt_lt, not_lt] at hle
    rw [max_eq_left hle]

theorem pass_of_offends {e : StackError} (hcounts : h.Counts i) (hargument : i.argument < 2 ^ 35)
    (hoffends : i.Offends h.current.toInt e) : h.pass i = .error e := by
  rw [pass_eq hcounts hargument]
  cases hoffends with
  | checkpoint hop hne hactual => rw [if_pos ⟨hop, hne⟩, Int64.toInt_inj.mp hactual]
  | underflow hcheckpoint hneg hdepth =>
    have hnamed : ¬ (i.opcode = .checkstack ∧ h.current.toInt ≠ i.argument) :=
      fun ⟨hop, hne⟩ => hne (hcheckpoint hop)
    rw [← toInt_current_add hcounts hargument] at hdepth
    rw [if_neg hnamed, if_pos hneg, Int64.toInt_inj.mp hdepth]

/-- An instruction passes nowhere but where it is in order. -/
theorem passes_of_pass_eq_ok {h' : StackHeight} (hnonneg : 0 ≤ h.current.toInt)
    (hargument : i.argument < 2 ^ 35) (hpass : h.pass i = .ok h') :
    h.Counts i ∧ i.Passes h.current.toInt := by
  have hlt : h.current.toInt + i.delta < 2 ^ 63 := by
    by_contra hge
    have hneg := current_add_neg hargument (not_lt.mp hge)
    simp only [pass] at hpass
    split at hpass
    · cases hpass
    · split at hpass
      · cases hpass
      · rename_i hnot
        exact hnot hneg
  have hcounts : h.Counts i := ⟨hnonneg, hlt⟩
  refine ⟨hcounts, ?_⟩
  rw [pass_eq hcounts hargument] at hpass
  split at hpass
  · cases hpass
  · rename_i hnamed
    split at hpass
    · cases hpass
    · rename_i hsign
      exact ⟨fun hop => by_contra fun hne => hnamed ⟨hop, hne⟩, not_lt.mp hsign⟩

end StackHeight

theorem Instruction.passes_or_offends {height : Int} {i : Instruction}
    (hargument : i.argument < 2 ^ 35) (hlow : 0 ≤ height) (hhigh : height < 2 ^ 63) :
    i.Passes height ∨ ∃ e, i.Offends height e := by
  have hfall : -2 ^ 36 ≤ i.delta := i.opcode.effect.neg_le_delta hargument
  by_cases hcheckpoint : i.opcode = .checkstack → height = i.argument
  · by_cases hneg : height + i.delta < 0
    · have hdepth : (Int64.ofInt (height + i.delta)).toInt = height + i.delta :=
        Int64.toInt_ofInt_of_le (by omega) (by omega)
      exact .inr ⟨_, .underflow hcheckpoint hneg hdepth⟩
    · exact .inl ⟨hcheckpoint, not_lt.mp hneg⟩
  · obtain ⟨hop, hne⟩ := Classical.not_imp.mp hcheckpoint
    have hactual : (Int64.ofInt height).toInt = height :=
      Int64.toInt_ofInt_of_le (by omega) (by omega)
    exact .inr ⟨_, .checkpoint hop hne hactual⟩

-- ---------------------------------------------------------------------------
-- Streams
-- ---------------------------------------------------------------------------

namespace StackHeight

variable {is : List Instruction} {n : Nat}

theorem passAll_append (h : StackHeight) (is js : List Instruction) :
    h.passAll (is ++ js) = (h.passAll is).bind fun h' => h'.passAll js := List.foldlM_append

theorem passAll_cons (h : StackHeight) (i : Instruction) (is : List Instruction) :
    h.passAll (i :: is) = (h.pass i).bind fun h' => h'.passAll is := rfl

/-- What the check has counted after the first `n` instructions, if they are in order. -/
structure Reached (is : List Instruction) (n : Nat) (h : StackHeight) : Prop where
  run : passAll {} (is.take n) = .ok h
  current : h.current.toInt = heightAt is n
  peak : IsPeak is n h.peak.toInt

theorem Reached.counts {h : StackHeight} {i : Instruction} (hreached : Reached is n h)
    (hpasses : PassesUpTo is n) (hi : is[n]? = some i) (hlength : is.length < 2 ^ 63) :
    h.Counts i := by
  have hn : n < is.length := (List.getElem?_eq_some_iff.mp hi).1
  have hnonneg := hpasses.heightAt_nonneg hn.le
  have hle := heightAt_le is (n + 1)
  rw [heightAt_succ hi] at hle
  constructor <;> rw [hreached.current] <;> omega

/-- One more instruction that is in order is counted. -/
theorem Reached.succ {h : StackHeight} {i : Instruction} (hreached : Reached is n h)
    (hcounts : h.Counts i) (hargument : i.argument < 2 ^ 35) (hi : is[n]? = some i)
    (hpasses : i.Passes (heightAt is n)) : ∃ h', h.pass i = .ok h' ∧ Reached is (n + 1) h' := by
  rw [← hreached.current] at hpasses
  obtain ⟨h', hpass, hcurrent, hpeak⟩ := pass_of_passes hcounts hargument hpasses
  rw [hreached.current, ← heightAt_succ hi] at hcurrent hpeak
  refine ⟨h', hpass, ?_, hcurrent, ?_⟩
  · rw [List.take_add_one, hi, passAll_append, hreached.run]
    simp only [Except.bind, Option.toList_some, passAll_cons, hpass]
    rfl
  · rw [hpeak]
    exact hreached.peak.succ

theorem exists_reached (hargument : ∀ i ∈ is, i.argument < 2 ^ 35) (hlength : is.length < 2 ^ 63)
    (hn : n ≤ is.length) (hpasses : PassesUpTo is n) : ∃ h, Reached is n h := by
  induction n with
  | zero => exact ⟨{}, rfl, (heightAt_zero is).symm, isPeak_zero is⟩
  | succ n ih =>
    have hi : is[n]? = some is[n] := List.getElem?_eq_getElem hn
    have hbefore := hpasses.mono n.le_succ
    obtain ⟨h, hreached⟩ := ih (Nat.le_of_lt hn) hbefore
    obtain ⟨h', -, hnext⟩ := hreached.succ (hreached.counts hbefore hi hlength)
      (hargument _ (List.getElem_mem hn)) hi (hpasses n n.lt_succ_self _ hi)
    exact ⟨h', hnext⟩

/-- Where all instructions are in order, the whole check goes through. -/
theorem exists_passAll_eq_ok (hargument : ∀ i ∈ is, i.argument < 2 ^ 35)
    (hlength : is.length < 2 ^ 63) (hpasses : PassesUpTo is is.length) :
    ∃ h, passAll {} is = .ok h ∧ Reached is is.length h := by
  obtain ⟨h, hreached⟩ := exists_reached hargument hlength le_rfl hpasses
  have hrun := hreached.run
  rw [List.take_length] at hrun
  exact ⟨h, hrun, hreached⟩

/-- Where the whole check goes through, it has counted the heights all along. -/
theorem reached_of_passAll_eq_ok (hargument : ∀ i ∈ is, i.argument < 2 ^ 35) {last : StackHeight}
    (hrun : passAll {} is = .ok last) (hn : n ≤ is.length) :
    ∃ h, Reached is n h ∧ PassesUpTo is n ∧ h.passAll (is.drop n) = .ok last := by
  induction n with
  | zero =>
    exact ⟨{}, ⟨rfl, (heightAt_zero is).symm, isPeak_zero is⟩, fun m hm => absurd hm m.not_lt_zero,
      hrun⟩
  | succ n ih =>
    obtain ⟨h, hreached, hpasses, hrest⟩ := ih (Nat.le_of_lt hn)
    have hi : is[n]? = some is[n] := List.getElem?_eq_getElem hn
    have hin : is[n].argument < 2 ^ 35 := hargument _ (List.getElem_mem hn)
    have hnonneg : 0 ≤ h.current.toInt := by
      rw [hreached.current]
      exact hpasses.heightAt_nonneg (Nat.le_of_lt hn)
    rw [List.drop_eq_getElem_cons hn, passAll_cons] at hrest
    cases hpass : h.pass is[n] with
    | error e =>
      rw [hpass] at hrest
      cases hrest
    | ok h₁ =>
      rw [hpass] at hrest
      obtain ⟨hcounts, hpassed⟩ := passes_of_pass_eq_ok hnonneg hin hpass
      rw [hreached.current] at hpassed
      obtain ⟨h₂, hpass₂, hreached₂⟩ := hreached.succ hcounts hin hi hpassed
      cases hpass.symm.trans hpass₂
      exact ⟨h₁, hreached₂, hpasses.succ hi hpassed, hrest⟩

end StackHeight

/-- The bounds that hold of the listing of every stream in memory. -/
structure Listing.Bounded (l : Listing) : Prop where
  argument : ∀ i ∈ l.instructions, i.argument < 2 ^ 35
  length : l.instructions.length < 2 ^ 63

theorem Listing.bounded_ofBytes {code : List UInt8} (h : code.length < 2 ^ 63) :
    (Listing.ofBytes code).Bounded where
  argument _ hi := argument_lt_of_mem_ofBytesAt hi
  length := (length_instructions_ofBytesAt_le 0 code).trans_lt h

namespace Listing

variable {l : Listing} {v : Except BuildError Nat}

theorem passesUpTo_or_exists_offends (hl : l.Bounded) (n : Nat) (hn : n ≤ l.instructions.length) :
    PassesUpTo l.instructions n ∨ ∃ m i e, PassesUpTo l.instructions m ∧
      l.instructions[m]? = some i ∧ i.Offends (heightAt l.instructions m) e := by
  induction n with
  | zero => exact .inl fun m hm => absurd hm m.not_lt_zero
  | succ n ih =>
    rcases ih (Nat.le_of_lt hn) with hpasses | hoffends
    · have hi : l.instructions[n]? = some l.instructions[n] := List.getElem?_eq_getElem hn
      have hlow := hpasses.heightAt_nonneg (Nat.le_of_lt hn)
      have hhigh := heightAt_le l.instructions n
      have hlength := hl.length
      have hargument := hl.argument _ (List.getElem_mem hn)
      rcases Instruction.passes_or_offends hargument hlow (by omega) with hin | ⟨e, he⟩
      · exact .inl (hpasses.succ hi hin)
      · exact .inr ⟨n, _, e, hpasses, hi, he⟩
    · exact .inr hoffends

theorem exists_verdict (hl : l.Bounded) : ∃ v, l.Verdict v := by
  rcases passesUpTo_or_exists_offends hl _ le_rfl with hpasses | ⟨m, i, e, hpasses, hi, he⟩
  · obtain ⟨h, hreached⟩ := StackHeight.exists_reached hl.argument hl.length le_rfl hpasses
    cases hfault : l.fault with
    | some e => exact ⟨_, .undecodable hpasses hfault⟩
    | none =>
      by_cases hend : heightAt l.instructions l.instructions.length = 0
      · have hpeak := hreached.peak
        rw [← Int.toNat_of_nonneg hpeak.nonneg] at hpeak
        exact ⟨_, .accepted hpasses hfault hend hpeak⟩
      · exact ⟨_, .unbalanced hpasses hfault hend hreached.current⟩
  · exact ⟨_, .offending hpasses hi he⟩

/-- The check gives what the heights say. -/
theorem Verdict.stackDepth_eq (hl : l.Bounded) (hv : l.Verdict v) : l.stackDepth = v := by
  cases hv with
  | offending hpasses hi hoffends =>
    rename_i n i e
    have hn : n < l.instructions.length := (List.getElem?_eq_some_iff.mp hi).1
    obtain ⟨h, hreached⟩ := StackHeight.exists_reached hl.argument hl.length hn.le hpasses
    have hcounts := hreached.counts hpasses hi hl.length
    rw [← hreached.current] at hoffends
    have hpass :=
      StackHeight.pass_of_offends hcounts (hl.argument i (List.mem_of_getElem? hi)) hoffends
    have hrun : StackHeight.passAll {} l.instructions = .error e := by
      have hsplit : l.instructions = l.instructions.take n ++ i :: l.instructions.drop (n + 1) := by
        rw [← (List.getElem?_eq_some_iff.mp hi).2, List.getElem_cons_drop, List.take_append_drop]
      rw [hsplit, StackHeight.passAll_append, hreached.run]
      simp only [Except.bind, StackHeight.passAll_cons, hpass]
    unfold stackDepth
    rw [hrun]
  | accepted hpasses hfault hend hpeak =>
    obtain ⟨h, hrun, hreached⟩ := StackHeight.exists_passAll_eq_ok hl.argument hl.length hpasses
    have hcurrent : h.current = 0 := by
      rw [← Int64.toInt_inj, hreached.current, hend]
      rfl
    have hdepth := hreached.peak.unique hpeak
    simp [stackDepth, hrun, hfault, hcurrent, hdepth]
  | undecodable hpasses hfault =>
    obtain ⟨h, hrun, -⟩ := StackHeight.exists_passAll_eq_ok hl.argument hl.length hpasses
    simp [stackDepth, hrun, hfault]
  | unbalanced hpasses hfault hend hdepth =>
    obtain ⟨h, hrun, hreached⟩ := StackHeight.exists_passAll_eq_ok hl.argument hl.length hpasses
    have hcurrent : h.current ≠ 0 := by
      intro hzero
      rw [← hreached.current, hzero] at hend
      exact hend rfl
    rw [← hreached.current, Int64.toInt_inj] at hdepth
    simp [stackDepth, hrun, hfault, hcurrent, hdepth]

/-- What the check has counted where it accepts a listing. -/
theorem stackDepth_eq_ok_iff {depth : Nat} :
    l.stackDepth = .ok depth ↔ ∃ last, StackHeight.passAll {} l.instructions = .ok last ∧
      l.fault = none ∧ last.current = 0 ∧ last.peak.toInt.toNat = depth := by
  unfold stackDepth
  cases hrun : StackHeight.passAll {} l.instructions with
  | error e => simp
  | ok last =>
    cases hfault : l.fault with
    | some e => simp
    | none => by_cases hzero : last.current = 0 <;> simp [hzero]

theorem fault_of_stackDepth_eq_ok {depth : Nat} (h : l.stackDepth = .ok depth) : l.fault = none := by
  obtain ⟨_, -, hfault, -⟩ := stackDepth_eq_ok_iff.mp h
  exact hfault

/-- No bound on the length is needed where the check goes through. -/
theorem verdict_of_stackDepth_eq_ok (hargument : ∀ i ∈ l.instructions, i.argument < 2 ^ 35)
    {depth : Nat} (h : l.stackDepth = .ok depth) : l.Verdict (.ok depth) := by
  obtain ⟨last, hrun, hfault, hzero, rfl⟩ := stackDepth_eq_ok_iff.mp h
  obtain ⟨height, hreached, hpasses, hlast⟩ :=
    StackHeight.reached_of_passAll_eq_ok hargument hrun le_rfl
  rw [List.drop_length] at hlast
  cases hlast
  have hend := hreached.current
  rw [hzero] at hend
  have hpeak := hreached.peak
  rw [← Int.toNat_of_nonneg hpeak.nonneg] at hpeak
  exact .accepted hpasses hfault hend.symm hpeak

end Listing

/--
The check gives a verdict on a stream if and only if the heights along its instructions do. A stream
in memory is shorter than `2 ^ 63` bytes.
-/
theorem stackDepth_eq_iff {code : List UInt8} {v : Except BuildError Nat}
    (h : code.length < 2 ^ 63) : stackDepth code = v ↔ (Listing.ofBytes code).Verdict v := by
  have hl := Listing.bounded_ofBytes h
  constructor
  · rintro rfl
    obtain ⟨w, hw⟩ := Listing.exists_verdict hl
    have heq : stackDepth code = w := hw.stackDepth_eq hl
    rwa [heq]
  · exact fun hv => hv.stackDepth_eq hl

theorem stackDepth_eq_iff_add :
    (Listing.ofBytes [0x40, 0, 0x40, 1, 0x20, 0x7f, 1, 0x04]).Verdict (.ok 2) ∧
      (Listing.ofBytes [0x40, 0, 0x7f, 2, 0x04]).Verdict
        (.error (.stack (.checkpointMismatch 2 2 1))) ∧
      (Listing.ofBytes [0x40, 0, 0x20, 0x04, 0xff]).Verdict
        (.error (.stack (.underflow 3 .ret (-1)))) ∧
      (Listing.ofBytes [0x40, 0, 0xff]).Verdict
        (.error (.instruction (.unknownOpcode 2 0xff))) :=
  ⟨(stackDepth_eq_iff (by decide)).mp (by cbv), (stackDepth_eq_iff (by decide)).mp (by cbv),
    (stackDepth_eq_iff (by decide)).mp (by cbv), (stackDepth_eq_iff (by decide)).mp (by cbv)⟩

end Bytecode
