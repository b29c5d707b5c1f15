-- SUMMARY: Streams that are written again from their listing: no longer, and with the same verdict of the stack check.
import Bytecode.Proofs.SameSteps

/-!
# Streams written again

A code writer takes every instruction that was decoded, and spells its operand in the fewest bytes. The
stream that it writes is no longer than the one that was listed, and writing it once more changes
nothing. The stack check sees the steps of a stream, and of its bytes nothing but where the instructions
stand. So it finds the same depth, or the same thing wrong with the same instruction.
-/

namespace Bytecode

-- ---------------------------------------------------------------------------
-- Writing
-- ---------------------------------------------------------------------------

namespace CodeWriter

/-- Appends instructions in order, up to the first that is refused. -/
def writeAll (steps : List Step) : EStateM InstructionError CodeWriter Unit := steps.forM write

theorem run_write {s : Step} (h : s.Fits) (w : CodeWriter) :
    (write s).run w = .ok () { code := w.code ++ s.bytes } := by
  rw [EStateM.run, write_apply, Step.encode_eq h]

/-- Steps that fit are all written, one behind the other. -/
theorem run_writeAll {steps : List Step} (h : ∀ s ∈ steps, s.Fits) (w : CodeWriter) :
    (writeAll steps).run w = .ok () { code := w.code ++ steps.flatMap Step.bytes } := by
  induction steps generalizing w with
  | nil =>
    rw [List.flatMap_nil, List.append_nil]
    rfl
  | cons s steps ih =>
    obtain ⟨hs, hrest⟩ := List.forall_mem_cons.mp h
    have hfirst : write s w = .ok () { code := w.code ++ s.bytes } := run_write hs w
    have hcons : (writeAll (s :: steps)).run w =
        (writeAll steps).run { code := w.code ++ s.bytes } := by
      simp only [writeAll, List.forM_eq_forM, List.forM_cons, EStateM.run, bind, EStateM.bind, hfirst]
    rw [hcons, ih hrest, List.flatMap_cons, List.append_assoc]

end CodeWriter

namespace Listing

/-- The steps of a stream, apart from where they stand. -/
def steps (l : Listing) : List Step := l.instructions.map Instruction.step

theorem flatMap_bytes_steps (l : Listing) : l.steps.flatMap Step.bytes = l.bytes := by
  rw [steps, bytes, List.flatMap_map]

theorem run_writeAll_steps (code : List UInt8) :
    (CodeWriter.writeAll (ofBytes code).steps).run {} = .ok () { code := (ofBytes code).bytes } := by
  have hfits : ∀ s ∈ (ofBytes code).steps, s.Fits :=
    List.forall_mem_map.mpr fun i hi => (wellFormed_and_fits_of_mem hi).2
  rw [CodeWriter.run_writeAll hfits, flatMap_bytes_steps, List.nil_append]

theorem length_bytes_ofBytesAt_le (offset : Nat) (bytes : List UInt8) :
    (ofBytesAt offset bytes).bytes.length ≤ bytes.length := by
  induction offset, bytes using ofBytesAt.induct with
  | case1 offset => simp [ofBytesAt, Listing.bytes]
  | case2 offset b bs i width hdecode ih =>
    have hfirst := Instruction.length_bytes_le hdecode
    have hwidth := Instruction.width_le_of_decode hdecode
    rw [List.length_drop] at ih
    rw [ofBytesAt, hdecode]
    simp only [Listing.bytes, List.flatMap_cons, List.length_append, List.length_cons] at ih ⊢
    omega
  | case3 offset b bs e hdecode =>
    rw [ofBytesAt, hdecode]
    exact Nat.zero_le _

end Listing

-- ---------------------------------------------------------------------------
-- The same fault
-- ---------------------------------------------------------------------------

/-- The same is wrong with two streams: with their instructions of one number, or at their ends. -/
inductive SameFault (is js : List Instruction) : StackError → StackError → Prop
  | underflow {n : Nat} {i j : Instruction} (hi : is[n]? = some i) (hj : js[n]? = some j)
      (hopcode : i.opcode = j.opcode) (depth : Int64) :
      SameFault is js (.underflow i.offset i.opcode depth) (.underflow j.offset j.opcode depth)
  | checkpoint {n : Nat} {i j : Instruction} (hi : is[n]? = some i) (hj : js[n]? = some j)
      (expected : Nat) (actual : Int64) :
      SameFault is js (.checkpointMismatch i.offset expected actual)
        (.checkpointMismatch j.offset expected actual)
  | unbalanced (depth : Int64) : SameFault is js (.unbalanced depth) (.unbalanced depth)

theorem SameFault.cons {is js : List Instruction} {e e' : StackError} (h : SameFault is js e e')
    (i j : Instruction) : SameFault (i :: is) (j :: js) e e' := by
  cases h with
  | @underflow n _ _ hi hj hopcode depth =>
    exact .underflow (n := n + 1) hi hj hopcode depth
  | @checkpoint n _ _ hi hj expected actual =>
    exact .checkpoint (n := n + 1) hi hj expected actual
  | unbalanced depth => exact .unbalanced depth

namespace StackHeight

/-- A step that does not pass is found wrong in the same way wherever it stands. -/
theorem exists_sameFault_of_pass {h : StackHeight} {i j : Instruction} {e : StackError}
    (hstep : i.step = j.step) (hpass : h.pass i = .error e) (is js : List Instruction) :
    ∃ e', h.pass j = .error e' ∧ SameFault (i :: is) (j :: js) e e' := by
  obtain ⟨hopcode, hoperand⟩ := Step.mk.inj hstep
  simp only [pass, hoperand, ← hopcode] at hpass ⊢
  split at hpass
  · rename_i hnamed
    cases hpass
    rw [if_pos hnamed]
    exact ⟨_, rfl, .checkpoint (n := 0) rfl rfl _ _⟩
  · rename_i hnamed
    rw [if_neg hnamed]
    split at hpass
    · rename_i hsign
      cases hpass
      have hsame (depth : Int64) : SameFault (i :: is) (j :: js)
          (.underflow i.offset i.opcode depth) (.underflow j.offset j.opcode depth) :=
        .underflow (n := 0) rfl rfl hopcode depth
      rw [← hopcode] at hsame
      rw [if_pos hsign]
      exact ⟨_, rfl, hsame _⟩
    · cases hpass

theorem exists_sameFault_of_passAll {h : StackHeight} {is js : List Instruction} {e : StackError}
    (hsteps : is.map Instruction.step = js.map Instruction.step) (hrun : h.passAll is = .error e) :
    ∃ e', h.passAll js = .error e' ∧ SameFault is js e e' := by
  induction is generalizing h js with
  | nil => cases hrun
  | cons i is ih =>
    obtain ⟨j, js, rfl, hstep, hrest⟩ := List.map_eq_cons_iff.mp hsteps.symm
    rw [passAll_cons] at hrun ⊢
    cases hpass : h.pass i with
    | error e' =>
      rw [hpass] at hrun
      cases hrun
      obtain ⟨e', hpass', hsame⟩ := exists_sameFault_of_pass hstep.symm hpass is js
      rw [hpass']
      exact ⟨e', rfl, hsame⟩
    | ok h₁ =>
      rw [hpass] at hrun
      rw [pass_of_step_eq hstep.symm hpass]
      obtain ⟨e', hrun', hsame⟩ := ih hrest.symm hrun
      exact ⟨e', hrun', hsame.cons i j⟩

end StackHeight

/-- Listings of the same steps without a fault are refused for the same reason. -/
theorem Listing.exists_sameFault {l l' : Listing} {e : BuildError} (hsteps : l.steps = l'.steps)
    (hfault : l.fault = none) (hfault' : l'.fault = none) (h : l.stackDepth = .error e) :
    ∃ s s', e = .stack s ∧ l'.stackDepth = .error (.stack s') ∧
      SameFault l.instructions l'.instructions s s' := by
  unfold stackDepth at h ⊢
  cases hrun : StackHeight.passAll {} l.instructions with
  | error s =>
    rw [hrun] at h
    cases h
    obtain ⟨s', hrun', hsame⟩ := StackHeight.exists_sameFault_of_passAll hsteps hrun
    rw [hrun']
    exact ⟨s, s', rfl, rfl, hsame⟩
  | ok last =>
    simp only [hrun, hfault] at h
    rw [StackHeight.passAll_of_steps_eq hsteps hrun, hfault']
    split at h
    · cases h
    · rename_i hend
      cases h
      simp only [if_neg hend]
      exact ⟨_, _, rfl, rfl, .unbalanced last.current⟩

/--
The instructions of a stream without a fault are all written again, in a stream that is no longer and
has the same steps and the same verdict: the same depth, or the same thing wrong with the instruction of
the same number. The new stream is the old one if and only if no operand of several bytes ends in the
byte one, and it is what it is written as itself.
-/
theorem CodeWriter.run_writeAll_listed {code : List UInt8}
    (h : (Listing.ofBytes code).fault = none) :
    ∃ w : CodeWriter, (writeAll (Listing.ofBytes code).steps).run {} = .ok () w ∧
      w.code.length ≤ code.length ∧
      (Listing.ofBytes w.code).steps = (Listing.ofBytes code).steps ∧
      (Listing.ofBytes w.code).fault = none ∧
      (∀ depth, stackDepth w.code = .ok depth ↔ stackDepth code = .ok depth) ∧
      (∀ e, stackDepth code = .error e → ∃ s s', e = .stack s ∧
        stackDepth w.code = .error (.stack s') ∧
        SameFault (Listing.ofBytes code).instructions (Listing.ofBytes w.code).instructions s s') ∧
      (w.code = code ↔ ∀ i ∈ (Listing.ofBytes code).instructions,
        1 < (i.spelling code).length → (i.spelling code).getLast? ≠ some 0x01) ∧
      (writeAll (Listing.ofBytes w.code).steps).run {} = .ok () w := by
  obtain ⟨hsteps, hfault⟩ := Listing.ofBytes_bytes code
  refine ⟨{ code := (Listing.ofBytes code).bytes }, Listing.run_writeAll_steps code,
    Listing.length_bytes_ofBytesAt_le 0 code, hsteps, hfault, fun depth => ⟨?_, stackDepth_bytes⟩,
    fun e => Listing.exists_sameFault hsteps.symm h hfault, Listing.bytes_ofBytes_eq_iff h, ?_⟩
  · exact Listing.stackDepth_of_steps_eq hsteps h
  · rw [Listing.run_writeAll_steps, ← Listing.flatMap_bytes_steps, Listing.steps, hsteps,
      ← Listing.steps, Listing.flatMap_bytes_steps]

theorem CodeWriter.run_writeAll_listed_redundant :
    let code : List UInt8 := [0x40, 0x80, 0x01, 0x20, 0x04]
    let short : List UInt8 := [0x40, 0x00, 0x20, 0x04]
    ((Listing.ofBytes code).fault = none ∧
      stackDepth code = .error (.stack (.underflow 4 .ret (-1)))) ∧
    (writeAll [⟨.loadConst, some 0⟩, ⟨.binaryAdd, none⟩, ⟨.ret, none⟩]).run {} =
      .ok () { code := short } ∧
    ∃ s', stackDepth short = .error (.stack s') ∧
      SameFault [⟨0, .loadConst, some 0⟩, ⟨3, .binaryAdd, none⟩, ⟨4, .ret, none⟩]
        [⟨0, .loadConst, some 0⟩, ⟨2, .binaryAdd, none⟩, ⟨3, .ret, none⟩]
        (.underflow 4 .ret (-1)) s' := by
  intro code short
  have hfault : (Listing.ofBytes code).fault = none := by cbv
  have hdepth : stackDepth code = .error (.stack (.underflow 4 .ret (-1))) := by cbv
  have hlisted : (Listing.ofBytes code).instructions =
      [⟨0, .loadConst, some 0⟩, ⟨3, .binaryAdd, none⟩, ⟨4, .ret, none⟩] := by cbv
  have hlisted' : (Listing.ofBytes short).instructions =
      [⟨0, .loadConst, some 0⟩, ⟨2, .binaryAdd, none⟩, ⟨3, .ret, none⟩] := by cbv
  have hsteps : (Listing.ofBytes code).steps =
      [⟨.loadConst, some 0⟩, ⟨.binaryAdd, none⟩, ⟨.ret, none⟩] := by
    rw [Listing.steps, hlisted]
    rfl
  have hwritten : (writeAll (Listing.ofBytes code).steps).run {} = .ok () { code := short } := by
    rw [hsteps]
    cbv
  obtain ⟨w, hw, -, -, -, -, herror, -, -⟩ := run_writeAll_listed hfault
  cases hwritten.symm.trans hw
  obtain ⟨s, s', hs, hs', hsame⟩ := herror _ hdepth
  cases hs
  rw [hlisted, hlisted'] at hsame
  exact ⟨⟨hfault, hdepth⟩, hsteps ▸ hwritten, s', hs', hsame⟩

end Bytecode
