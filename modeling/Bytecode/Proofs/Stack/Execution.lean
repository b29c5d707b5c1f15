-- SUMMARY: Runs of a stream on an operand stack: where an accepted stream pops an empty stack, and where not.
import Bytecode.Proofs.Stack.Verdict

/-!
# Execution on an operand stack

The stack check looks at net heights, an executor first pops and then pushes. `Instruction.transfer?`
says what the executor pops and pushes, `run` follows the height of its stack. An accepted stream lacks
one operand at most, and pops an empty stack at the first instruction that lacks one.
-/

namespace Bytecode

/-- The values that an instruction takes off the stack, and those that it then puts on it. -/
structure Transfer where
  pops : Nat
  pushes : Nat
  deriving DecidableEq

namespace Instruction

/-- What an instruction moves, for the opcodes of the reference executor. -/
def transfer? (i : Instruction) : Option Transfer :=
  match i.opcode with
  | .loadConst | .loadName | .loadNull => some ⟨0, 1⟩
  | .binaryAdd => some ⟨2, 1⟩
  | .echo | .discardTop | .ret => some ⟨1, 0⟩
  | .call => some ⟨i.argument + 1, 1⟩
  | .makeArray => some ⟨i.argument, 1⟩
  | .makeHash => some ⟨2 * i.argument, 1⟩
  | .checkstack => some ⟨0, 0⟩
  | _ => none

/-- Pops and then pushes on a stack of a given height. There is no result where the stack runs out. -/
def execute (height : Nat) (i : Instruction) : Option Nat := do
  let t ← i.transfer?
  if t.pops ≤ height then some (height - t.pops + t.pushes) else none

/-- The instruction pops one value more than a height has. -/
def LacksOne (height : Int) (i : Instruction) : Prop :=
  ∃ t, i.transfer? = some t ∧ (t.pops : Int) = height + 1

instance (height : Int) (i : Instruction) : Decidable (i.LacksOne height) :=
  match h : i.transfer? with
  | none => isFalse fun ⟨t, ht, _⟩ => Option.some_ne_none t (ht.symm.trans h)
  | some t => decidable_of_iff ((t.pops : Int) = height + 1)
      ⟨fun hone => ⟨t, h, hone⟩, fun ⟨_, ht, hone⟩ => Option.some.inj (h.symm.trans ht) ▸ hone⟩

theorem delta_eq_of_transfer? {i : Instruction} {t : Transfer} (h : i.transfer? = some t) :
    i.delta = t.pushes - t.pops ∧ t.pushes ≤ 1 := by
  obtain ⟨offset, op, operand⟩ := i
  cases op <;> cases h <;>
    simp [delta, Opcode.effect, Opcode.row, StackEffect.delta] <;> omega

theorem execute_eq_some_iff {i : Instruction} {t : Transfer} {height k : Nat}
    (h : i.transfer? = some t) :
    i.execute height = some k ↔ t.pops ≤ height ∧ (k : Int) = height + i.delta := by
  obtain ⟨hdelta, -⟩ := delta_eq_of_transfer? h
  unfold execute
  rw [h, hdelta]
  by_cases hle : t.pops ≤ height
  · have hheight : ((height - t.pops + t.pushes : Nat) : Int) = height + (t.pushes - t.pops) := by
      omega
    rw [← hheight, Int.natCast_inj]
    simp [hle, eq_comm]
  · simp [hle]

/-- An instruction that passes the check has all its operands, or all but one. -/
theorem Passes.pops_le {i : Instruction} {t : Transfer} {height : Int} (hpasses : i.Passes height)
    (h : i.transfer? = some t) : (t.pops : Int) ≤ height + 1 := by
  obtain ⟨hdelta, hpushes⟩ := delta_eq_of_transfer? h
  have hnonneg := hpasses.nonneg
  omega

/-- An instruction that passes the check runs out of operands exactly where it lacks one. -/
theorem Passes.execute_eq_some_iff {i : Instruction} {height k : Nat} (hpasses : i.Passes height)
    (h : i.transfer?.isSome) :
    i.execute height = some k ↔ (k : Int) = height + i.delta ∧ ¬ i.LacksOne height := by
  obtain ⟨t, ht⟩ := Option.isSome_iff_exists.mp h
  have hpops := hpasses.pops_le ht
  have hlacks : i.LacksOne height ↔ ¬ t.pops ≤ height := by
    constructor
    · rintro ⟨t', ht', hone⟩
      cases ht.symm.trans ht'
      omega
    · intro hlt
      exact ⟨t, ht, by omega⟩
  rw [Instruction.execute_eq_some_iff ht, hlacks, not_not, and_comm]

end Instruction

/-- Runs instructions in order on a stack of a given height, and gives the height after them. -/
def run (height : Nat) (is : List Instruction) : Option Nat := is.foldlM Instruction.execute height

theorem run_append (height : Nat) (is js : List Instruction) :
    run height (is ++ js) = (run height is).bind fun k => run k js := List.foldlM_append

/--
The run of a stream that passes the check: as long as no instruction lacks an operand it has the net
heights, and there is no run past the first that does.
-/
theorem PassesUpTo.run_eq_some_iff {is : List Instruction} {n k : Nat} (hpasses : PassesUpTo is n)
    (htransfer : ∀ i ∈ is, i.transfer?.isSome) (hn : n ≤ is.length) :
    run 0 (is.take n) = some k ↔
      (k : Int) = heightAt is n ∧ ∀ m < n, ∀ i ∈ is[m]?, ¬ i.LacksOne (heightAt is m) := by
  induction n generalizing k with
  | zero =>
    simp only [List.take_zero, run, List.foldlM_nil, heightAt_zero, Option.pure_def,
      Option.some.injEq, Nat.not_lt_zero, false_imp_iff, implies_true, and_true]
    omega
  | succ n ih =>
    have hi : is[n]? = some is[n] := List.getElem?_eq_getElem hn
    have hsome := htransfer is[n] (List.getElem_mem hn)
    have hbefore := hpasses.mono n.le_succ
    have hpassed := hpasses n n.lt_succ_self _ hi
    have hnonneg := hbefore.heightAt_nonneg (Nat.le_of_lt hn)
    have hrun : run 0 (is.take (n + 1)) = (run 0 (is.take n)).bind is[n].execute := by
      rw [List.take_add_one, hi, run_append]
      congr 1
      funext height
      simp [run]
    rw [hrun, Option.bind_eq_some_iff, heightAt_succ hi]
    constructor
    · rintro ⟨height, hheight, hexecute⟩
      obtain ⟨hnet, hnone⟩ := (ih hbefore (Nat.le_of_lt hn)).mp hheight
      rw [← hnet] at hpassed
      obtain ⟨hk, hlast⟩ := (hpassed.execute_eq_some_iff hsome).mp hexecute
      rw [hnet] at hk hlast
      refine ⟨hk, fun m hm i him => ?_⟩
      rcases Nat.lt_or_eq_of_le (Nat.le_of_lt_succ hm) with hlt | rfl
      · exact hnone m hlt i him
      · cases hi.symm.trans him
        exact hlast
    · rintro ⟨hk, hnone⟩
      have hnet : ((heightAt is n).toNat : Int) = heightAt is n := Int.toNat_of_nonneg hnonneg
      have hreached := (ih hbefore (Nat.le_of_lt hn)).mpr
        ⟨hnet, fun m hm => hnone m (Nat.lt_succ_of_lt hm)⟩
      have hlast := hnone n n.lt_succ_self _ hi
      rw [← hnet] at hpassed hk hlast
      exact ⟨_, hreached, (hpassed.execute_eq_some_iff hsome).mpr ⟨hk, hlast⟩⟩

/--
What an accepted stream does on the stack. The result of the check is the greatest net height, and no
instruction lacks more than one operand. The run has the net heights as long as none lacks one, and
pops an empty stack at the first that does.
-/
theorem run_of_stackDepth_eq_ok {code : List UInt8} {depth : Nat}
    (h : stackDepth code = .ok depth)
    (htransfer : ∀ i ∈ (Listing.ofBytes code).instructions, i.transfer?.isSome) :
    let is := (Listing.ofBytes code).instructions
    IsPeak is is.length depth ∧
      (∀ n, ∀ i ∈ is[n]?, ∀ t ∈ i.transfer?, (t.pops : Int) ≤ heightAt is n + 1) ∧
      ∀ n ≤ is.length, ∀ k, run 0 (is.take n) = some k ↔
        (k : Int) = heightAt is n ∧ ∀ m < n, ∀ i ∈ is[m]?, ¬ i.LacksOne (heightAt is m) := by
  have hverdict : (Listing.ofBytes code).Verdict (.ok depth) :=
    Listing.verdict_of_stackDepth_eq_ok (fun _ => Listing.argument_lt_of_mem_ofBytesAt) h
  cases hverdict with
  | accepted hpasses hfault hend hpeak =>
    refine ⟨hpeak, ?_, ?_⟩
    · intro n i hi t ht
      have hn := (List.getElem?_eq_some_iff.mp hi).1
      exact (hpasses n hn i hi).pops_le ht
    · intro n hn k
      exact (hpasses.mono hn).run_eq_some_iff htransfer hn

theorem run_of_stackDepth_eq_ok_call :
    let is : List Instruction :=
      [⟨0, .loadName, some 0⟩, ⟨2, .loadConst, some 0⟩, ⟨4, .loadConst, some 1⟩, ⟨6, .call, some 2⟩,
       ⟨8, .echo, none⟩]
    stackDepth [0x41, 0, 0x40, 0, 0x40, 1, 0x50, 2, 0x09] = .ok 3 ∧ IsPeak is 5 3 ∧
      run 0 (is.take 4) = some 1 := by
  intro is
  have hlist : (Listing.ofBytes [0x41, 0, 0x40, 0, 0x40, 1, 0x50, 2, 0x09]).instructions = is := by
    cbv
  have hdepth : stackDepth [0x41, 0, 0x40, 0, 0x40, 1, 0x50, 2, 0x09] = .ok 3 := by cbv
  have hrun := run_of_stackDepth_eq_ok hdepth
  simp only [hlist] at hrun
  obtain ⟨hpeak, -, hheights⟩ := hrun (by decide)
  exact ⟨hdepth, hpeak, (hheights 4 (by decide) 1).mpr ⟨by decide, by decide⟩⟩

/-- An addition on a stack of one value is accepted. -/
theorem run_accepted_add_eq_none :
    let is : List Instruction := [⟨0, .loadNull, none⟩, ⟨1, .binaryAdd, none⟩]
    (Listing.ofBytes [0x05, 0x20]).instructions = is ∧ (∀ i ∈ is, i.transfer?.isSome) ∧
      stackDepth [0x05, 0x20] = .ok 1 ∧ run 0 is = none :=
  ⟨by cbv, by decide, by cbv, by decide⟩

end Bytecode
