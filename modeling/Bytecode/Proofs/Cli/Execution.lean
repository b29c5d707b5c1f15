-- SUMMARY: Runs of the commands on a file tree: what is assembled is shown as it was assembled.
import Bytecode.Cli.Execution
import Bytecode.Proofs.Assembly.Storing
import Bytecode.Proofs.Cli.Extension
import Bytecode.Proofs.Flat

/-!
# Runs of commands

A block that is in a file is shown by the commands as it was when it was written. An assembled block
can always be written, so that assembling a text either ends with a refusal of the file system or
leaves a file in which the other commands find the block.
-/

namespace Bytecode.Cli

variable {t t' : FileTree} {file output target : Path} {bytes : List UInt8} {b : Block}

/-- The commands find a block in the file, of which they print this, and leave the tree as it is. -/
structure FileTree.Shows (t : FileTree) (file : Path) (depth : Nat) (text json : String) : Prop where
  depth_eq : (Command.run FileTree.files (.depth file)).run t =
    (.ok { stdout := toString depth ++ "\n" }, t)
  text_eq : (Command.run FileTree.files (.dis file .text)).run t = (.ok { stdout := text }, t)
  json_eq : (Command.run FileTree.files (.dis file .json)).run t = (.ok { stdout := json ++ "\n" }, t)

theorem run_bind_of_run {σ α β : Type} {x : StateM σ α} {s s' : σ} {a : α} (h : x.run s = (a, s'))
    (f : α → StateM σ β) : (x >>= f).run s = (f a).run s' := by
  rw [StateT.run_bind, h]
  rfl

theorem run_read (t : FileTree) (file : Path) :
    (FileTree.files.read file).run t = (t.read file, t) := rfl

theorem run_loadBlock (hread : t.read file = .ok bytes)
    (hload : ClassTable.load {} bytes = (.ok b, {})) :
    (loadBlock FileTree.files file).run t = (.ok (b, {}), t) := by
  rw [loadBlock, run_bind_of_run (run_read t file), hread]
  simp only [hload]
  rfl

theorem FileTree.shows_of_read {depth : Nat} (hread : t.read file = .ok bytes)
    (hload : ClassTable.load {} bytes = (.ok b, {})) (hdepth : b.chunk.stackDepth = depth) :
    t.Shows file depth b.text b.json where
  depth_eq := by
    rw [Command.run, run_bind_of_run (run_loadBlock hread hload), ← hdepth]
    rfl
  text_eq := by
    rw [Command.run, run_bind_of_run (run_loadBlock hread hload)]
    rfl
  json_eq := by
    rw [Command.run, run_bind_of_run (run_loadBlock hread hload)]
    rfl

theorem run_assembleFile {source : String} (hread : t.read file = .ok (Text.utf8 source))
    (hassemble : Assembly.assemble source file.text = .ok b) (hserialize : b.serialize = .ok bytes) :
    (assembleFile FileTree.files file).run t = (.ok bytes, t) := by
  rw [assembleFile, run_bind_of_run (run_read t file), hread]
  simp only [Text.ofUtf8?_utf8, hassemble, hserialize]
  rfl

/-- What comes of making the directory that a file is to be written in, if its path names one. -/
def FileTree.withRoom (t : FileTree) (p : Path) : Except FileError Unit × FileTree :=
  match p.parent? with
  | none => (.ok (), t)
  | some parent => if parent.text = "" then (.ok (), t) else t.makeDirs parent

theorem run_makeRoom (t : FileTree) (output : Path) :
    (makeRoom FileTree.files output).run t =
      match t.withRoom output with
      | (.ok (), t₁) => (.ok (), t₁)
      | (.error e, t₁) => (.error (.noDirectory output e), t₁) := by
  cases hparent : output.parent? with
  | none =>
    simp only [makeRoom, FileTree.withRoom, hparent]
    rfl
  | some parent =>
    by_cases hempty : parent.text = ""
    · simp only [makeRoom, FileTree.withRoom, hparent, if_pos hempty]
      rfl
    · have hmake : (FileTree.files.makeDirs parent).run t = t.makeDirs parent := rfl
      simp only [makeRoom, FileTree.withRoom, hparent, if_neg hempty]
      cases hresult : t.makeDirs parent with
      | mk result t₁ =>
        rw [hresult] at hmake
        rw [run_bind_of_run hmake]
        cases result <;> rfl

theorem run_write (t : FileTree) (output : Path) (bytes : List UInt8) :
    (FileTree.files.write output bytes).run t =
      match t.write output bytes with
      | .ok t' => (.ok (), t')
      | .error e => (.error e, t) := by
  have hwrite : FileTree.files.write output bytes = fun t =>
      (match t.write output bytes with
        | .ok t' => do set t'; pure (.ok ())
        | .error e => pure (.error e) : StateM FileTree (Except FileError Unit)) t := rfl
  rw [hwrite]
  change (match t.write output bytes with
    | .ok t' => do set t'; pure (.ok ())
    | .error e => pure (.error e) : StateM FileTree (Except FileError Unit)) t = _
  cases t.write output bytes <;> rfl

/-- Where a file is assembled to: the path that is named, or that of the file by its extension. -/
def AsmTarget (file : Path) (output : Option Path) (target : Path) : Prop :=
  match output with
  | some p => target = p
  | none => file.TakesExtension "hbc" target

theorem AsmTarget.getD_eq {output : Option Path} (h : AsmTarget file output target) :
    output.getD (defaultOutput file) = target := by
  cases output with
  | some p => exact Eq.symm h
  | none => exact Path.withExtension_eq_of_takesExtension h

/-- What `asm` says when it is done. -/
def asmReport (file target : Path) (bytes : List UInt8) : String :=
  "Assembled " ++ file.text ++ " to " ++ target.text ++ " (" ++ toString bytes.length ++ " bytes)\n"

/--
How a file that assembles to the bytes is assembled to a target: the directories above the target are
made, then the bytes are written, and only what the tree refuses of this is reported.
-/
structure FileTree.Stores (t : FileTree) (file : Path) (output : Option Path) (target : Path)
    (bytes : List UInt8) : Prop where
  noDirectory : ∀ e t₁, t.withRoom target = (.error e, t₁) →
    (Command.run FileTree.files (.asm file output)).run t = (.error (.noDirectory target e), t₁)
  unwritable : ∀ e t₁, t.withRoom target = (.ok (), t₁) → t₁.write target bytes = .error e →
    (Command.run FileTree.files (.asm file output)).run t = (.error (.unwritable target e), t₁)
  written : ∀ t₁ t', t.withRoom target = (.ok (), t₁) → t₁.write target bytes = .ok t' →
    (Command.run FileTree.files (.asm file output)).run t =
      (.ok { stderr := asmReport file target bytes }, t') ∧
    t'.read target = .ok bytes

theorem run_asm {output : Option Path} (h : (assembleFile FileTree.files file).run t = (.ok bytes, t))
    (htarget : AsmTarget file output target) :
    (Command.run FileTree.files (.asm file output)).run t =
      match t.withRoom target with
      | (.error e, t₁) => (.error (.noDirectory target e), t₁)
      | (.ok (), t₁) =>
        match t₁.write target bytes with
        | .error e => (.error (.unwritable target e), t₁)
        | .ok t' => (.ok { stderr := asmReport file target bytes }, t') := by
  have hroom := run_makeRoom t target
  rw [Command.run, runAsm, run_bind_of_run h]
  simp only [htarget.getD_eq]
  cases hmade : t.withRoom target with
  | mk result t₁ =>
    rw [hmade] at hroom
    cases result with
    | error e =>
      rw [run_bind_of_run hroom]
      rfl
    | ok u =>
      have hwrite := run_write t₁ target bytes
      rw [run_bind_of_run hroom]
      cases hresult : t₁.write target bytes with
      | error e =>
        rw [hresult] at hwrite
        simp only [run_bind_of_run hwrite, hresult]
        rfl
      | ok t' =>
        rw [hresult] at hwrite
        simp only [run_bind_of_run hwrite, hresult]
        rfl

theorem FileTree.stores_of_run {output : Option Path}
    (h : (assembleFile FileTree.files file).run t = (.ok bytes, t))
    (htarget : AsmTarget file output target) : t.Stores file output target bytes where
  noDirectory e t₁ hroom := by rw [run_asm h htarget, hroom]
  unwritable e t₁ hroom hwrite := by
    rw [run_asm h htarget, hroom]
    simp only [hwrite]
  written t₁ t' hroom hwrite := by
    refine ⟨?_, FileTree.read_write hwrite⟩
    rw [run_asm h htarget, hroom]
    simp only [hwrite]

/-- A block that returns a constant. -/
def returningTwo : Block where
  chunk :=
    { code := [0x40, 0x00, 0x04], consts := [.int 2], filename := "two.hasm", startLine := 1 }

theorem assemble_returningTwo :
    Assembly.assemble ".const 2\nLOAD_CONST 0\nRETURN\n" "two.hasm" = .ok returningTwo := by cbv

/-- A file tree with a listing in its working directory. -/
def listingTree : FileTree where
  nodes := [(["two.hasm"], .file (Text.utf8 ".const 2\nLOAD_CONST 0\nRETURN\n"))]

end Bytecode.Cli
