-- SUMMARY: What a run of the program changes in a file tree, whatever files and streams refuse.
import Bytecode.Proofs.Cli.Arguments
import Bytecode.Proofs.Cli.Directories
import Bytecode.Proofs.Cli.Execution

/-!
# Effects of commands

The program is run on a file system that may refuse any operation, and may leave new files and
directories behind when it does, and with streams that may refuse any text. Only `asm` changes anything,
and only once there are bytes to write. Its report comes last: where that is refused, the output is
written already.
-/

namespace Bytecode.Cli

-- ---------------------------------------------------------------------------
-- File systems that may refuse
-- ---------------------------------------------------------------------------

/-- Every operation does what it does on a file tree, or it fails and changes no file that is there. -/
structure Files.Faithful (files : Files (StateM FileTree)) : Prop where
  read : ∀ t p, (files.read p).run t = (t.read p, t) ∨ ∃ e, (files.read p).run t = (.error e, t)
  write : ∀ t p bytes,
    (∃ t', t.write p bytes = .ok t' ∧ (files.write p bytes).run t = (.ok (), t')) ∨
      ∃ e t', (files.write p bytes).run t = (.error e, t') ∧ t.KeepsFiles t'
  makeDirs : ∀ t p,
    (∃ t', t.makeDirs p = (.ok (), t') ∧ (files.makeDirs p).run t = (.ok (), t')) ∨
      ∃ e t', (files.makeDirs p).run t = (.error e, t') ∧ t.KeepsFiles t'

theorem FileTree.files_faithful : FileTree.files.Faithful where
  read t p := .inl rfl
  write t p bytes := by
    rw [run_write]
    cases hwrite : t.write p bytes with
    | ok t' => exact .inl ⟨t', rfl, rfl⟩
    | error e => exact .inr ⟨e, t, rfl, .refl t⟩
  makeDirs t p := by
    have hrun : (FileTree.files.makeDirs p).run t = t.makeDirs p := rfl
    rw [hrun]
    cases hmake : t.makeDirs p with
    | mk result t' =>
      cases result with
      | ok u => exact .inl ⟨t', rfl, rfl⟩
      | error e => exact .inr ⟨e, t', rfl, (makeDirs_addsDirectories hmake).keepsFiles⟩

-- ---------------------------------------------------------------------------
-- How computations end
-- ---------------------------------------------------------------------------

/-- What holds of the result of a computation and of the tree that it leaves. -/
def Ends {α : Type} (x : StateM FileTree α) (t : FileTree) (post : α → FileTree → Prop) : Prop :=
  post (x.run t).1 (x.run t).2

section Ends

variable {α β : Type} {x : StateM FileTree α} {f : α → StateM FileTree β} {t t' : FileTree} {a : α}
  {mid : α → FileTree → Prop} {post : β → FileTree → Prop}

theorem ends_of_run (h : x.run t = (a, t')) (hpost : mid a t') : Ends x t mid := by
  rw [Ends, h]
  exact hpost

theorem ends_pure {b : β} (h : post b t) : Ends (pure b) t post := h

theorem Ends.mono {mid' : α → FileTree → Prop} (h : Ends x t mid)
    (himp : ∀ a t', mid a t' → mid' a t') : Ends x t mid' := himp _ _ h

theorem Ends.bind (hx : Ends x t mid) (hf : ∀ a t', mid a t' → Ends (f a) t' post) :
    Ends (x >>= f) t post := by
  have hrun := run_bind_of_run (rfl : x.run t = ((x.run t).1, (x.run t).2)) f
  rw [Ends, hrun]
  exact hf _ _ hx

end Ends

-- ---------------------------------------------------------------------------
-- Parts of the commands
-- ---------------------------------------------------------------------------

section Parts

variable {files : Files (StateM FileTree)}

theorem Files.Faithful.ends_read (hfiles : files.Faithful) (t : FileTree) (p : Path) :
    Ends (files.read p) t fun result t' =>
      t' = t ∧ ((files.read p).run t).1 = result ∧ ∀ bytes, result = .ok bytes → t.read p = .ok bytes := by
  obtain hrun | ⟨e, hrun⟩ := hfiles.read t p
  · exact ends_of_run hrun ⟨rfl, by rw [hrun], fun bytes h => h⟩
  · exact ends_of_run hrun ⟨rfl, by rw [hrun], fun bytes h => by cases h⟩

theorem Files.Faithful.ends_write (hfiles : files.Faithful) (t : FileTree) (p : Path)
    (bytes : List UInt8) :
    Ends (files.write p bytes) t fun result t' =>
      match result with
      | .ok () => t.write p bytes = .ok t'
      | .error _ => t.KeepsFiles t' := by
  obtain ⟨t', hwrite, hrun⟩ | ⟨e, t', hrun, hkeeps⟩ := hfiles.write t p bytes
  · exact ends_of_run hrun hwrite
  · exact ends_of_run hrun hkeeps

theorem Files.Faithful.ends_makeDirs (hfiles : files.Faithful) (t : FileTree) (p : Path) :
    Ends (files.makeDirs p) t fun result t' =>
      match result with
      | .ok () => t.makeDirs p = (.ok (), t')
      | .error _ => t.KeepsFiles t' := by
  obtain ⟨t', hmake, hrun⟩ | ⟨e, t', hrun, hkeeps⟩ := hfiles.makeDirs t p
  · exact ends_of_run hrun hmake
  · exact ends_of_run hrun hkeeps

theorem ends_loadBlock (hfiles : files.Faithful) (t : FileTree) (file : Path) :
    Ends (loadBlock files file) t fun _ t' => t' = t := by
  refine (hfiles.ends_read t file).bind fun result t' hread => ?_
  obtain ⟨rfl, -, -⟩ := hread
  split
  · exact ends_pure rfl
  · split <;> exact ends_pure rfl

/-- A text is read from the file, and it assembles to a block with these bytes. -/
structure Assembles (files : Files (StateM FileTree)) (t : FileTree) (file : Path) (source : String)
    (b : Block) (bytes : List UInt8) : Prop where
  run_read : ((files.read file).run t).1 = .ok (Text.utf8 source)
  read : t.read file = .ok (Text.utf8 source)
  assemble : Assembly.assemble source file.text = .ok b
  serialize : b.serialize = .ok bytes

theorem ends_assembleFile (hfiles : files.Faithful) (t : FileTree) (file : Path) :
    Ends (assembleFile files file) t fun result t' =>
      t' = t ∧ ∀ bytes, result = .ok bytes → ∃ source b, Assembles files t file source b bytes := by
  refine (hfiles.ends_read t file).bind fun result t' hread => ?_
  obtain ⟨rfl, hrun, hread⟩ := hread
  split
  · exact ends_pure ⟨rfl, fun _ h => by cases h⟩
  rename_i found
  split
  · exact ends_pure ⟨rfl, fun _ h => by cases h⟩
  rename_i source hsource
  obtain rfl := Text.ofUtf8?_eq_some_iff.mp hsource
  split
  · exact ends_pure ⟨rfl, fun _ h => by cases h⟩
  rename_i b hassemble
  split
  · exact ends_pure ⟨rfl, fun _ h => by cases h⟩
  rename_i bytes hserialize
  refine ends_pure ⟨rfl, fun bytes' h => ?_⟩
  cases h
  exact ⟨source, b, hrun, hread _ rfl, hassemble, hserialize⟩

theorem ends_makeRoom (hfiles : files.Faithful) (t : FileTree) (output : Path) :
    Ends (makeRoom files output) t fun result t' =>
      match result with
      | .ok () => t.MakesRoom output t'
      | .error _ => t.KeepsFiles t' := by
  unfold makeRoom
  split
  · exact ends_pure .nothing
  rename_i parent hparent
  split
  · exact ends_pure .nothing
  rename_i hsome
  refine (hfiles.ends_makeDirs t parent).bind fun result t' hmake => ?_
  split
  · exact ends_pure (.directories hparent hsome hmake)
  · exact ends_pure hmake

/-- Nothing changes before there are bytes to write, and no file changes if they are not written. -/
theorem ends_runAsm_written (hfiles : files.Faithful) (t : FileTree) (file : Path)
    (output : Option Path) :
    Ends (runAsm files file output) t fun result t' =>
      match result with
      | .ok outcome => ∃ source b bytes t₁, Assembles files t file source b bytes ∧
          t.MakesRoom (output.getD (defaultOutput file)) t₁ ∧
          t₁.write (output.getD (defaultOutput file)) bytes = .ok t' ∧
          outcome = { stderr := asmReport file (output.getD (defaultOutput file)) bytes }
      | .error _ => t.KeepsFiles t' ∧
          ((¬ ∃ source b bytes, Assembles files t file source b bytes) → t' = t) := by
  refine (ends_assembleFile hfiles t file).bind fun result t' hassembled => ?_
  obtain ⟨rfl, hassembled⟩ := hassembled
  split
  · exact ends_pure ⟨.refl t', fun _ => rfl⟩
  rename_i bytes
  obtain ⟨source, b, hassembles⟩ := hassembled bytes rfl
  have hexists : ∃ source b bytes, Assembles files t' file source b bytes :=
    ⟨source, b, bytes, hassembles⟩
  refine (ends_makeRoom hfiles t' _).bind fun result t₁ hroom => ?_
  split
  · exact ends_pure ⟨hroom, fun hnot => absurd hexists hnot⟩
  refine (hfiles.ends_write t₁ _ bytes).bind fun result t₂ hwrite => ?_
  split
  · exact ends_pure ⟨hroom.keepsFiles.trans hwrite, fun hnot => absurd hexists hnot⟩
  · exact ends_pure ⟨source, b, bytes, t₁, hassembles, hroom, hwrite, rfl⟩

/-- The path that is written when none is named differs from that of the file in the extension. -/
theorem asmTarget_of_write {t t₁ t' : FileTree} {file : Path} {output : Option Path}
    {source bytes : List UInt8} (hread : t.read file = .ok source)
    (hup : Path.Component.parent ∉ file.components)
    (hwrite : t₁.write (output.getD (defaultOutput file)) bytes = .ok t') :
    AsmTarget file output (output.getD (defaultOutput file)) := by
  cases output with
  | some p => rfl
  | none =>
    obtain ⟨hcheck, way, hleads⟩ := FileTree.exists_of_read hread
    obtain ⟨text, name, htext, hfront, hname, hdots⟩ :=
      hleads.exists_name (FileTree.text_ne_empty_of_checkText hcheck) hup
    have houtput : (file.withExtension "hbc").text.toList = _ :=
      Path.withExtension_of_name htext hfront hname hdots
    refine Path.takesExtension_withExtension htext hfront hname hdots fun hstem => ?_
    rw [if_pos hstem] at houtput
    exact FileTree.ne_dots_of_write hwrite houtput hfront rfl

/-- The target holds the bytes that the file assembles to, and nothing else is new but directories. -/
structure Stored (t t' : FileTree) (file : Path) (output : Option Path) (target : Path)
    (bytes : List UInt8) : Prop where
  assembled : ∃ source b, t.read file = .ok (Text.utf8 source) ∧
    Assembly.assemble source file.text = .ok b ∧ b.serialize = .ok bytes
  isTarget : AsmTarget file output target
  gains : t.Gains t' target bytes

theorem ends_runAsm (hfiles : files.Faithful) (t : FileTree) {file : Path} {output : Option Path}
    (hfile : Path.Component.parent ∉ file.components)
    (houtput : ∀ p, output = some p → Path.Component.parent ∉ p.components) :
    Ends (runAsm files file output) t fun result t' =>
      match result with
      | .ok outcome => (∃ source b bytes, Assembles files t file source b bytes) ∧
          ∃ target bytes, Stored t t' file output target bytes ∧
            outcome = { stderr := asmReport file target bytes }
      | .error _ => t.KeepsFiles t' ∧
          ((¬ ∃ source b bytes, Assembles files t file source b bytes) → t' = t) := by
  have hdescends : (output.getD (defaultOutput file)).Descends := by
    cases output with
    | none => exact Path.descends_withExtension hfile (by decide)
    | some p => exact Path.descends_of_parent_not_mem (houtput p rfl)
  refine (ends_runAsm_written hfiles t file output).mono fun result t' h => ?_
  cases result with
  | error f => exact h
  | ok outcome =>
    obtain ⟨source, b, bytes, t₁, hassembles, hroom, hwrite, houtcome⟩ := h
    refine ⟨⟨source, b, bytes, hassembles⟩, _, bytes, ?_, houtcome⟩
    exact {
      assembled := ⟨source, b, hassembles.read, hassembles.assemble, hassembles.serialize⟩
      isTarget := asmTarget_of_write hassembles.read hfile hwrite
      gains := hroom.gains hwrite hdescends }

end Parts

-- ---------------------------------------------------------------------------
-- Streams that may refuse
-- ---------------------------------------------------------------------------

namespace Streams

/-- What is put on the streams changes no file. -/
structure Apart (streams : Streams (StateM FileTree)) : Prop where
  out : ∀ t text, ((streams.out text).run t).2 = t
  err : ∀ t text, ((streams.err text).run t).2 = t

/-- The streams take every text. -/
structure TakesAll (streams : Streams (StateM FileTree)) : Prop where
  out : ∀ t text, ((streams.out text).run t).1 = true
  err : ∀ t text, ((streams.err text).run t).1 = true

/-- One of the texts that there are is refused. -/
def Refuses (streams : Streams (StateM FileTree)) (t : FileTree) (o : Outcome) : Prop :=
  (o.stdout ≠ "" ∧ ((streams.out o.stdout).run t).1 = false) ∨
    (o.stderr ≠ "" ∧ ((streams.err o.stderr).run t).1 = false)

variable {streams : Streams (StateM FileTree)}

theorem ends_offer {stream : String → StateM FileTree Bool}
    (hstream : ∀ t text, ((stream text).run t).2 = t) (t : FileTree) (text : String) :
    Ends (offer stream text) t fun taken t' =>
      t' = t ∧ (taken = false → text ≠ "" ∧ ((stream text).run t).1 = false) := by
  unfold offer
  split
  · exact ends_pure ⟨rfl, fun h => by cases h⟩
  · rename_i htext
    exact ⟨hstream t text, fun htaken => ⟨htext, htaken⟩⟩

theorem Apart.ends_take (hstreams : streams.Apart) (t : FileTree) (o : Outcome) :
    Ends (streams.take o) t fun taken t' => t' = t ∧ (taken = false → streams.Refuses t o) := by
  refine (ends_offer hstreams.out t o.stdout).bind fun printed t' hprinted => ?_
  obtain ⟨rfl, hprinted⟩ := hprinted
  refine (ends_offer hstreams.err t' o.stderr).bind fun reported t'' hreported => ?_
  obtain ⟨rfl, hreported⟩ := hreported
  refine ends_pure ⟨rfl, fun htaken => ?_⟩
  cases printed with
  | false => exact .inl (hprinted rfl)
  | true => exact .inr (hreported htaken)

end Streams

-- ---------------------------------------------------------------------------
-- The program
-- ---------------------------------------------------------------------------

section Program

variable {files : Files (StateM FileTree)} {streams : Streams (StateM FileTree)} {t : FileTree}
  {arguments : List String} {command : Command}

theorem ends_run {post : Outcome → FileTree → Prop}
    (hcommand : Command.ofArguments arguments = .ok command)
    (h : Ends (command.run files) t fun result t' =>
      match result with
      | .ok outcome => post outcome t'
      | .error f => post { code := 1, stderr := f.report } t') :
    Ends (run files arguments) t post := by
  unfold run
  rw [hcommand]
  refine h.bind fun result t' hpost => ?_
  split
  · exact ends_pure hpost
  · exact ends_pure hpost

/-- A command that fails ends with code 1, and one that has done its work may still break off. -/
theorem ends_exec {post : Nat → FileTree → Prop} (hstreams : streams.Apart)
    (hcommand : Command.ofArguments arguments = .ok command)
    (h : Ends (command.run files) t fun result t' =>
      match result with
      | .ok outcome => outcome.code = 0 ∧ post 0 t' ∧ (streams.Refuses t' outcome → post brokenOff t')
      | .error _ => post 1 t') :
    Ends (exec files streams arguments) t post := by
  have hrun : Ends (run files arguments) t fun outcome t' =>
      (outcome.code = 0 ∧ post 0 t' ∧ (streams.Refuses t' outcome → post brokenOff t')) ∨
        (outcome.code = 1 ∧ post 1 t') := by
    refine ends_run hcommand (h.mono fun result t' hpost => ?_)
    cases result with
    | ok outcome => exact .inl hpost
    | error f => exact .inr ⟨rfl, hpost⟩
  refine hrun.bind fun outcome t' hpost => ?_
  refine (hstreams.ends_take t' outcome).bind fun taken t'' htaken => ?_
  obtain ⟨rfl, hrefuses⟩ := htaken
  rw [hcommand]
  obtain ⟨hcode, hdone, hbroken⟩ | ⟨hcode, hfailed⟩ := hpost
  · rw [hcode]
    cases taken with
    | true => exact ends_pure hdone
    | false => exact ends_pure (hbroken (hrefuses rfl))
  · rw [hcode]
    cases taken <;> exact ends_pure hfailed

/--
What assembling a file changes, by the exit code. Only a run that breaks off has a code other than 0
after it has written its output, and that for the one reason that its report was refused.
-/
structure AsmEffect (files : Files (StateM FileTree)) (streams : Streams (StateM FileTree))
    (t : FileTree) (file : Path) (output : Option Path) (code : Nat) (t' : FileTree) : Prop where
  refused : (¬ ∃ source b, ((files.read file).run t).1 = .ok (Text.utf8 source) ∧
    Assembly.assemble source file.text = .ok b) → code ≠ 0 ∧ t' = t
  succeeded : code = 0 → ∃ target bytes, Stored t t' file output target bytes
  failed : code ≠ 0 → t.KeepsFiles t' ∨ code = brokenOff ∧
    ∃ target bytes, Stored t t' file output target bytes ∧
      ((streams.err (asmReport file target bytes)).run t').1 = false
  kept : streams.TakesAll → code ≠ 0 → t.KeepsFiles t'

/-- What a command changes, by the exit code. -/
def Command.Effect (files : Files (StateM FileTree)) (streams : Streams (StateM FileTree))
    (t : FileTree) (code : Nat) (t' : FileTree) : Command → Prop
  | .asm file output => AsmEffect files streams t file output code t'
  | .dis _ _ => t' = t
  | .depth _ => t' = t

section Asm

variable {t' : FileTree} {file target : Path} {output : Option Path} {bytes : List UInt8}

theorem AsmEffect.of_stored (h : Stored t t' file output target bytes)
    (hassembles : ∃ source b bytes, Assembles files t file source b bytes) :
    AsmEffect files streams t file output 0 t' where
  refused hnot := by
    obtain ⟨source, b, bytes, hassembles⟩ := hassembles
    exact absurd ⟨source, b, hassembles.run_read, hassembles.assemble⟩ hnot
  succeeded _ := ⟨target, bytes, h⟩
  failed hcode := absurd rfl hcode
  kept _ hcode := absurd rfl hcode

theorem AsmEffect.of_refuses (h : Stored t t' file output target bytes)
    (hassembles : ∃ source b bytes, Assembles files t file source b bytes)
    (hrefuses : streams.Refuses t' { stderr := asmReport file target bytes }) :
    AsmEffect files streams t file output brokenOff t' := by
  have hreport : ((streams.err (asmReport file target bytes)).run t').1 = false := by
    obtain ⟨hout, -⟩ | ⟨-, herr⟩ := hrefuses
    · exact absurd rfl hout
    · exact herr
  constructor
  case refused =>
    intro hnot
    obtain ⟨source, b, bytes, hassembles⟩ := hassembles
    exact absurd ⟨source, b, hassembles.run_read, hassembles.assemble⟩ hnot
  case succeeded => exact fun hcode => absurd hcode (by decide)
  case failed => exact fun _ => .inr ⟨rfl, target, bytes, h, hreport⟩
  case kept =>
    intro htakes
    rw [htakes.err] at hreport
    cases hreport

theorem AsmEffect.of_keepsFiles (hkeeps : t.KeepsFiles t')
    (hsame : (¬ ∃ source b bytes, Assembles files t file source b bytes) → t' = t) :
    AsmEffect files streams t file output 1 t' where
  refused hnot := by
    refine ⟨Nat.one_ne_zero, hsame ?_⟩
    rintro ⟨source, b, bytes, hassembles⟩
    exact hnot ⟨source, b, hassembles.run_read, hassembles.assemble⟩
  succeeded hcode := absurd hcode Nat.one_ne_zero
  failed _ := .inl hkeeps
  kept _ _ := hkeeps

end Asm

/-- Streams that give every text the same answer. -/
def steady (taken : Bool) : Streams (StateM FileTree) where
  out _ := pure taken
  err _ := pure taken

theorem steady_apart (taken : Bool) : (steady taken).Apart := ⟨fun _ _ => rfl, fun _ _ => rfl⟩

/-- A file tree in which the listing has been assembled to something else before. -/
def assembledTree : FileTree where
  nodes := [(["two.hasm"], .file (Text.utf8 ".const 2\nLOAD_CONST 0\nRETURN\n")),
    (["two.hbc"], .file [0x21])]

theorem Stored.gains_returningTwo {t t' : FileTree} {output : Option Path} {target : Path}
    {bytes : List UInt8}
    (hread : t.read ⟨"two.hasm"⟩ = .ok (Text.utf8 ".const 2\nLOAD_CONST 0\nRETURN\n"))
    (h : Stored t t' ⟨"two.hasm"⟩ output target bytes) :
    returningTwo.serialize = .ok bytes ∧ t.Gains t' (output.getD ⟨"two.hbc"⟩) bytes := by
  obtain ⟨source, b, hsource, hassemble, hserialize⟩ := h.assembled
  rw [hread, Except.ok.injEq, ← Text.ofUtf8?_eq_some_iff, Text.ofUtf8?_utf8] at hsource
  obtain rfl := Option.some.inj hsource
  obtain rfl := Except.ok.inj (assemble_returningTwo.symm.trans hassemble)
  have hdefault : defaultOutput ⟨"two.hasm"⟩ = ⟨"two.hbc"⟩ := by decide +kernel
  rw [← hdefault, h.isTarget.getD_eq]
  exact ⟨hserialize, h.gains⟩

end Program

end Bytecode.Cli
