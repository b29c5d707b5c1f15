-- SUMMARY: Running commands on a file system.
import Bytecode.Assembly.Source
import Bytecode.ClassTable
import Bytecode.Cli.Arguments
import Bytecode.Cli.Files
import Bytecode.Render.Text
import Bytecode.Render.View
import Bytecode.Text.Utf8
import Bytecode.Wire.Emission

/-!
# Execution

`asm` assembles a file and writes the block, `dis` shows a block, `depth` shows the stack slots that it
needs. What goes wrong is reported with its causes, the outermost first. A command that has done its
work must also get its texts out: if the standard streams refuse them, the program breaks off.
-/

namespace Bytecode.Cli

/-- Why a command does not succeed. -/
inductive Failure where
  | unreadable (file : Path) (cause : FileError)
  | notText (file : Path)
  | unassembled (file : Path) (cause : Assembly.AssembleError)
  | unserializable (cause : SerializeError)
  | noDirectory (output : Path) (cause : FileError)
  | unwritable (output : Path) (cause : FileError)
  | unloadable (file : Path) (cause : Wire.ReadError)
  deriving DecidableEq

namespace Failure

/-- The messages from the outermost to the first cause. -/
def chain : Failure → List String
  | .unreadable file cause => [s!"Failed to read file '{file.text}'", cause.message]
  | .notText file =>
    [s!"Failed to read file '{file.text}'", "stream did not contain valid UTF-8"]
  | .unassembled file cause => s!"Failed to assemble {file.text}" :: cause.chain
  | .unserializable cause => [cause.message]
  | .noDirectory output cause =>
    [s!"Failed to create parent directory for {output.text}", cause.message]
  | .unwritable output cause => [s!"Failed to write bytecode to {output.text}", cause.message]
  | .unloadable file cause => s!"Failed to load bytecode from {file.text}" :: cause.chain

/-- The first line of a text after one text, and its other lines after another. -/
def hanging (first other text : String) : String :=
  first ++ ("\n" ++ other).intercalate (text.splitOn "\n")

/-- The number of a cause, filled with blanks on the left to five characters. -/
def ordinal (n : Nat) : String :=
  let digits := toString n
  String.ofList (List.replicate (5 - digits.length) ' ') ++ digits ++ ": "

/-- The causes, indented; they are numbered if there are several. -/
def causeLines : List String → List String
  | [cause] => [hanging "    " "    " cause]
  | causes => causes.zipIdx.map fun (cause, n) => hanging (ordinal n) "       " cause

/-- The message, and the causes below it. -/
def report (f : Failure) : String :=
  match f.chain with
  | [] => ""
  | [message] => s!"Error: {message}\n"
  | message :: causes =>
    s!"Error: {message}\n\nCaused by:\n" ++ "\n".intercalate (causeLines causes) ++ "\n"

end Failure

/-- What a run of the program leaves besides files. -/
structure Outcome where
  code : Nat := 0
  stdout : String := ""
  stderr : String := ""
  deriving DecidableEq

section Commands

variable {m : Type → Type} [Monad m] (files : Files m)

/-- The block in a file, with all its classes registered. -/
def loadBlock (file : Path) : m (Except Failure (Block × ClassTable)) := do
  match ← files.read file with
  | .error e => pure (.error (.unreadable file e))
  | .ok bytes =>
    match ClassTable.load {} bytes with
    | (.ok block, classes) => pure (.ok (block, classes))
    | (.error e, _) => pure (.error (.unloadable file e))

/-- The block that a text file assembles to, and its bytes. -/
def assembleFile (file : Path) : m (Except Failure (List UInt8)) := do
  match ← files.read file with
  | .error e => pure (.error (.unreadable file e))
  | .ok bytes =>
    match Text.ofUtf8? bytes with
    | none => pure (.error (.notText file))
    | some source =>
      match Assembly.assemble source file.text with
      | .error e => pure (.error (.unassembled file e))
      | .ok block =>
        match block.serialize with
        | .error e => pure (.error (.unserializable e))
        | .ok bytes => pure (.ok bytes)

/-- Makes the directory that a file is to be written in. -/
def makeRoom (output : Path) : m (Except Failure Unit) := do
  match output.parent? with
  | none => pure (.ok ())
  | some parent =>
    if parent.text = "" then pure (.ok ())
    else
      match ← files.makeDirs parent with
      | .ok () => pure (.ok ())
      | .error e => pure (.error (.noDirectory output e))

/-- Where a block goes when no output is named. -/
def defaultOutput (file : Path) : Path := file.withExtension "hbc"

/-- Assembles a file into another. -/
def runAsm (file : Path) (output : Option Path) : m (Except Failure Outcome) := do
  match ← assembleFile files file with
  | .error f => pure (.error f)
  | .ok bytes =>
    let output := output.getD (defaultOutput file)
    match ← makeRoom files output with
    | .error f => pure (.error f)
    | .ok () =>
      match ← files.write output bytes with
      | .error e => pure (.error (.unwritable output e))
      | .ok () =>
        pure
          (.ok
            { stderr := s!"Assembled {file.text} to {output.text} ({bytes.length} bytes)\n" })

/-- Runs a command. -/
def Command.run : Command → m (Except Failure Outcome)
  | .asm file output => runAsm files file output
  | .dis file format => do
    match ← loadBlock files file with
    | .error f => pure (.error f)
    | .ok (block, _) =>
      match format with
      | .text => pure (.ok { stdout := block.text })
      | .json => pure (.ok { stdout := block.json ++ "\n" })
  | .depth file => do
    match ← loadBlock files file with
    | .error f => pure (.error f)
    | .ok (block, _) => pure (.ok { stdout := s!"{block.chunk.stackDepth}\n" })

end Commands

/-- The name and version of the program. -/
def version : String := "hvm 0.1.0\n"

/-- How the program is used. -/
def usage : String :=
  "Assemble, inspect and verify HVM bytecode blocks\n\n" ++
    "Usage: hvm asm FILE [-o OUT]\n" ++
    "       hvm dis FILE [--format text|json]\n" ++
    "       hvm depth FILE\n"

/-- What is said about arguments that are no command. -/
def UsageError.outcome : UsageError → Outcome
  | .helpRequested => { stdout := usage }
  | .versionRequested => { stdout := version }
  | _ => { code := 2, stderr := usage }

/-- Runs the program with its arguments. -/
def run {m : Type → Type} [Monad m] (files : Files m) (arguments : List String) : m Outcome := do
  match Command.ofArguments arguments with
  | .error e => pure e.outcome
  | .ok command =>
    match ← command.run files with
    | .ok outcome => pure outcome
    | .error f => pure { code := 1, stderr := f.report }

-- ---------------------------------------------------------------------------
-- Standard streams
-- ---------------------------------------------------------------------------

/-- The standard streams; each says whether it has taken the whole of a text. -/
structure Streams (m : Type → Type) where
  out : String → m Bool
  err : String → m Bool

/-- Puts a text on a stream, which is not asked to take nothing. -/
def offer {m : Type → Type} [Monad m] (stream : String → m Bool) (text : String) : m Bool :=
  if text = "" then pure true else stream text

/-- Puts the texts of an outcome on the streams, and says whether all of both has been taken. -/
def Streams.take {m : Type → Type} [Monad m] (streams : Streams m) (o : Outcome) : m Bool := do
  let printed ← offer streams.out o.stdout
  let reported ← offer streams.err o.stderr
  pure (printed && reported)

/-- The code of a run that breaks off because what it has to say is refused. -/
def brokenOff : Nat := 101

/--
Runs the program and puts its texts on the streams. It breaks off if the texts of a command that has
done its work are refused; the code of any other run says already that something is wrong, or that the
program was only asked about itself.
-/
def exec {m : Type → Type} [Monad m] (files : Files m) (streams : Streams m)
    (arguments : List String) : m Nat := do
  let outcome ← run files arguments
  let taken ← streams.take outcome
  match taken, Command.ofArguments arguments, outcome.code with
  | false, .ok _, 0 => pure brokenOff
  | _, _, code => pure code

end Bytecode.Cli
