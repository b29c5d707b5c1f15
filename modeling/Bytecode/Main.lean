-- SUMMARY: The program: commands on the files of the machine.
import Bytecode.Cli.Execution

/-!
# The program

The outer layer: commands are run on the files and the standard streams of the machine, and the exit
code is set.
-/

namespace Bytecode.Cli

/-- The error of a number that the machine gives, some of its layers with the sign changed. -/
def errorOfNumber (number : UInt32) (text : String) : FileError :=
  FileError.ofNumber number.toInt32.toInt.natAbs text

/-- The refusal that an error of the machine stands for. -/
def fileError : IO.Error → FileError
  | .alreadyExists _ number text | .noFileOrDirectory _ number text
  | .invalidArgument _ number text | .permissionDenied _ number text
  | .resourceExhausted _ number text | .inappropriateType _ number text
  | .noSuchThing _ number text | .interrupted _ number text => errorOfNumber number text
  | .otherError number text | .resourceBusy number text | .resourceVanished number text
  | .unsupportedOperation number text | .hardwareFault number text
  | .unsatisfiedConstraints number text | .illegalOperation number text
  | .protocolError number text | .timeExpired number text => errorOfNumber number text
  | .unexpectedEof => .other 0 "unexpected end of file"
  | .userError text => .other 0 text

/-- An operation whose refusal is a result. -/
def attempt {α : Type} (action : IO α) : IO (Except FileError α) := do
  match ← action.toBaseIO with
  | .ok a => pure (.ok a)
  | .error e => pure (.error (fileError e))

/-- The files of the machine. -/
def machineFiles : Files IO where
  read p := attempt do
    let bytes ← IO.FS.readBinFile p.text
    pure bytes.data.toList
  write p bytes := attempt (IO.FS.writeBinFile p.text bytes.toByteArray)
  makeDirs p := attempt (IO.FS.createDirAll p.text)

/-- Whether an action comes to its end. -/
def completes (action : IO Unit) : IO Bool := do
  match ← action.toBaseIO with
  | .ok () => pure true
  | .error _ => pure false

/-- The standard streams of the machine. -/
def machineStreams : Streams IO where
  out text := completes (IO.print text)
  err text := completes (IO.eprint text)

end Bytecode.Cli

def main (arguments : List String) : IO UInt32 := do
  let code ← Bytecode.Cli.exec Bytecode.Cli.machineFiles Bytecode.Cli.machineStreams arguments
  pure (UInt32.ofNat code)
