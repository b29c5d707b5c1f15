-- SUMMARY: The command line: subcommands, options, and what is wrong with arguments.
import Bytecode.Cli.Path

/-!
# Arguments

The first argument names a subcommand, and the others belong to it: one file, and options. After a
double dash all arguments are files. The value of an option may be attached to it or follow it. What
is given is checked only when the next file or option begins, or at the end, so an argument that is
unknown is reported before a value that is wrong.
-/

namespace Bytecode.Cli

-- ---------------------------------------------------------------------------
-- Commands and errors
-- ---------------------------------------------------------------------------

/-- How a block is shown. -/
inductive Format where
  | text
  | json
  deriving DecidableEq

/-- What the program is asked to do. -/
inductive Command where
  | asm (file : Path) (output : Option Path)
  | dis (file : Path) (format : Format)
  | depth (file : Path)
  deriving DecidableEq

/-- Why arguments are no command. The first two ask for a text and are no mistakes. -/
inductive UsageError where
  | helpRequested
  | versionRequested
  | missingCommand
  | unknownCommand
  | unknownArgument
  | missingFile
  | invalidValue
  | refusedPath
  | repeatedOption
  | needlessValue
  deriving DecidableEq

/-- The subcommands. -/
inductive Verb where
  | asm
  | dis
  | depth
  deriving DecidableEq

/-- The options that take a value. -/
inductive Setting where
  | output
  | format
  deriving DecidableEq

/-- What the name of an option stands for. -/
inductive Flag where
  | help
  | setting (s : Setting)
  deriving DecidableEq

namespace Verb

def ofName? (name : String) : Option Verb :=
  if name = "asm" then some .asm
  else if name = "dis" then some .dis
  else if name = "depth" then some .depth
  else none

/-- The option of a long name. -/
def long? (v : Verb) (name : String) : Option Flag :=
  if name = "help" then some .help
  else if v = .asm ∧ name = "output" then some (.setting .output)
  else if v = .dis ∧ name = "format" then some (.setting .format)
  else none

/-- The option of a short name. -/
def short? (v : Verb) (name : Char) : Option Flag :=
  if name = 'h' then some .help
  else if v = .asm ∧ name = 'o' then some (.setting .output)
  else none

end Verb

/-- The name of the subcommand that shows help. -/
def helpName : String := "help"

/-- Whether an argument names a subcommand. -/
def isCommandName (name : String) : Bool := name = helpName || (Verb.ofName? name).isSome

def Format.ofName? (name : String) : Option Format :=
  if name = "text" then some .text
  else if name = "json" then some .json
  else none

-- ---------------------------------------------------------------------------
-- Shapes of arguments
-- ---------------------------------------------------------------------------

/-- What an argument looks like. A single dash is a word. -/
inductive Shape where
  | word
  | doubleDash
  /-- Two dashes and a name, and what follows an equals sign. -/
  | long (name : String) (value : Option String)
  /-- One dash and a letter, and what follows the letter. -/
  | short (name : Char) (rest : List Char)

def Shape.ofArgument (argument : String) : Shape :=
  match argument.toList with
  | ['-', '-'] => .doubleDash
  | '-' :: '-' :: cs =>
    .long (String.ofList (cs.takeWhile (· ≠ '=')))
      (match cs.dropWhile (· ≠ '=') with
        | [] => none
        | _ :: value => some (String.ofList value))
  | '-' :: c :: cs => .short c cs
  | _ => .word

/-- The value that is attached to a letter, with or without an equals sign. -/
def attachedValue : List Char → Option String
  | [] => none
  | '=' :: cs => some (String.ofList cs)
  | cs => some (String.ofList cs)

-- ---------------------------------------------------------------------------
-- Arguments of a subcommand
-- ---------------------------------------------------------------------------

/-- An argument that was given but not checked yet. -/
inductive Pending where
  | file (value : String)
  | setting (s : Setting) (value : Option String)

/-- What the arguments so far have set. -/
structure Given where
  file : Option Path := none
  output : Option Path := none
  format : Option Format := none
  pending : Option Pending := none

namespace Given

/-- Checks a path. -/
def checkPath (value : String) : Except UsageError Path :=
  match Path.sanitize value with
  | .ok p => .ok p
  | .error _ => .error .refusedPath

/-- Sets an option. -/
def assign (g : Given) (value : String) : Setting → Except UsageError Given
  | .output =>
    if g.output.isSome then .error .repeatedOption
    else (checkPath value).map fun p => { g with output := some p }
  | .format =>
    if g.format.isSome then .error .repeatedOption
    else
      match Format.ofName? value with
      | some f => .ok { g with format := some f }
      | none => .error .invalidValue

/-- Checks what is pending. -/
def settle (g : Given) : Except UsageError Given :=
  match g.pending with
  | none => .ok g
  | some (.file value) => (checkPath value).map fun p => { g with file := some p, pending := none }
  | some (.setting _ none) => .error .invalidValue
  | some (.setting s (some value)) => { g with pending := none }.assign value s

/-- Whether a file has been given, checked or not. -/
def hasFile (g : Given) : Bool :=
  g.file.isSome || match g.pending with
    | some (.file _) => true
    | _ => false

/-- Takes a file; there can be only one. -/
def takeFile (g : Given) (value : String) : Except UsageError Given :=
  if g.hasFile then .error .unknownArgument
  else g.settle.map fun g => { g with pending := some (.file value) }

/-- Takes an argument that does not look like an option: a value that is waited for, or a file. -/
def takeWord (g : Given) (word : String) : Except UsageError Given :=
  match g.pending with
  | some (.setting s none) => .ok { g with pending := some (.setting s (some word)) }
  | _ => g.takeFile word

/-- Takes an option, with its value if one is attached. -/
def takeFlag (g : Given) (flag : Flag) (value : Option String) : Except UsageError Given :=
  match g.settle with
  | .error e => .error e
  | .ok g =>
    match flag, value with
    | .help, _ => .error .helpRequested
    | .setting s, some value => g.assign value s
    | .setting s, none => .ok { g with pending := some (.setting s none) }

/-- Takes an argument in front of a double dash. -/
def take (v : Verb) (g : Given) (argument : String) : Except UsageError Given :=
  match Shape.ofArgument argument with
  | .word | .doubleDash => g.takeWord argument
  | .long name value =>
    match v.long? name with
    | none => .error .unknownArgument
    | some .help => if value.isSome then .error .needlessValue else g.takeFlag .help none
    | some flag => g.takeFlag flag value
  | .short name rest =>
    match v.short? name with
    | none => .error .unknownArgument
    | some flag => g.takeFlag flag (attachedValue rest)

/-- Takes the arguments of a subcommand. -/
def takeAll (v : Verb) (g : Given) : List String → Except UsageError Given
  | [] => g.settle
  | "--" :: files => do
    let g ← files.foldlM takeFile g
    g.settle
  | argument :: rest => do
    let g ← g.take v argument
    g.takeAll v rest

/-- The command that was given. -/
def command (v : Verb) (g : Given) : Except UsageError Command :=
  match g.file with
  | none => .error .missingFile
  | some file =>
    match v with
    | .asm => .ok (.asm file g.output)
    | .dis => .ok (.dis file (g.format.getD .text))
    | .depth => .ok (.depth file)

end Given

-- ---------------------------------------------------------------------------
-- All arguments
-- ---------------------------------------------------------------------------

/-- What is asked for by arguments after the help subcommand. -/
def helpTopic : List String → UsageError
  | [] => .helpRequested
  | [name] => if isCommandName name then .helpRequested else .unknownCommand
  | _ => .unknownCommand

/-- What is wrong with a first argument that names no subcommand. -/
def rejectFirst (argument : String) (rest : List String) : UsageError :=
  match Shape.ofArgument argument with
  | .word => .unknownCommand
  | .doubleDash =>
    match rest with
    | [] => .missingCommand
    | name :: _ => if isCommandName name then .unknownArgument else .unknownCommand
  | .long name value =>
    if name = "help" ∨ name = "version" then
      if value.isSome then .needlessValue
      else if name = "help" then .helpRequested
      else .versionRequested
    else .unknownArgument
  | .short name _ =>
    if name = 'h' then .helpRequested
    else if name = 'V' then .versionRequested
    else .unknownArgument

/-- The command that arguments stand for. -/
def Command.ofArguments : List String → Except UsageError Command
  | [] => .error .missingCommand
  | first :: rest =>
    match Verb.ofName? first with
    | some v => (Given.takeAll v {} rest).bind (Given.command v)
    | none => .error (if first = helpName then helpTopic rest else rejectFirst first rest)

end Bytecode.Cli
