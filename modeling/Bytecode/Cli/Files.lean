-- SUMMARY: What the commands need of a file system, and a file system in memory.
import Bytecode.Cli.Path
import Bytecode.Table

/-!
# Files

The commands read files, write files and make directories, and nothing else. `Files` is what they ask
for; `FileTree` is a file system in memory that answers as a POSIX one does. Relative paths start at
its working directory.
-/

namespace Bytecode.Cli

-- ---------------------------------------------------------------------------
-- Errors
-- ---------------------------------------------------------------------------

inductive FileError where
  | notFound
  | alreadyExists
  | notDirectory
  | isDirectory
  | nameTooLong
  | other (number : Nat) (text : String)
  deriving DecidableEq

namespace FileError

def number : FileError → Nat
  | .notFound => 2
  | .alreadyExists => 17
  | .notDirectory => 20
  | .isDirectory => 21
  | .nameTooLong => 36
  | .other number _ => number

def text : FileError → String
  | .notFound => "No such file or directory"
  | .alreadyExists => "File exists"
  | .notDirectory => "Not a directory"
  | .isDirectory => "Is a directory"
  | .nameTooLong => "File name too long"
  | .other _ text => text

/-- The error of a number; the text is for numbers that have no error of their own. -/
def ofNumber (number : Nat) (text : String) : FileError :=
  match number with
  | 2 => .notFound
  | 17 => .alreadyExists
  | 20 => .notDirectory
  | 21 => .isDirectory
  | 36 => .nameTooLong
  | _ => .other number text

def message (e : FileError) : String := s!"{e.text} (os error {e.number})"

end FileError

structure Files (m : Type → Type) where
  read : Path → m (Except FileError (List UInt8))
  write : Path → List UInt8 → m (Except FileError Unit)
  /-- Makes a directory with all directories above it that are missing. -/
  makeDirs : Path → m (Except FileError Unit)

-- ---------------------------------------------------------------------------
-- File trees
-- ---------------------------------------------------------------------------

/-- What a path leads to. -/
inductive Node where
  | file (bytes : List UInt8)
  | directory
  deriving DecidableEq

structure FileTree where
  /-- Files and directories by the names on the way from the root. -/
  nodes : Table (List String) Node := []
  /-- The way to the working directory. -/
  home : List String := []
  deriving DecidableEq

namespace FileTree

/-- The longest name in bytes. -/
def maxName : Nat := 255

/-- The longest path in bytes. -/
def maxPath : Nat := 4095

/-- What is at the end of a way; the root is a directory. -/
def find? (t : FileTree) (way : List String) : Option Node :=
  if way = [] then some .directory else t.nodes.find? way

def put (t : FileTree) (way : List String) (node : Node) : FileTree :=
  { t with nodes := t.nodes.insert way node }

/-- The way on which the components of a path set out. -/
def start (t : FileTree) (p : Path) : List String := if p.isAbsolute then [] else t.home

/-- Refuses texts that can be no path. -/
def checkText (p : Path) : Except FileError Unit :=
  if p.text = "" then .error .notFound
  else if maxPath < p.text.utf8ByteSize then .error .nameTooLong
  else .ok ()

/-- The segments to follow: a slash at the end asks for a directory, as a dot does. -/
def steps (p : Path) : List String :=
  p.segments.filter (· ≠ "") ++ if p.text.toList.getLast? = some '/' then ["."] else []

/-- Follows segments from a way on; all but the last must lead to directories. -/
def walk (t : FileTree) (way : List String) : List String → Except FileError (List String × Node)
  | [] =>
    match t.find? way with
    | some node => .ok (way, node)
    | none => .error .notFound
  | segment :: rest =>
    match t.find? way with
    | none => .error .notFound
    | some (.file _) => .error .notDirectory
    | some .directory =>
      if segment = "." then t.walk way rest
      else if segment = ".." then t.walk way.dropLast rest
      else if maxName < segment.utf8ByteSize then .error .nameTooLong
      else t.walk (way ++ [segment]) rest

def read (t : FileTree) (p : Path) : Except FileError (List UInt8) :=
  match checkText p with
  | .error e => .error e
  | .ok () =>
    match t.walk (t.start p) (steps p) with
    | .error e => .error e
    | .ok (_, .directory) => .error .isDirectory
    | .ok (_, .file bytes) => .ok bytes

/-- Sets the content of a file, which may be new. -/
def write (t : FileTree) (p : Path) (bytes : List UInt8) : Except FileError FileTree :=
  match checkText p with
  | .error e => .error e
  | .ok () =>
    match (steps p).getLast? with
    | none => .error .isDirectory
    | some last =>
      let front := if p.text.toList.getLast? = some '/' then (steps p).dropLast.dropLast
        else (steps p).dropLast
      match t.walk (t.start p) front with
      | .error e => .error e
      | .ok (_, .file _) => .error .notDirectory
      | .ok (way, .directory) =>
        if last = "." ∨ last = ".." then .error .isDirectory
        else if maxName < last.utf8ByteSize then .error .nameTooLong
        else
          match t.find? (way ++ [last]) with
          | some .directory => .error .isDirectory
          | _ => .ok (t.put (way ++ [last]) (.file bytes))

/-- Makes the directories that are missing along components from a way on. -/
def makeWay (t : FileTree) (way : List String) :
    List Path.Component → Except FileError Unit × FileTree
  | [] => (.ok (), t)
  | .root :: rest => t.makeWay [] rest
  | .current :: rest => t.makeWay way rest
  | .parent :: rest => t.makeWay way.dropLast rest
  | .normal name :: rest =>
    match t.find? (way ++ [name]) with
    | some .directory => t.makeWay (way ++ [name]) rest
    | some (.file _) => (.error (if rest.isEmpty then .alreadyExists else .notDirectory), t)
    | none =>
      if maxName < name.utf8ByteSize then (.error .nameTooLong, t)
      else (t.put (way ++ [name]) .directory).makeWay (way ++ [name]) rest

def makeDirs (t : FileTree) (p : Path) : Except FileError Unit × FileTree :=
  match checkText p with
  | .error e => (.error e, t)
  | .ok () => t.makeWay t.home p.components

/-- A file tree as the file system of the commands. -/
def files : Files (StateM FileTree) where
  read p := do
    let t ← get
    pure (t.read p)
  write p bytes := do
    let t ← get
    match t.write p bytes with
    | .ok t' =>
      set t'
      pure (.ok ())
    | .error e => pure (.error e)
  makeDirs p := modifyGet (·.makeDirs p)

end FileTree

end Bytecode.Cli
