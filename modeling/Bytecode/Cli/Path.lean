-- SUMMARY: File paths as texts: components, extensions, parents.

/-!
# Paths

A path is a text. Slashes separate its segments; empty segments, and segments of one dot that do not
stand first, say nothing. A path that must not leave the directory it starts from has no segment of two
dots.
-/

namespace Bytecode.Cli

structure Path where
  text : String
  deriving DecidableEq

namespace Path

/-- A segment of a path that says something. -/
inductive Component where
  | root
  | current
  | parent
  | normal (name : String)
  deriving DecidableEq

def splitSlashes : List Char → List (List Char)
  | [] => [[]]
  | '/' :: cs => [] :: splitSlashes cs
  | c :: cs =>
    match splitSlashes cs with
    | [] => [[c]]
    | segment :: rest => (c :: segment) :: rest

def segments (p : Path) : List String := (splitSlashes p.text.toList).map String.ofList

def isAbsolute (p : Path) : Bool := p.text.toList.head? = some '/'

/-- The component of a segment that does not stand first. -/
def Component.ofSegment? (segment : String) : Option Component :=
  if segment = "" ∨ segment = "." then none
  else if segment = ".." then some .parent
  else some (.normal segment)

def components (p : Path) : List Component :=
  match p.segments with
  | [] => []
  | first :: rest =>
    (if p.isAbsolute then [.root] else if first = "." then [.current] else []) ++
      (first :: rest).filterMap Component.ofSegment?

def parentRefused : String :=
  "Parent directory components ('..') are not allowed in file paths."

/-- The path of a text, if it has no segment of two dots. -/
def sanitize (text : String) : Except String Path :=
  if Component.parent ∈ (Path.mk text).components then .error parentRefused else .ok ⟨text⟩

/-- Cuts slashes and segments of one dot off the end; the text is given and returned backwards. -/
def dropTail : List Char → List Char
  | '/' :: cs => dropTail cs
  | '.' :: '/' :: cs => dropTail ('/' :: cs)
  | cs => cs

/-- The text before the last component, and the last component. -/
def splitLast (p : Path) : List Char × List Char :=
  let backwards := dropTail p.text.toList.reverse
  ((backwards.dropWhile (· ≠ '/')).reverse, (backwards.takeWhile (· ≠ '/')).reverse)

/-- A name up to its last dot, unless that dot stands first. -/
def stem (name : List Char) : List Char :=
  let backwards := name.reverse
  match backwards.dropWhile (· ≠ '.') with
  | [] => name
  | _ :: front => if front.isEmpty then name else front.reverse

/-- The path whose last component has another extension; a path without a name stays as it is. The old
extension is cut off behind its dot first: what then stays of `..x` is the parent directory, which has
no extension to set, unless more of the text follows. -/
def withExtension (p : Path) (extension : String) : Path :=
  let (front, name) := p.splitLast
  if name = [] ∨ name = ['.'] ∨ name = ['.', '.'] then p
  else if stem name = ['.'] ∧ p.text.toList = front ++ name then
    ⟨String.ofList (front ++ ['.', '.'])⟩
  else ⟨String.ofList (front ++ stem name) ++ "." ++ extension⟩

/-- The path before the last component; `none` if it has no component or is the root. -/
def parent? (p : Path) : Option Path :=
  let (front, name) := p.splitLast
  if name.isEmpty then none
  else
    match (dropTail front.reverse).reverse with
    | [] => some ⟨if front.isEmpty then "" else "/"⟩
    | cs => some ⟨String.ofList cs⟩

end Path

end Bytecode.Cli
