-- SUMMARY: Readable listings of block trees.
import Bytecode.Block

/-!
# Text listings

Every block has a header, its tables where they are not empty, and its instructions. Declarations
follow with their bodies indented: functions by one level, methods by one and their bodies by two.
-/

namespace Bytecode

namespace Render

/-- A line at a level of indentation. -/
def indented (depth : Nat) (line : String) : String :=
  String.ofList (List.replicate (4 * depth) ' ') ++ line

/-- A table that is shown only if it holds something. -/
def tableLine (title : String) (items : List String) : List String :=
  if items.isEmpty then [] else [title ++ ": [" ++ ", ".intercalate items ++ "]"]

/-- A parameter with the mark of its kind. -/
def paramText (p : Param) : String :=
  match p.kind with
  | .value => "$" ++ p.name
  | .reference => "&$" ++ p.name
  | .variadic => "...$" ++ p.name

/-- The parameters in brackets. -/
def signatureText (s : Signature) : String := "(" ++ ", ".intercalate (s.params.map paramText) ++ ")"

/-- The lines of a chunk, without indentation. -/
def chunkLines (c : Chunk Value) : List String :=
  [s!"{c.label} stackdepth={c.stackDepth}"] ++ tableLine "consts" (c.consts.map Value.text) ++
    tableLine "names" c.names ++ tableLine "varnames" c.varnames ++ c.listing.lines none

end Render

open Render

mutual

/-- The lines of a block at a level of indentation. -/
def Block.lines (depth : Nat) : Block → List String
  | ⟨chunk, _, decls⟩ => (chunkLines chunk).map (indented depth) ++ Decl.lines depth decls

/-- The lines of declarations. -/
def Decl.lines (depth : Nat) : List Decl → List String
  | [] => []
  | .function f :: rest => Function.lines depth f ++ Decl.lines depth rest
  | .class c :: rest => Class.lines depth c ++ Decl.lines depth rest

/-- The lines of a function. -/
def Function.lines (depth : Nat) : Function → List String
  | ⟨signature, body⟩ =>
    indented depth ("function " ++ body.chunk.name ++ signatureText signature) ::
      Block.lines (depth + 1) body

/-- The lines of a class. -/
def Class.lines (depth : Nat) : Class → List String
  | ⟨header, methods⟩ => indented depth ("class " ++ header.name) :: Method.lines depth methods

/-- The lines of the methods of a class. -/
def Method.lines (depth : Nat) : List (String × Method) → List String
  | [] => []
  | (name, ⟨flags, ⟨signature, body⟩⟩) :: rest =>
    (indented (depth + 1)
        s!"method {name}{signatureText signature} flags={flags.bits.toInt}" ::
      Block.lines (depth + 2) body) ++
      Method.lines depth rest

end

/-- The listing of a block and of everything in it. -/
def Block.text (b : Block) : String := String.join ((b.lines 0).map (· ++ "\n"))

end Bytecode
