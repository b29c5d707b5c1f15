-- SUMMARY: Listings written line by line behind a text.
import Bytecode.Disassembler
import Bytecode.Render.Text
import Bytecode.Text.Lines

/-!
# Writing listings

`Block.lines` puts the lines of a block tree together before any of them is written. The writer here
walks over the tree with the text that it has written so far, and puts every line behind it: the header
of a block, the tables that are not empty, the dump of its code, which it cuts into lines again, and
what is declared. It goes into the body of a function one level deeper, and into that of a method two.
-/

namespace Bytecode

namespace Render

/-- Puts a line at a level of indentation behind a text. -/
def writeLine (depth : Nat) (out line : String) : String := out ++ indented depth line ++ "\n"

/-- Puts a table behind a text if it holds something. -/
def writeTable (depth : Nat) (title : String) (out : String) (items : List String) : String :=
  if items.isEmpty then out
  else writeLine depth out (title ++ ": [" ++ ", ".intercalate items ++ "]")

/-- The line in front of the tables of a chunk. -/
def headerLine (c : Chunk Value) : String := s!"{c.label} stackdepth={c.stackDepth}"

/-- Puts the header of a chunk, its tables and its code behind a text. -/
def writeChunk (depth : Nat) (out : String) (c : Chunk Value) : String :=
  let out := writeLine depth out (headerLine c)
  let out := writeTable depth "consts" out (c.consts.map Value.text)
  let out := writeTable depth "names" out c.names
  let out := writeTable depth "varnames" out c.varnames
  let code := (Text.lines (Disassembler.dump none c.code).toList).map String.ofList
  code.foldl (writeLine depth) out

/-- The line in front of the body of a function. -/
def functionLine (f : Function) : String := "function " ++ f.name ++ signatureText f.signature

/-- The line in front of the methods of a class. -/
def classLine (c : Class) : String := "class " ++ c.header.name

/-- The line in front of the body of a method. -/
def methodLine (name : String) (m : Method) : String :=
  s!"method {name}{signatureText m.function.signature} flags={m.flags.bits.toInt}"

end Render

open Render

mutual

/-- Puts the lines of a block at a level of indentation behind a text. -/
def Block.writeOnto (depth : Nat) (out : String) : Block → String
  | ⟨chunk, _, decls⟩ => Decl.writeOnto depth (writeChunk depth out chunk) decls

/-- Puts the lines of declarations behind a text. -/
def Decl.writeOnto (depth : Nat) (out : String) : List Decl → String
  | [] => out
  | .function f :: rest => Decl.writeOnto depth (Function.writeOnto depth out f) rest
  | .class c :: rest => Decl.writeOnto depth (Class.writeOnto depth out c) rest

/-- Puts the lines of a function behind a text. -/
def Function.writeOnto (depth : Nat) (out : String) : Function → String
  | ⟨signature, body⟩ =>
    Block.writeOnto (depth + 1) (writeLine depth out (functionLine ⟨signature, body⟩)) body

/-- Puts the lines of a class behind a text. -/
def Class.writeOnto (depth : Nat) (out : String) : Class → String
  | ⟨header, methods⟩ =>
    Method.writeOnto depth (writeLine depth out (classLine ⟨header, methods⟩)) methods

/-- Puts the lines of the methods of a class behind a text. -/
def Method.writeOnto (depth : Nat) (out : String) : List (String × Method) → String
  | [] => out
  | (name, ⟨flags, ⟨signature, body⟩⟩) :: rest =>
    let out := writeLine (depth + 1) out (methodLine name ⟨flags, ⟨signature, body⟩⟩)
    Method.writeOnto depth (Block.writeOnto (depth + 2) out body) rest

end

/-- The text that is written for a block at a level of indentation. -/
def Block.textAt (depth : Nat) (b : Block) : String := b.writeOnto depth ""

end Bytecode
