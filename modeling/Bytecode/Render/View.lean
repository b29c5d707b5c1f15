-- SUMMARY: JSON views of block trees.
import Bytecode.Block
import Bytecode.Json

/-!
# JSON views

The view of a block shows its tables, its instructions with their source lines, and its declarations.
Instructions without an operand or a recorded line leave these fields out.
-/

namespace Bytecode

def Value.view : Value → Json
  | .null => .null
  | .bool b => .bool b
  | .int n => .int n.toInt
  | .float x => .float x
  | .str s => .str s

namespace Render

def textsView (items : List String) : Json := .array (items.map .str)

def wordView (w : UInt64) : Json := .nat w.toNat

/-- An instruction, with the source line that a chunk records for it. -/
def instructionView (c : Chunk Value) (i : Instruction) : Json :=
  .object
    ([("offset", .nat i.offset), ("opcode", .str i.opcode.mnemonic)] ++
      Json.field? "arg" .nat i.operand ++ Json.field? "line" wordView (c.lineAt? i.offset))

/-- The fields of a chunk. -/
def chunkFields (c : Chunk Value) : List (String × Json) :=
  [("name", .str c.name), ("filename", .str c.filename), ("startlineno", wordView c.startLine),
    ("stackdepth", .nat c.stackDepth), ("consts", .array (c.consts.map Value.view)),
    ("names", textsView c.names), ("varnames", textsView c.varnames),
    ("superglobals", .array (c.superglobals.map wordView)),
    ("this_var_num", Json.orNull wordView c.thisSlot),
    ("instructions", .array (c.listing.instructions.map (instructionView c)))]

/-- A parameter. -/
def paramView (p : Param) : Json :=
  .object
    [("name", .str p.name), ("kind", .str (String.ofList [Char.ofNat p.kind.tag.toNat]))]

end Render

open Render

mutual

/-- The view of a block. -/
def Block.view : Block → Json
  | ⟨chunk, _, decls⟩ => .object (chunkFields chunk ++ [("declarations", .array (Decl.views decls))])

/-- The views of declarations, each with its kind. -/
def Decl.views : List Decl → List Json
  | [] => []
  | .function f :: rest =>
    .object (("kind", .str "function") :: Function.fields f) :: Decl.views rest
  | .class c :: rest => .object (("kind", .str "class") :: Class.fields c) :: Decl.views rest

/-- The fields of a function. -/
def Function.fields : Function → List (String × Json)
  | ⟨signature, body⟩ =>
    [("name", .str body.chunk.name), ("params", .array (signature.params.map paramView)),
      ("body", Block.view body)]

/-- The fields of a class. -/
def Class.fields : Class → List (String × Json)
  | ⟨header, methods⟩ =>
    [("name", .str header.name),
      ("constructor",
        Json.orNull (fun m => .str m.function.name) (Class.constructor? ⟨header, methods⟩)),
      ("methods", .array (Method.views methods))]

/-- The views of methods. -/
def Method.views : List (String × Method) → List Json
  | [] => []
  | (name, ⟨flags, function⟩) :: rest =>
    .object
        [("name", .str name), ("access_flags", .int flags.bits.toInt),
          ("function", .object (Function.fields function))] ::
      Method.views rest

end

/-- The view of a block as text. -/
def Block.json (b : Block) : String := b.view.pretty 0

end Bytecode
