-- SUMMARY: Reading records from bytes.
import Bytecode.Wire.Cursor
import Bytecode.Wire.Layout

/-!
# Reading records

A block is read field by field in the order in which it is written, and its code is checked once all
of it has been read: blocks inside are checked before the blocks that hold them. A buffer holds
exactly one block, and no more than `maxNesting` blocks inside one another.
-/

namespace Bytecode

namespace Wire

def ReadError.message : ReadError → String
  | .unexpectedEnd field offset =>
    s!"unexpected end of buffer reading {field.label} at offset {offset}"
  | .negative field value offset => s!"negative {field.label} {value.toInt} at offset {offset}"
  | .unknownConstant tag => s!"unknown constant type tag {tagText tag}"
  | .unknownDeclaration tag => s!"unknown declaration tag {tagText tag}"
  | .unknownParamTag tag => s!"unknown parameter type tag {tagText tag}"
  | .paramCountMismatch names tags =>
    s!"function has {names} parameter names but {tags} type tags"
  | .invalidUtf8 field => s!"{field.label} is not valid UTF-8"
  | .tooDeep offset => s!"declarations nested too deeply at offset {offset}"
  | .trailingBytes count => s!"{count} trailing bytes after the top-level block"
  | .build cause => s!"invalid block: {cause.message}"
where
  /-- A tag as the quoted character with its number. -/
  tagText (tag : UInt8) : String := Text.quotedChar (Char.ofNat tag.toNat)

/-- The messages from the outermost to the first cause. -/
def ReadError.chain (e : ReadError) : List String :=
  match e with
  | .build cause => e.message :: cause.chain
  | _ => [e.message]

/-- The most blocks that may be inside one another, the outermost one counted. -/
def maxNesting : Nat := 128

namespace Reader

/-- Notes an integer constant. -/
def note (n : Int64) : Reader Unit := modify fun c => { c with met := n :: c.met }

/-- Takes a constant. -/
def constant : Reader Int64 := do
  let tag ← byte .constantTag
  if tag = intTag then
    let w ← word .integerConstant
    note w.toInt64
    pure w.toInt64
  else throw (.unknownConstant tag)

/-- Takes the slot of the object; the word minus one stands for none. -/
def thisSlot : Reader (Option UInt64) := do
  let start ← get
  let w ← word .thisSlot
  if w = noSlot then pure none
  else if w.toInt64 < 0 then throw (.negative .thisSlot w.toInt64 start.offset)
  else pure (some w)

/-- Takes the parameters of a function: all names, then all kinds. -/
def params : Reader (List (String × ParamKind)) := do
  let names ← texts .paramName
  let tags ← blob .paramTags
  if names.length ≠ tags.length then throw (.paramCountMismatch names.length tags.length)
  else
    (names.zip tags).mapM fun (name, tag) =>
      match ParamKind.ofTag? tag with
      | some kind => pure (name, kind)
      | none => throw (.unknownParamTag tag)

section Nested

-- `block` takes a block inside the current one.
variable (block : Reader (Record Int64))

/-- Takes a function. -/
def routine : Reader (Routine Int64) := do
  let body ← block
  let params ← params
  pure { body, params }

/-- Takes a method. -/
def member : Reader (Member Int64) := do
  let name ← text .methodName
  let flags ← word .accessFlags
  let routine ← routine block
  pure { name, flags := ⟨flags.toInt64⟩, routine }

/-- Takes a declaration. -/
def entry : Reader (Entry Int64) := do
  let tag ← byte .declarationTag
  if tag = Decl.functionTag then
    let r ← routine block
    pure (.function r)
  else if tag = Decl.classTag then
    let name ← text .className
    let members ← counted .methodCount (member block)
    pure (.class name members)
  else throw (.unknownDeclaration tag)

/-- Takes the fields of a block, then checks its code. -/
def fields : Reader (Record Int64) := do
  let code ← blob .code
  let consts ← counted .constantCount constant
  let name ← text .blockName
  let filename ← text .filename
  let startLine ← natural .startLine
  let sourceLines ← texts .sourceLine
  let names ← texts .name
  let varnames ← texts .variableName
  let superglobals ← naturals .superglobalSlot
  let thisSlot ← thisSlot
  let entries ← counted .declarationCount (entry block)
  let lineMap ← naturals .lineMapping
  match stackDepth code with
  | .ok _ =>
    pure
      { chunk :=
          { code, consts, names, varnames, superglobals, thisSlot, name, filename, startLine,
            sourceLines, lineMap }
        entries }
  | .error e => throw (.build e)

end Nested

/-- Takes a block in which no more than `levels` blocks are inside one another. -/
def block : Nat → Reader (Record Int64)
  | 0 => do
    let c ← get
    throw (.tooDeep c.offset)
  | levels + 1 => fields (block levels)

/-- Takes a block after which nothing follows. -/
def wholeBlock : Reader (Record Int64) := do
  let r ← block maxNesting
  let c ← get
  if c.rest.isEmpty then pure r
  else throw (.trailingBytes c.rest.length)

end Reader

/--
The record that a buffer holds, and the integer constants that were met, in order. They are also
known when the buffer is refused.
-/
def Record.read (buffer : List UInt8) : Except ReadError (Record Int64) × List Int64 :=
  match Reader.wholeBlock.run { rest := buffer } with
  | .ok record c => (.ok record, c.met.reverse)
  | .error e c => (.error e, c.met.reverse)

end Wire

end Bytecode
