-- SUMMARY: Reading positions in a buffer, what can go wrong there, and readers of single items.
import Bytecode.StackCheck
import Bytecode.Text.Utf8
import Bytecode.Wire.Word

/-!
# Cursors

A cursor stands at an offset of a buffer and holds the bytes from there on. It also notes the integer
constants met so far, which remain known when the reading fails. A reader is a step from cursor to
cursor that gives an item or an error; each knows the field that it reads, for its errors.
-/

namespace Bytecode.Wire

/-- The items that a buffer is made of. -/
inductive Field where
  | code
  | constantCount
  | constantTag
  | integerConstant
  | blockName
  | filename
  | startLine
  | sourceLine
  | name
  | variableName
  | superglobalSlot
  | thisSlot
  | declarationCount
  | declarationTag
  | lineMapping
  | paramName
  | paramTags
  | className
  | methodCount
  | methodName
  | accessFlags
  deriving DecidableEq

/-- The name of an item in messages. -/
def Field.label : Field → String
  | .code => "code"
  | .constantCount => "constant count"
  | .constantTag => "constant tag"
  | .integerConstant => "integer constant"
  | .blockName => "block name"
  | .filename => "filename"
  | .startLine => "start line"
  | .sourceLine => "source line"
  | .name => "name"
  | .variableName => "variable name"
  | .superglobalSlot => "superglobal slot"
  | .thisSlot => "this slot"
  | .declarationCount => "declaration count"
  | .declarationTag => "declaration tag"
  | .lineMapping => "line mapping"
  | .paramName => "parameter name"
  | .paramTags => "parameter tags"
  | .className => "class name"
  | .methodCount => "method count"
  | .methodName => "method name"
  | .accessFlags => "access flags"

/-- Why a buffer does not hold a block tree. -/
inductive ReadError where
  | unexpectedEnd (field : Field) (offset : Nat)
  | negative (field : Field) (value : Int64) (offset : Nat)
  | unknownConstant (tag : UInt8)
  | unknownDeclaration (tag : UInt8)
  | unknownParamTag (tag : UInt8)
  | paramCountMismatch (names tags : Nat)
  | invalidUtf8 (field : Field)
  | tooDeep (offset : Nat)
  | trailingBytes (count : Nat)
  | build (cause : BuildError)
  deriving DecidableEq

/-- A position in a buffer. -/
structure Cursor where
  offset : Nat := 0
  rest : List UInt8
  /-- The integer constants met so far, the latest first. -/
  met : List Int64 := []

/-- A step that takes an item off a buffer. -/
abbrev Reader (α : Type) := EStateM ReadError Cursor α

namespace Reader

/-- Takes a number of bytes. -/
def take (field : Field) (count : Nat) : Reader (List UInt8) := fun c =>
  let taken := c.rest.take count
  if taken.length < count then .error (.unexpectedEnd field c.offset) c
  else .ok taken { c with offset := c.offset + count, rest := c.rest.drop count }

/-- Takes one byte. -/
def byte (field : Field) : Reader UInt8 := fun c =>
  match c.rest with
  | [] => .error (.unexpectedEnd field c.offset) c
  | b :: bs => .ok b { c with offset := c.offset + 1, rest := bs }

/-- Takes a word. -/
def word (field : Field) : Reader UInt64 := do
  let bytes ← take field wordSize
  pure (wordOfBytes bytes)

/-- Takes a word that must not be negative as a signed number. -/
def natural (field : Field) : Reader UInt64 := do
  let start ← get
  let w ← word field
  if w.toInt64 < 0 then throw (.negative field w.toInt64 start.offset)
  else pure w

/-- Takes a string of bytes after its length. -/
def blob (field : Field) : Reader (List UInt8) := do
  let count ← natural field
  take field count.toNat

/-- Takes a text after its length. -/
def text (field : Field) : Reader String := do
  let bytes ← blob field
  match Text.ofUtf8? bytes with
  | some s => pure s
  | none => throw (.invalidUtf8 field)

/-- Takes a number of items. -/
def many {α : Type} (item : Reader α) : Nat → Reader (List α)
  | 0 => pure []
  | count + 1 => do
    let a ← item
    let rest ← many item count
    pure (a :: rest)

/-- Takes items after their number. -/
def counted {α : Type} (field : Field) (item : Reader α) : Reader (List α) := do
  let count ← natural field
  many item count.toNat

/-- Takes texts after their number. -/
def texts (field : Field) : Reader (List String) := counted field (text field)

/-- Takes words that must not be negative after their number. -/
def naturals (field : Field) : Reader (List UInt64) := counted field (natural field)

end Reader

end Bytecode.Wire
