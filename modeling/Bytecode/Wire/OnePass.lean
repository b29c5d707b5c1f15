-- SUMMARY: Loading a buffer in a single pass, where a constant is made when it is met and a class when it ends.
import Bytecode.Wire.Host

/-!
# Loading in one pass

`Block.load` reads the whole buffer before it turns to the machine. The loaders here do everything as
they come to it: the machine makes a constant as soon as it has been read, a method is told its owner
when its body begins, and a class is put together, and noted as complete, behind its last method. Only
the registration of the classes waits for the end of the buffer.
-/

namespace Bytecode

namespace Wire

/-- How far the loading of a buffer has come. -/
structure Progress (σ : Type) where
  cursor : Cursor
  /-- The number of blocks that are open. -/
  depth : Nat := 0
  /-- The classes that are complete, in the order in which they became so. -/
  classes : List Class := []
  machine : σ

/-- The same progress at another place in the buffer. -/
def Progress.movedTo {σ : Type} (p : Progress σ) (c : Cursor) : Progress σ := { p with cursor := c }

/-- A step that takes an item off a buffer and may turn to the machine. -/
abbrev Loader (σ α : Type) := EStateM ReadError (Progress σ) α

namespace Loader

variable {σ α : Type}

/-- Takes an item that the machine has no part in. -/
def read (x : Reader α) : Loader σ α := fun p =>
  match x p.cursor with
  | .ok a c => .ok a (p.movedTo c)
  | .error e c => .error e (p.movedTo c)

/-- Turns to the machine. -/
def ask (x : StateM σ α) : Loader σ α := fun p =>
  .ok (x.run p.machine).1 { p with machine := (x.run p.machine).2 }

/-- Notes that a class is complete. -/
def complete (c : Class) : Loader σ Unit := modify fun p => { p with classes := p.classes ++ [c] }

/-- Takes an item one level further down, if there may be one, and comes back up in any case. -/
def nested (x : Loader σ α) : Loader σ α := fun p =>
  if maxNesting ≤ p.depth then .error (.tooDeep p.cursor.offset) p
  else
    match x { p with depth := p.depth + 1 } with
    | .ok a q => .ok a { q with depth := q.depth - 1 }
    | .error e q => .error e { q with depth := q.depth - 1 }

/-- Takes a number of items. -/
def many (item : Loader σ α) : Nat → Loader σ (List α)
  | 0 => pure []
  | count + 1 => do
    let a ← item
    let rest ← many item count
    pure (a :: rest)

/-- Takes items after their number. -/
def counted (field : Field) (item : Loader σ α) : Loader σ (List α) := do
  let count ← read (.natural field)
  many item count.toNat

variable (host : Host σ)

/-- Takes a constant and has the machine make its value. -/
def constant : Loader σ Value := do
  let n ← read .constant
  ask (host.wrapInt n)

section Nested

-- `block` takes a block inside the current one; it is told the class whose method the block is.
variable (block : Option String → Loader σ Block)

/-- Takes a function, or the function of a method. -/
def function (owner : Option String) : Loader σ Function := do
  let body ← block owner
  let params ← read .params
  pure { signature := { params := params.map fun (name, kind) => { name, kind } }, body }

/-- Takes a method of a class. -/
def method (owner : String) : Loader σ (String × Method) := do
  let name ← read (.text .methodName)
  let flags ← read (.word .accessFlags)
  let function ← function block (some owner)
  pure (name, { flags := ⟨flags.toInt64⟩, function })

/-- Takes a declaration. -/
def decl : Loader σ Decl := do
  let tag ← read (.byte .declarationTag)
  if tag = Decl.functionTag then
    let f ← function block none
    pure (.function f)
  else if tag = Decl.classTag then
    let name ← read (.text .className)
    let methods ← counted .methodCount (method block name)
    let c := Class.ofMethods { name } methods
    complete c
    pure (.class c)
  else throw (.unknownDeclaration tag)

/-- Takes the fields of a block, then checks its code. -/
def fields (owner : Option String) : Loader σ Block := do
  let code ← read (.blob .code)
  let consts ← counted .constantCount (constant host)
  let name ← read (.text .blockName)
  let filename ← read (.text .filename)
  let startLine ← read (.natural .startLine)
  let sourceLines ← read (.texts .sourceLine)
  let names ← read (.texts .name)
  let varnames ← read (.texts .variableName)
  let superglobals ← read (.naturals .superglobalSlot)
  let thisSlot ← read .thisSlot
  let decls ← counted .declarationCount (decl block)
  let lineMap ← read (.naturals .lineMapping)
  let chunk : Chunk Value :=
    { code, consts, names, varnames, superglobals, thisSlot, name, filename, startLine,
      sourceLines, lineMap }
  match Block.build? chunk owner decls with
  | .ok b => pure b
  | .error e => throw (.build e)

end Nested

/--
Takes a block. How deep it may lie is decided by the depth, the number of levels is for the recursion
only: blocks that lie no deeper than `maxNesting` have as many levels below them as they can use.
-/
def block : Nat → Option String → Loader σ Block
  | 0, _ => do
    let p ← get
    throw (.tooDeep p.cursor.offset)
  | levels + 1, owner => nested (fields host (block levels) owner)

/-- Takes a block after which nothing follows. -/
def wholeBlock : Loader σ Block := do
  let b ← block host maxNesting none
  let p ← get
  if p.cursor.rest.isEmpty then pure b
  else throw (.trailingBytes p.cursor.rest.length)

end Loader

end Wire

/-- Loads a buffer in a single pass. -/
def Block.loadOnePass {σ : Type} (host : Host σ) (buffer : List UInt8) :
    StateM σ (Except Wire.ReadError Block) := do
  let s ← get
  match Wire.Loader.wholeBlock host { cursor := { rest := buffer }, machine := s } with
  | .ok b p =>
    set p.machine
    p.classes.forM host.declareClass
    pure (.ok b)
  | .error e p =>
    set p.machine
    pure (.error e)

end Bytecode
