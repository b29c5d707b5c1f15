-- SUMMARY: Loading a buffer into memory, where a class has an address before it has methods.
import Bytecode.Heap
import Bytecode.Wire.OnePass

/-!
# Loading into memory

The loaders here take the same items as those of `Bytecode.Wire.OnePass`, in the same order. In addition
a class gets an address of its own as soon as it is known how many methods it has, and the bodies of its
methods are told this address; that of a function is told none, wherever the function is declared.
-/

namespace Bytecode.Heap

open Wire (Progress ReadError maxNesting)

/-- The classes in memory. -/
structure Store where
  /-- The number of addresses that have been given out. -/
  allocated : Nat := 0
  /-- The classes that are complete, in the order in which they became so. -/
  classes : List Class := []

/-- The classes in memory, beside the machine. -/
structure Memory (σ : Type) where
  store : Store := {}
  machine : σ

/-- A step that takes an item off a buffer and may turn to the machine or to the memory. -/
abbrev Loader (σ α : Type) := Wire.Loader (Memory σ) α

namespace Loader

open Wire.Loader (read many counted nested)

variable {σ α : Type}

/-- Turns to the machine. -/
def ask (x : StateM σ α) : Loader σ α :=
  Wire.Loader.ask fun m => ((x.run m.machine).1, { m with machine := (x.run m.machine).2 })

/-- Turns to the memory. -/
def keep (x : StateM Store α) : Loader σ α :=
  Wire.Loader.ask fun m => ((x.run m.store).1, { m with store := (x.run m.store).2 })

/-- Gives out an address. -/
def allocate : Loader σ Nat :=
  keep fun st => (st.allocated, { st with allocated := st.allocated + 1 })

/-- Notes that a class is complete. -/
def complete (c : Class) : Loader σ Unit :=
  keep fun st => ((), { st with classes := st.classes ++ [c] })

variable (host : Host σ)

def constant : Loader σ Value := do
  let n ← read .constant
  ask (host.wrapInt n)

section Nested

-- `block` takes a block inside the current one; it is told the class whose method the block is.
variable (block : Option Nat → Loader σ Block)

def function (owner : Option Nat) : Loader σ Function := do
  let body ← block owner
  let params ← read .params
  pure { signature := { params := params.map fun (name, kind) => { name, kind } }, body }

def method (owner : Nat) : Loader σ (String × Method) := do
  let name ← read (.text .methodName)
  let flags ← read (.word .accessFlags)
  let function ← function block (some owner)
  pure (name, { flags := ⟨flags.toInt64⟩, function })

/-- Takes a declaration; a class is put together at an address that its methods know. -/
def decl : Loader σ Decl := do
  let tag ← read (.byte .declarationTag)
  if tag = Decl.functionTag then
    let f ← function block none
    pure (.function f)
  else if tag = Decl.classTag then
    let name ← read (.text .className)
    let count ← read (.natural .methodCount)
    let address ← allocate
    let methods ← many (method block address) count.toNat
    let c := Class.ofMethods address { name } methods
    complete c
    pure (.class c)
  else throw (.unknownDeclaration tag)

def fields (owner : Option Nat) : Loader σ Block := do
  let code ← read (.blob .code)
  let consts ← counted .constantCount (constant host)
  let name ← read (.text .blockName)
  let filename ← read (.text .filename)
  let startLine ← read (.natural .startLine)
  let sourceLines ← read (.texts .sourceLine)
  let names ← read (.texts .name)
  let varnames ← read (.texts .variableName)
  let superglobals ← read (.naturals .superglobalSlot)
  let thisSlot ← read .thisSlot
  let decls ← counted .declarationCount (decl block)
  let lineMap ← read (.naturals .lineMapping)
  let chunk : Chunk Value :=
    { code, consts, names, varnames, superglobals, thisSlot, name, filename, startLine,
      sourceLines, lineMap }
  match Block.build? chunk owner decls with
  | .ok b => pure b
  | .error e => throw (.build e)

end Nested

/-- Takes a block; the number of levels is for the recursion only. -/
def block : Nat → Option Nat → Loader σ Block
  | 0, _ => do
    let p ← get
    throw (.tooDeep p.cursor.offset)
  | levels + 1, owner => nested (fields host (block levels) owner)

def wholeBlock : Loader σ Block := do
  let b ← block host maxNesting none
  let p ← get
  if p.cursor.rest.isEmpty then pure b
  else throw (.trailingBytes p.cursor.rest.length)

end Loader

/-- A loaded tree, and all classes that have been put in memory for it. -/
structure Loaded where
  block : Block
  classes : List Class

/-- Loads a buffer into an empty memory, then registers the classes. -/
def load {σ : Type} (host : Host σ) (buffer : List UInt8) :
    StateM σ (Except ReadError Loaded) := do
  let s ← get
  match Loader.wholeBlock host { cursor := { rest := buffer }, machine := { machine := s } } with
  | .ok block p =>
    set p.machine.machine
    let classes := p.machine.store.classes
    classes.forM fun c => host.declareClass c.erase
    pure (.ok { block, classes })
  | .error e p =>
    set p.machine.machine
    pure (.error e)

end Bytecode.Heap
