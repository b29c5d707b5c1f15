-- SUMMARY: Records: what a buffer says about a block tree, and how blocks and records correspond.
import Bytecode.Block

/-!
# Records

A record is what a buffer says about one block. It keeps less than a block: parameter defaults, type
hints, captures, owners, and of classes everything but the name and the methods, are not on the wire.
It also keeps more: a class may list several methods of one name. `Block.record` is the record of a
block, `Record.block` the block that a record stands for.
-/

namespace Bytecode

namespace Wire

mutual

/-- What a buffer says about a block; the type of its constants is open. -/
structure Record (κ : Type) where
  chunk : Chunk κ
  entries : List (Entry κ)

/-- What a buffer says about a declaration. -/
inductive Entry (κ : Type) where
  | function (r : Routine κ)
  | class (name : String) (members : List (Member κ))

/-- What a buffer says about a function: its body and its parameters. -/
structure Routine (κ : Type) where
  body : Record κ
  params : List (String × ParamKind)

/-- What a buffer says about a method. -/
structure Member (κ : Type) where
  name : String
  flags : AccessFlags
  routine : Routine κ

end

-- ---------------------------------------------------------------------------
-- Constants in wire order
-- ---------------------------------------------------------------------------

section Traverse

variable {m : Type → Type} [Monad m] {κ ν : Type} (f : κ → m ν)

mutual

/-- Replaces all constants of a tree, in the order in which they are on the wire. -/
def Record.traverse : Record κ → m (Record ν)
  | ⟨chunk, entries⟩ => do
    let consts ← chunk.consts.mapM f
    let entries ← Entry.traverseAll entries
    pure ⟨chunk.withConsts consts, entries⟩

def Entry.traverseAll : List (Entry κ) → m (List (Entry ν))
  | [] => pure []
  | .function r :: rest => do
    let r ← Routine.traverse r
    let rest ← Entry.traverseAll rest
    pure (.function r :: rest)
  | .class name members :: rest => do
    let members ← Member.traverseAll members
    let rest ← Entry.traverseAll rest
    pure (.class name members :: rest)

def Routine.traverse : Routine κ → m (Routine ν)
  | ⟨body, params⟩ => do
    let body ← Record.traverse body
    pure ⟨body, params⟩

def Member.traverseAll : List (Member κ) → m (List (Member ν))
  | [] => pure []
  | ⟨name, flags, routine⟩ :: rest => do
    let routine ← Routine.traverse routine
    let rest ← Member.traverseAll rest
    pure (⟨name, flags, routine⟩ :: rest)

end

end Traverse

-- ---------------------------------------------------------------------------
-- From records to blocks
-- ---------------------------------------------------------------------------

mutual

/-- The block that a record stands for. -/
def Record.block (owner : Option String) : Record Value → Block
  | ⟨chunk, entries⟩ => { chunk, owner, decls := Entry.decls entries }

/-- The declarations that entries stand for. -/
def Entry.decls : List (Entry Value) → List Decl
  | [] => []
  | .function r :: rest => .function (Routine.function none r) :: Entry.decls rest
  | .class name members :: rest =>
    .class (Class.ofMethods { name } (Member.methods name members)) :: Entry.decls rest

/-- The function that a routine stands for. -/
def Routine.function (owner : Option String) : Routine Value → Function
  | ⟨body, params⟩ =>
    { signature := { params := params.map fun (name, kind) => { name, kind } }
      body := Record.block owner body }

/-- The methods, with their names, that the members of a class stand for. -/
def Member.methods (owner : String) : List (Member Value) → List (String × Method)
  | [] => []
  | ⟨name, flags, routine⟩ :: rest =>
    (name, ⟨flags, Routine.function (some owner) routine⟩) :: Member.methods owner rest

end

/-- The class that a class entry stands for. -/
def Member.class (name : String) (members : List (Member Value)) : Class :=
  Class.ofMethods { name } (Member.methods name members)

mutual

/-- The classes of a tree in the order in which they are complete: inner before outer ones. -/
def Record.classes : Record Value → List Class
  | ⟨_, entries⟩ => Entry.classes entries

def Entry.classes : List (Entry Value) → List Class
  | [] => []
  | .function r :: rest => Routine.classes r ++ Entry.classes rest
  | .class name members :: rest =>
    Member.classes members ++ Member.class name members :: Entry.classes rest

def Routine.classes : Routine Value → List Class
  | ⟨body, _⟩ => Record.classes body

def Member.classes : List (Member Value) → List Class
  | [] => []
  | ⟨_, _, routine⟩ :: rest => Routine.classes routine ++ Member.classes rest

end

end Wire

-- ---------------------------------------------------------------------------
-- From blocks to records
-- ---------------------------------------------------------------------------

/-- What of a parameter is on the wire. -/
def Param.entry (p : Param) : String × ParamKind := (p.name, p.kind)

mutual

/-- The record of a block. -/
def Block.record : Block → Wire.Record Value
  | ⟨chunk, _, decls⟩ => { chunk, entries := Decl.entries decls }

/-- The entries of declarations. -/
def Decl.entries : List Decl → List (Wire.Entry Value)
  | [] => []
  | .function f :: rest => .function (Function.routine f) :: Decl.entries rest
  | .class c :: rest => Class.entry c :: Decl.entries rest

/-- The routine of a function. -/
def Function.routine : Function → Wire.Routine Value
  | ⟨signature, body⟩ => { body := Block.record body, params := signature.params.map Param.entry }

/-- The entry of a class. -/
def Class.entry : Class → Wire.Entry Value
  | ⟨header, methods⟩ => .class header.name (Method.members methods)

/-- The members of a class. -/
def Method.members : List (String × Method) → List (Wire.Member Value)
  | [] => []
  | (name, ⟨flags, function⟩) :: rest =>
    { name, flags, routine := Function.routine function } :: Method.members rest

end

end Bytecode
