-- SUMMARY: Block trees in which a class is told apart by its address, and not by its name.
import Bytecode.Block

/-!
# Classes at addresses

The name of a class does not say which class it is: classes next to each other, or inside one another,
may have one name. What a method body refers to as its class is a class that lies at some address. The
trees here have these addresses; without them they are the trees of `Bytecode.Block`.
-/

namespace Bytecode.Heap

mutual

/-- A compiled unit. -/
structure Block where
  chunk : Chunk Value
  /-- The address of the class whose method this block is the body of. -/
  owner : Option Nat := none
  decls : List Decl := []

/-- A function or class declared inside a block. -/
inductive Decl where
  | function (f : Function)
  | class (c : Class)

/-- A function with its body. -/
structure Function where
  signature : Signature
  body : Block

/-- A class with its methods, and where it lies. -/
structure Class where
  address : Nat
  header : ClassHeader
  methods : List (String × Method) := []

/-- A method of a class. -/
structure Method where
  flags : AccessFlags
  function : Function

end

def Block.build? (chunk : Chunk Value) (owner : Option Nat) (decls : List Decl) :
    Except BuildError Block :=
  match Bytecode.stackDepth chunk.code with
  | .ok _ => .ok { chunk, owner, decls }
  | .error e => .error e

def Block.isMethod (b : Block) : Bool := b.owner.isSome

def Class.method? (c : Class) (name : String) : Option Method := Table.find? c.methods name

def Class.ofMethods (address : Nat) (header : ClassHeader) (methods : List (String × Method)) :
    Class :=
  { address, header, methods := Table.ofList methods }

-- ---------------------------------------------------------------------------
-- Trees without addresses
-- ---------------------------------------------------------------------------

mutual

/-- The same block without addresses; its owner is known by name only. -/
def Block.erase (owner : Option String) : Block → Bytecode.Block
  | ⟨chunk, _, decls⟩ => { chunk, owner, decls := Decl.eraseAll decls }

def Decl.eraseAll : List Decl → List Bytecode.Decl
  | [] => []
  | .function f :: rest => .function (Function.erase none f) :: Decl.eraseAll rest
  | .class c :: rest => .class (Class.erase c) :: Decl.eraseAll rest

def Function.erase (owner : Option String) : Function → Bytecode.Function
  | ⟨signature, body⟩ => { signature, body := Block.erase owner body }

def Class.erase : Class → Bytecode.Class
  | ⟨_, header, methods⟩ => { header, methods := Method.eraseAll header.name methods }

def Method.eraseAll (owner : String) : List (String × Method) → List (String × Bytecode.Method)
  | [] => []
  | (name, ⟨flags, function⟩) :: rest =>
    (name, ⟨flags, Function.erase (some owner) function⟩) :: Method.eraseAll owner rest

end

end Bytecode.Heap
