-- SUMMARY: Compiled code blocks and the functions and classes declared in them.
import Bytecode.StackCheck
import Bytecode.Table
import Bytecode.Value

/-!
# Blocks

A block is a compiled unit: a chunk of code with the tables it indexes, and the functions and classes
declared inside. Functions and methods have blocks as bodies, so blocks form a tree. A block is built
only from code that passes the stack check.
-/

namespace Bytecode

-- ---------------------------------------------------------------------------
-- Chunks
-- ---------------------------------------------------------------------------

/--
Code, the tables that its operands index, and where it comes from. The type of the constants is open,
because a chunk on the wire holds other constants than one in use.
-/
structure Chunk (κ : Type) where
  code : List UInt8 := []
  consts : List κ := []
  names : List String := []
  varnames : List String := []
  superglobals : List UInt64 := []
  /-- The variable that holds the object a method was called on. -/
  thisSlot : Option UInt64 := none
  name : String := "<main>"
  filename : String := ""
  startLine : UInt64 := 0
  sourceLines : List String := []
  /-- The source line of every byte of the code. -/
  lineMap : List UInt64 := []

/-- The position of every name in a list; of a repeated name, the last. -/
def positions (names : List String) : Table String Nat := Table.ofList names.zipIdx

namespace Chunk

variable {κ : Type}

/-- The slot of a global or property name. -/
def nameSlot? (c : Chunk κ) (name : String) : Option Nat := (positions c.names).find? name

/-- The slot of a local variable. -/
def varSlot? (c : Chunk κ) (name : String) : Option Nat := (positions c.varnames).find? name

/-- The text of a source line, counted from one. -/
def sourceLine? (c : Chunk κ) : Nat → Option String
  | 0 => none
  | n + 1 => c.sourceLines[n]?

/-- The source line recorded for an offset of the code. -/
def lineAt? (c : Chunk κ) (offset : Nat) : Option UInt64 := c.lineMap[offset]?

/-- The instructions of the code. -/
def listing (c : Chunk κ) : Listing := Listing.ofBytes c.code

/-- The operand-stack slots that running the code needs; none for code that fails the check. -/
def stackDepth (c : Chunk κ) : Nat :=
  match Bytecode.stackDepth c.code with
  | .ok depth => depth
  | .error _ => 0

/-- The same chunk with other constants. -/
def withConsts {ν : Type} (c : Chunk κ) (consts : List ν) : Chunk ν := { c with consts }

/-- One line that tells chunks apart. -/
def label (c : Chunk κ) : String := s!"<ByteCode {c.name} ({c.filename}:{c.startLine.toNat})>"

end Chunk

-- ---------------------------------------------------------------------------
-- Parameters and members
-- ---------------------------------------------------------------------------

/-- How an argument is bound to its parameter. -/
inductive ParamKind where
  | value
  | reference
  | variadic
  deriving DecidableEq

namespace ParamKind

/-- The character that stands for the kind, as a byte. -/
def tag : ParamKind → UInt8
  | .value => 0x76
  | .reference => 0x72
  | .variadic => 0x2a

/-- The kind that a tag stands for. -/
def ofTag? (tag : UInt8) : Option ParamKind :=
  if tag = 0x76 then some .value
  else if tag = 0x72 then some .reference
  else if tag = 0x2a then some .variadic
  else none

theorem ofTag?_eq_some_iff {tag : UInt8} {kind : ParamKind} :
    ofTag? tag = some kind ↔ tag = kind.tag := by
  unfold ofTag?
  split
  · cases kind <;> simp_all [ParamKind.tag]
  · split
    · cases kind <;> simp_all [ParamKind.tag]
    · split <;> cases kind <;> simp_all [ParamKind.tag]

end ParamKind

/-- A parameter of a function. -/
structure Param where
  name : String
  kind : ParamKind := .value
  default : Option Value := none
  typeHint : Option String := none
  deriving DecidableEq

/-- What callers of a function see of it, and the variables that it captures. -/
structure Signature where
  params : List Param := []
  captures : List String := []
  deriving DecidableEq

/-- Visibility and modifiers of a class member, as a set of bits. -/
structure AccessFlags where
  bits : Int64 := 0
  deriving DecidableEq

namespace AccessFlags

def none : AccessFlags := ⟨0⟩
def isPublic : AccessFlags := ⟨1⟩
def isProtected : AccessFlags := ⟨2⟩
def isPrivate : AccessFlags := ⟨4⟩
def isStatic : AccessFlags := ⟨8⟩
def isAbstract : AccessFlags := ⟨16⟩
def isFinal : AccessFlags := ⟨32⟩

/-- Whether every bit of `other` is set. -/
def contains (flags other : AccessFlags) : Bool := flags.bits &&& other.bits = other.bits

/-- The bits that are set in one of two sets. -/
def union (flags other : AccessFlags) : AccessFlags := ⟨flags.bits ||| other.bits⟩

end AccessFlags

/-- A property of a class. -/
structure Property where
  flags : AccessFlags
  default : Value
  deriving DecidableEq

/-- What a class declares apart from its methods. -/
structure ClassHeader where
  name : String
  parent : Option String := none
  interfaces : List String := []
  constants : Table String Value := []
  properties : Table String Property := []
  deriving DecidableEq

namespace ClassHeader

/-- Declares a constant; declaring it again changes its value only. -/
def addConstant (c : ClassHeader) (name : String) (value : Value) : ClassHeader :=
  { c with constants := c.constants.insert name value }

/-- Declares a property; declaring it again changes its flags and default only. -/
def addProperty (c : ClassHeader) (name : String) (property : Property) : ClassHeader :=
  { c with properties := c.properties.insert name property }

end ClassHeader

-- ---------------------------------------------------------------------------
-- The tree
-- ---------------------------------------------------------------------------

mutual

/-- A compiled unit. -/
structure Block where
  chunk : Chunk Value
  /-- The name of the class whose method this block is the body of; `Heap.Block` has its address. -/
  owner : Option String := none
  decls : List Decl := []

/-- A function or class declared inside a block. -/
inductive Decl where
  | function (f : Function)
  | class (c : Class)

/-- A function with its body. -/
structure Function where
  signature : Signature
  body : Block

/-- A class with its methods: a table by their names. -/
structure Class where
  header : ClassHeader
  methods : List (String × Method) := []

/-- A method of a class. -/
structure Method where
  flags : AccessFlags
  function : Function

end

/-- A block of the given parts, if its code passes the stack check. -/
def Block.build? (chunk : Chunk Value) (owner : Option String) (decls : List Decl) :
    Except BuildError Block :=
  match Bytecode.stackDepth chunk.code with
  | .ok _ => .ok { chunk, owner, decls }
  | .error e => .error e

/-- Whether the block is the body of a method. -/
def Block.isMethod (b : Block) : Bool := b.owner.isSome

/-- The name of a function is that of its body. -/
def Function.name (f : Function) : String := f.body.chunk.name

namespace Class

/-- The method of a given name. -/
def method? (c : Class) (name : String) : Option Method := Table.find? c.methods name

/-- A class with a list of methods; of methods with one name the last counts, at the first place. -/
def ofMethods (header : ClassHeader) (methods : List (String × Method)) : Class :=
  { header, methods := Table.ofList methods }

/-- The name of the method that makes new objects. -/
def constructorName : String := "__construct"

/-- The method that makes new objects, if the class has one. -/
def constructor? (c : Class) : Option Method := c.method? constructorName

end Class

namespace Decl

/-- The character that stands for the kind of declaration, as a byte. -/
def functionTag : UInt8 := 0x66

@[inherit_doc functionTag]
def classTag : UInt8 := 0x75

def tag : Decl → UInt8
  | .function _ => functionTag
  | .class _ => classTag

def name : Decl → String
  | .function f => f.name
  | .class c => c.header.name

end Decl

end Bytecode
