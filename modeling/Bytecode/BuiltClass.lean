-- SUMMARY: Classes built clause by clause, which know where their constructor stands.
import Bytecode.Block

/-!
# Building classes

A class is declared by clauses in any order, and then built from the methods that are listed for it. A
constant or property that is declared again keeps its place, and so does a method that is listed again.
The place of the constructor is looked up when all methods are in their places.
-/

namespace Bytecode

-- ---------------------------------------------------------------------------
-- Clauses
-- ---------------------------------------------------------------------------

namespace ClassHeader

/-- A part of the declaration of a class. -/
inductive Clause where
  | parent (name : String)
  | interface (name : String)
  | constant (name : String) (value : Value)
  | property (name : String) (property : Property)

/-- Takes a clause into the header of a class. A class has one parent and any number of interfaces. -/
def add (c : ClassHeader) : Clause → ClassHeader
  | .parent name => { c with parent := some name }
  | .interface name => { c with interfaces := c.interfaces ++ [name] }
  | .constant name value => c.addConstant name value
  | .property name property => c.addProperty name property

/-- The header that clauses make up. -/
def ofClauses (name : String) (clauses : List Clause) : ClassHeader := clauses.foldl add { name }

end ClassHeader

-- ---------------------------------------------------------------------------
-- Built classes
-- ---------------------------------------------------------------------------

/-- A class, and the place of its constructor among its methods. -/
structure BuiltClass extends Class where
  constructorIndex : Option Nat

namespace BuiltClass

/-- A class with methods that are put into a table one after the other. -/
def assemble (header : ClassHeader) (listed : List (String × Method)) : BuiltClass :=
  let methods := listed.foldl (fun t item => Table.insert t item.1 item.2) []
  { header, methods, constructorIndex := (Table.keys methods).idxOf? Class.constructorName }

/-- A class whose methods are made for the name of the class that they belong to. -/
def build {ε : Type} (header : ClassHeader)
    (methods : String → Except ε (List (String × Method))) : Except ε BuiltClass :=
  match methods header.name with
  | .ok listed => .ok (assemble header listed)
  | .error e => .error e

/-- The method at the place of the constructor. -/
def constructor? (c : BuiltClass) : Option Method :=
  c.constructorIndex.bind fun i => c.methods[i]?.map (·.2)

end BuiltClass

end Bytecode
