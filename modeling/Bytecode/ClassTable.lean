-- SUMMARY: Registries of classes, looked up without regard to case.
import Bytecode.Text.Case
import Bytecode.Wire.Host

/-!
# Class tables

A class table holds classes by name, without regard to ASCII case, in the order in which the names
were first declared. A class declared again replaces the one before and keeps its place.
-/

namespace Bytecode

/-- Classes by their names in small letters. -/
structure ClassTable where
  classes : Table String Class := []

namespace ClassTable

def find? (t : ClassTable) (name : String) : Option Class := t.classes.find? (foldCase name)

def contains (t : ClassTable) (name : String) : Bool := (t.find? name).isSome

def size (t : ClassTable) : Nat := t.classes.length

/-- The classes, in the order in which their names were first declared. -/
def toList (t : ClassTable) : List Class := t.classes.values

/-- Registers a class. -/
def declare (t : ClassTable) (c : Class) : ClassTable :=
  { t with classes := t.classes.insert (foldCase c.header.name) c }

/-- Registers classes in turn. -/
def declareAll (t : ClassTable) (cs : List Class) : ClassTable := cs.foldl declare t

/-- A class table as a host: integers are kept as they are, classes are registered. -/
def host : Host ClassTable where
  declareClass c := modify (·.declare c)

/-- Loads a buffer into a class table. -/
def load (t : ClassTable) (buffer : List UInt8) : Except Wire.ReadError Block × ClassTable :=
  (Block.load host buffer).run t

end ClassTable

end Bytecode
