-- SUMMARY: Loading buffers into a host that makes constants and registers classes.
import Bytecode.Wire.Reading

/-!
# Hosts

Loading a buffer involves the machine that will run the blocks: it makes a value of every integer
constant, in wire order and as far as the reading gets, and it is told of every class, inner before
outer ones, once the whole buffer has been read. A buffer that cannot be read registers no class.
-/

namespace Bytecode

/-- What a machine with states in `σ` does while a buffer is loaded. -/
structure Host (σ : Type) where
  /-- Makes the value of an integer constant. -/
  wrapInt : Int64 → StateM σ Value := fun n => pure (.int n)
  /-- Registers a class. -/
  declareClass : Class → StateM σ Unit

/-- Loads a buffer. -/
def Block.load {σ : Type} (host : Host σ) (buffer : List UInt8) :
    StateM σ (Except Wire.ReadError Block) := do
  match Wire.Record.read buffer with
  | (.ok record, _) =>
    let record ← record.traverse host.wrapInt
    record.classes.forM host.declareClass
    pure (.ok (record.block none))
  | (.error e, met) =>
    met.forM fun n => do
      let _ ← host.wrapInt n
    pure (.error e)

/-- Registers nothing and keeps integers as they are. -/
def Host.silent : Host Unit where
  declareClass _ := pure ()

/-- The block tree that a buffer holds. -/
def Block.deserialize (buffer : List UInt8) : Except Wire.ReadError Block :=
  (Block.load Host.silent buffer ()).1

end Bytecode
