-- SUMMARY: Assembling a text into a block.
import Bytecode.Assembly.Item
import Bytecode.Block
import Bytecode.Text.Lines

/-!
# Assembling

The first line that is wrong decides the fault. When no line is, the items are collected by kind, each
kind in its own order: the last name and the last file win, and all else is appended. The block must
then pass the stack check.
-/

namespace Bytecode.Assembly

/-- Why a text cannot be assembled. -/
inductive AssembleError where
  | line (number : Nat) (cause : LineError)
  | verification (cause : BuildError)
  deriving DecidableEq

/-- The messages from the outermost to the first cause. -/
def AssembleError.chain : AssembleError → List String
  | .line number cause => cause.chain number
  | .verification cause => "assembled block failed verification" :: cause.chain

/-- The messages on one line. -/
def AssembleError.message (e : AssembleError) : String := ": ".intercalate e.chain

/-- The items of lines of which the first has the given number, up to the first wrong line. -/
def itemsFrom (number : Nat) : List (List Char) → Except AssembleError (List Item)
  | [] => .ok []
  | line :: rest =>
    match Item.ofLine line with
    | .error cause => .error (.line number cause)
    | .ok item =>
      match itemsFrom (number + 1) rest with
      | .error e => .error e
      | .ok items => .ok (item.toList ++ items)

/-- The items of a text. -/
def items (source : List Char) : Except AssembleError (List Item) :=
  itemsFrom 1 (Text.lines source)

/-- The chunk that items make up. -/
def chunk (defaultFile : String) (items : List Item) : Chunk Value :=
  { code := items.flatMap Item.code
    consts := (items.filterMap Item.const?).map .int
    names := items.filterMap Item.global?
    varnames := items.filterMap Item.var?
    name := (items.filterMap Item.name?).getLast?.getD "<main>"
    filename := (items.filterMap Item.file?).getLast?.getD defaultFile
    startLine := 1 }

/-- Assembles a text; the block is from `defaultFile` unless the text names another file. -/
def assemble (source defaultFile : String) : Except AssembleError Block :=
  match items source.toList with
  | .error e => .error e
  | .ok items =>
    match Block.build? (chunk defaultFile items) none [] with
    | .ok b => .ok b
    | .error cause => .error (.verification cause)

end Bytecode.Assembly
