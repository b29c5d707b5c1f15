-- SUMMARY: Single lines of assembly text and what they contribute to a block.
import Bytecode.Assembly.Literal
import Bytecode.CodeWriter
import Bytecode.Text.Blank

/-!
# Assembly lines

A line holds a directive, an instruction, or nothing. A semicolon starts a comment. Directives start
with a dot and take the rest of the line as their value; an instruction is a mnemonic, followed by an
operand exactly if its opcode takes one.
-/

namespace Bytecode.Assembly

/-- What a line contributes to a block. -/
inductive Item where
  | name (s : String)
  | file (s : String)
  | const (n : Int64)
  | global (s : String)
  | var (s : String)
  | instruction (encoding : List UInt8)
  deriving DecidableEq

/-- What is wrong with a line. -/
inductive LineError where
  | unknownMnemonic (head : String)
  | unexpectedOperand (op : Opcode)
  | missingOperand (op : Opcode)
  | invalidOperand (text : String) (cause : LiteralError)
  | unencodable (cause : InstructionError)
  | missingValue (directive : String)
  | invalidConstant (text : String) (cause : LiteralError)
  | unknownDirective (name : String)
  deriving DecidableEq

/-- The messages for line `number`, from the outermost to the first cause. -/
def LineError.chain (number : Nat) : LineError → List String
  | .unknownMnemonic head => [s!"line {number}: unknown mnemonic '{head}'"]
  | .unexpectedOperand op => [s!"line {number}: {op.mnemonic} takes no operand"]
  | .missingOperand op => [s!"line {number}: {op.mnemonic} requires an operand"]
  | .invalidOperand text cause => [s!"line {number}: invalid operand '{text}'", cause.message]
  | .unencodable cause => [s!"line {number}", cause.message]
  | .missingValue directive => [s!"line {number}", s!".{directive} requires a value"]
  | .invalidConstant text cause =>
    [s!"line {number}", s!"invalid integer constant '{text}'", cause.message]
  | .unknownDirective name => [s!"line {number}", s!"unknown directive '.{name}'"]

namespace Item

/-- The item of a directive, given its name without the dot. -/
def ofDirective (directive : String) (value : List Char) : Except LineError Item :=
  let text := String.ofList value
  if value.isEmpty then .error (.missingValue directive)
  else if directive = "name" then .ok (.name text)
  else if directive = "file" then .ok (.file text)
  else if directive = "const" then
    match Literal.signed value with
    | .ok n => .ok (.const n)
    | .error cause => .error (.invalidConstant text cause)
  else if directive = "global" then .ok (.global text)
  else if directive = "var" then .ok (.var text)
  else .error (.unknownDirective directive)

/-- The item of an instruction to be encoded. -/
def ofStep (s : Step) : Except LineError Item :=
  match s.encode with
  | .ok encoding => .ok (.instruction encoding)
  | .error cause => .error (.unencodable cause)

/-- The item of an instruction, given its mnemonic and what follows. -/
def ofInstruction (head : String) (operand : List Char) : Except LineError Item :=
  match Opcode.ofMnemonic? head with
  | none => .error (.unknownMnemonic head)
  | some op =>
    if op.takesOperand then
      if operand.isEmpty then .error (.missingOperand op)
      else
        match Literal.unsigned operand with
        | .ok n => ofStep { opcode := op, operand := some n }
        | .error cause => .error (.invalidOperand (String.ofList operand) cause)
    else if operand.isEmpty then ofStep { opcode := op }
    else .error (.unexpectedOperand op)

/-- The content of a line: without its comment and the blanks around it. -/
def content (line : List Char) : List Char := Text.trim (line.takeWhile (· ≠ ';'))

/-- The item of a line, if it holds one. -/
def ofLine (line : List Char) : Except LineError (Option Item) :=
  let text := content line
  if text.isEmpty then .ok none
  else
    let (head, rest) := Text.splitWord text
    let value := Text.trim rest
    match head with
    | '.' :: directive => (ofDirective (String.ofList directive) value).map some
    | _ => (ofInstruction (String.ofList head) value).map some

def name? : Item → Option String
  | .name s => some s
  | _ => none

def file? : Item → Option String
  | .file s => some s
  | _ => none

def const? : Item → Option Int64
  | .const n => some n
  | _ => none

def global? : Item → Option String
  | .global s => some s
  | _ => none

def var? : Item → Option String
  | .var s => some s
  | _ => none

/-- The bytes that an item adds to the code. -/
def code : Item → List UInt8
  | .instruction encoding => encoding
  | _ => []

end Item

end Bytecode.Assembly
