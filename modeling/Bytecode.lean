import Bytecode.Cli.Tracing
import Bytecode.Main
import Bytecode.Proofs.Rewriting
import Bytecode.Proofs.Wire.PrefixFree
import Bytecode.Proofs.Listing
import Bytecode.Proofs.Stack.Heights
import Bytecode.Proofs.Stack.Verdict
import Bytecode.Proofs.Stack.Execution
import Bytecode.Proofs.Wire.Checking
import Bytecode.Proofs.Wire.Noting
import Bytecode.Proofs.Wire.RecordNoting
import Bytecode.Proofs.Wire.HostCalls
import Bytecode.Proofs.Wire.Nesting
import Bytecode.Proofs.Writing
import Bytecode.Wire.OnePass
import Bytecode.Proofs.Wire.OnePass
import Bytecode.Proofs.Wire.HostValues
import Bytecode.Proofs.Wire.Linking
import Bytecode.Proofs.Wire.Identity
import Bytecode.Proofs.Operand
import Bytecode.Proofs.CodeWriter
import Bytecode.Proofs.Serializer
import Bytecode.Proofs.ClassTable
import Bytecode.Proofs.Assembly.Storing
import Bytecode.Proofs.Cli.FileTree
import Bytecode.Proofs.Rendering
import Bytecode.Proofs.Flat
import Bytecode.Proofs.Cli.Extension
import Bytecode.Proofs.Cli.Execution
import Bytecode.Proofs.Text
import Bytecode.Proofs.SameSteps
import Bytecode.Proofs.Assembly.Literal
import Bytecode.Proofs.Assembly.Item
import Bytecode.Proofs.Assembly.Reassembling
import Bytecode.Proofs.Concatenation
import Bytecode.Proofs.Stack.Composition
import Bytecode.Proofs.Stack.Arithmetic
import Bytecode.Proofs.Cli.Path
import Bytecode.Proofs.Cli.Directories
import Bytecode.Proofs.Cli.Arguments
import Bytecode.Proofs.Cli.Effects
import Bytecode.Disassembler
import Bytecode.Proofs.Disassembler
import Bytecode.Proofs.Rewritten
import Bytecode.Proofs.Assembly.Grammar
import Bytecode.Proofs.Assembly.Layout
import Bytecode.Proofs.Assembly.Reordering
import Bytecode.Proofs.Dump
import Bytecode.Render.Writer
import Bytecode.Proofs.Indentation
import Bytecode.BuiltClass
import Bytecode.Proofs.BuiltClass
import Bytecode.Proofs.Slots
import Bytecode.Proofs.OperandExtent
import Bytecode.Proofs.Cli.DefaultOutput
import Bytecode.Proofs.Wire.Moves
import Bytecode.Proofs.Wire.Advancing
import Bytecode.Cli.Components
import Bytecode.Proofs.Cli.Components
