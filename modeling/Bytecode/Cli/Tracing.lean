-- SUMMARY: Reading the settings that turn logging on.
import Bytecode.Text.Blank
import Bytecode.Text.Case

/-!
# Tracing

The value of an environment variable turns logging on or off, or names a filter for it. Blanks around
the value and the case of ASCII letters do not matter.
-/

namespace Bytecode.Cli

/-- The value without the blanks around it. -/
def settingText (raw : String) : String := String.ofList (Text.trim raw.toList)

/-- Whether a value turns logging on. -/
def tracingEnabled (raw : String) : Bool :=
  foldCase (settingText raw) ∉ ["", "0", "false", "off"]

/-- The filter that a value names, if it is more than a switch. -/
def tracingFilter? (raw : String) : Option String :=
  let text := settingText raw
  if foldCase text ∈ ["", "1", "true", "on"] then none else some text

end Bytecode.Cli
