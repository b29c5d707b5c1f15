-- SUMMARY: Cutting a text into its lines.

/-!
# Lines

A line ends with a line feed, or with a carriage return and a line feed. What follows the last line end
is a line of its own unless it is empty.
-/

namespace Bytecode.Text

/-- The lines of a text, without their ends. -/
def lines : List Char → List (List Char)
  | [] => []
  | '\r' :: '\n' :: rest => [] :: lines rest
  | '\n' :: rest => [] :: lines rest
  | c :: rest =>
    match lines rest with
    | [] => [[c]]
    | line :: more => (c :: line) :: more

end Bytecode.Text
