-- SUMMARY: Taking the components of a path one by one: a check that ends at the first component it refuses.
import Bytecode.Cli.Path

/-!
# Paths component by component

`Path.components` cuts a whole text at its slashes before any segment is looked at. Here components are
handed out one by one from what is left of the text: a root or a dot where it starts, and then segment
after segment, where those that say nothing are passed over. So a check ends at the first component
that it refuses.
-/

namespace Bytecode.Cli.Path

-- ---------------------------------------------------------------------------
-- Behind the start of a path
-- ---------------------------------------------------------------------------

/-- A text up to its first slash. -/
def firstSegment (text : List Char) : List Char := text.takeWhile (· ≠ '/')

/-- What follows the first slash of a text. -/
def behindFirst (text : List Char) : List Char := (text.dropWhile (· ≠ '/')).tail

theorem length_behindFirst_lt {text : List Char} (h : text ≠ []) :
    (behindFirst text).length < text.length := by
  have hpos := List.length_pos_iff.mpr h
  have hle := (List.dropWhile_sublist (· ≠ '/') (l := text)).length_le
  rw [behindFirst, List.length_tail]
  omega

/-- The component of the first segment that says something, and what follows that segment. -/
def nextInside? (text : List Char) : Option (Component × List Char) :=
  if _h : text = [] then none
  else
    match Component.ofSegment? (String.ofList (firstSegment text)) with
    | some component => some (component, behindFirst text)
    | none => nextInside? (behindFirst text)
termination_by text.length
decreasing_by exact length_behindFirst_lt _h

theorem length_lt_of_nextInside? {text rest : List Char} {component : Component}
    (h : nextInside? text = some (component, rest)) : rest.length < text.length := by
  fun_induction nextInside? text with
  | case1 => cases h
  | case2 text hne component' hsegment =>
    cases h
    exact length_behindFirst_lt hne
  | case3 text hne hsegment ih => exact Nat.lt_trans (ih h) (length_behindFirst_lt hne)

-- ---------------------------------------------------------------------------
-- Whole paths
-- ---------------------------------------------------------------------------

/-- What is left of a path whose components are handed out one by one. -/
structure Remainder where
  text : List Char
  /-- Whether the start of the path has been passed. -/
  begun : Bool := false

namespace Remainder

/-- The next component, and what is left behind it. -/
def next? (r : Remainder) : Option (Component × Remainder) :=
  match r.begun, r.text with
  | false, '/' :: rest => some (.root, { text := rest, begun := true })
  | false, ['.'] => some (.current, { text := [], begun := true })
  | false, '.' :: '/' :: rest => some (.current, { text := '/' :: rest, begun := true })
  | _, text =>
    (nextInside? text).map fun (component, rest) => (component, { text := rest, begun := true })

/-- There is less left behind a component than in front of it. -/
theorem length_lt_of_next? {r r' : Remainder} {component : Component}
    (h : r.next? = some (component, r')) : r'.text.length < r.text.length := by
  unfold next? at h
  split at h
  case h_1 htext | h_2 htext | h_3 htext =>
    cases h
    simp [htext]
  case h_4 =>
    obtain ⟨⟨component', rest⟩, hnext, heq⟩ := Option.map_eq_some_iff.mp h
    cases heq
    exact length_lt_of_nextInside? hnext

/-- Goes through what is left, and ends at a component that leads to a parent directory. -/
def check (r : Remainder) : Except String Unit :=
  match _h : r.next? with
  | none => .ok ()
  | some (component, rest) => if component = .parent then .error parentRefused else rest.check
termination_by r.text.length
decreasing_by exact length_lt_of_next? _h

end Remainder

/-- The path of a text, if no component that is met on the way through it leads to a parent directory. -/
def sanitizeInOnePass (text : String) : Except String Path :=
  (Remainder.check { text := text.toList }).map fun _ => ⟨text⟩

end Bytecode.Cli.Path
