-- SUMMARY: How readers and loaders move: on in the buffer, and back to the depth they came from.
import Mathlib
import Bytecode.Proofs.Wire.Compositional
import Bytecode.Wire.OnePass

/-!
# Moves

Wherever a reader stops, it stands in the buffer and not in front of where it began, and behind an
item it stands further on. A loader moves its cursor like that, comes back up from all levels that it
has gone down, and drops no class that is complete, whether it gives an item or fails.
-/

namespace Bytecode.Wire

variable {σ τ α β : Type}

-- ---------------------------------------------------------------------------
-- Moves
-- ---------------------------------------------------------------------------

/-- Moves from state to state can be put together, and their sizes add up then. -/
class Additive (R : Nat → τ → τ → Prop) : Prop where
  refl : ∀ s, R 0 s s
  trans : ∀ {m n s s' s''}, R m s s' → R n s' s'' → R (m + n) s s''
  mono : ∀ {m n s s'}, m ≤ n → R n s s' → R m s s'

/-- Giving an item moves the state by at least `least`, and failing moves it too. -/
def Moves (R : Nat → τ → τ → Prop) (least : Nat) (x : EStateM ReadError τ α) : Prop :=
  ∀ s, match x s with
    | .ok _ s' => R least s s'
    | .error _ s' => R 0 s s'

section Laws

variable {R : Nat → τ → τ → Prop} {m n : Nat} {x : EStateM ReadError τ α}
  {f : α → EStateM ReadError τ β}

theorem Moves.of_ok {a : α} {s s' : τ} (hx : Moves R n x) (h : x s = .ok a s') : R n s s' := by
  have hs := hx s
  rwa [h] at hs

theorem Moves.of_error {e : ReadError} {s s' : τ} (hx : Moves R n x) (h : x s = .error e s') :
    R 0 s s' := by
  have hs := hx s
  rwa [h] at hs

theorem moves_of_cases (hok : ∀ a s s', x s = .ok a s' → R n s s')
    (herror : ∀ e s s', x s = .error e s' → R 0 s s') : Moves R n x := by
  intro s
  cases h : x s with
  | ok a s' => exact hok a s s' h
  | error e s' => exact herror e s s' h

/-- Looking at the state does not move it. -/
theorem moves_get_bind {f : τ → EStateM ReadError τ β} (hf : ∀ s, Moves R n (f s)) :
    Moves R n (get >>= f) := fun s => hf s s

variable [Additive R]

theorem Moves.mono (hx : Moves R n x) (h : m ≤ n) : Moves R m x :=
  moves_of_cases (fun _ _ _ hrun => Additive.mono h (hx.of_ok hrun)) fun _ _ _ => hx.of_error

theorem Moves.weaken (hx : Moves R n x) : Moves R 0 x := hx.mono (Nat.zero_le n)

theorem moves_pure (a : α) : Moves R 0 (pure a) := Additive.refl

theorem moves_throw (e : ReadError) : Moves R n (throw e : EStateM ReadError τ α) := Additive.refl

theorem Moves.bind (hx : Moves R m x) (hf : ∀ a, Moves R n (f a)) : Moves R (m + n) (x >>= f) := by
  intro s
  simp only [Bind.bind, EStateM.bind]
  cases hfirst : x s with
  | error e s' => exact hx.of_error hfirst
  | ok a s' =>
    simp only
    cases hrest : f a s' with
    | ok b s'' => exact Additive.trans (hx.of_ok hfirst) ((hf a).of_ok hrest)
    | error e s'' =>
      have hboth : R (m + 0) s s'' := Additive.trans (hx.of_ok hfirst) ((hf a).of_error hrest)
      exact Additive.mono (Nat.zero_le _) hboth

/-- What the first item moves the state by is not lost behind it. -/
theorem Moves.first (hx : Moves R m x) (hf : ∀ a, Moves R 0 (f a)) : Moves R m (x >>= f) :=
  hx.bind hf

end Laws

-- ---------------------------------------------------------------------------
-- Places in the buffer
-- ---------------------------------------------------------------------------

/-- The cursor stands in the buffer or at its end, and holds all bytes from there on. -/
structure Cursor.Within (c : Cursor) (buffer : List UInt8) : Prop where
  offset_le : c.offset ≤ buffer.length
  rest_eq : c.rest = buffer.drop c.offset

theorem Cursor.Within.offset_add {c : Cursor} {buffer : List UInt8} (h : c.Within buffer) :
    c.offset + c.rest.length = buffer.length := by
  have hle := h.offset_le
  rw [h.rest_eq, List.length_drop]
  omega

/-- Within the buffer, the cursor has gone on by at least `least` bytes and has not left it. -/
def Cursor.Ahead (buffer : List UInt8) (least : Nat) (c c' : Cursor) : Prop :=
  c.Within buffer → c'.Within buffer ∧ c.offset + least ≤ c'.offset

/-- The same for the cursor of a loader that is as deep as before and has lost no complete class. -/
structure Progress.Ahead (buffer : List UInt8) (least : Nat) (p q : Progress σ) : Prop where
  cursor : p.cursor.Ahead buffer least q.cursor
  depth : q.depth = p.depth
  classes : p.classes <+: q.classes

section Ahead

variable {buffer : List UInt8} {n : Nat}

instance Cursor.additive_ahead : Additive (Cursor.Ahead buffer) where
  refl _ hc := ⟨hc, le_rfl⟩
  trans hfirst hsecond hc := by
    obtain ⟨hc', hle⟩ := hfirst hc
    obtain ⟨hc'', hle'⟩ := hsecond hc'
    exact ⟨hc'', by omega⟩
  mono hmn h hc := ⟨(h hc).1, (Nat.add_le_add_left hmn _).trans (h hc).2⟩

instance Progress.additive_ahead :
    Additive (Progress.Ahead buffer : Nat → Progress σ → Progress σ → Prop) where
  refl p := ⟨Additive.refl p.cursor, rfl, List.prefix_rfl⟩
  trans hfirst hsecond :=
    ⟨Additive.trans hfirst.cursor hsecond.cursor, hsecond.depth.trans hfirst.depth,
      hfirst.classes.trans hsecond.classes⟩
  mono hmn h := ⟨Additive.mono hmn h.cursor, h.depth, h.classes⟩

/-- One byte fewer is left behind each byte that is taken up. -/
theorem Cursor.Ahead.length_rest {c c' : Cursor} (h : c.Ahead buffer n c') (hc : c.Within buffer) :
    c'.rest.length + n ≤ c.rest.length := by
  obtain ⟨hc', hle⟩ := h hc
  have hsum := hc.offset_add
  have hsum' := hc'.offset_add
  omega

/-- From one level further down and back up again. -/
theorem Progress.Ahead.nested {p q : Progress σ}
    (h : Progress.Ahead buffer n { p with depth := p.depth + 1 } q) :
    p.Ahead buffer n { q with depth := q.depth - 1 } where
  cursor := h.cursor
  depth := by
    have hdepth : q.depth = p.depth + 1 := h.depth
    rw [hdepth, Nat.add_sub_cancel]
  classes := h.classes

end Ahead

-- ---------------------------------------------------------------------------
-- Readers
-- ---------------------------------------------------------------------------

namespace Reader

variable {buffer : List UInt8}

/-- A slice is taken if it lies in the buffer, and nothing is taken otherwise. -/
theorem take_of_within {c : Cursor} (hc : c.Within buffer) (field : Field) (count : Nat) :
    take field count c =
      if c.offset + count ≤ buffer.length then
        .ok ((buffer.drop c.offset).take count)
          { c with offset := c.offset + count, rest := buffer.drop (c.offset + count) }
      else .error (.unexpectedEnd field c.offset) c := by
  have hsum := hc.offset_add
  have hlength : (c.rest.take count).length < count ↔ ¬ c.offset + count ≤ buffer.length := by
    rw [List.length_take]
    omega
  unfold take
  simp only [hlength, ite_not]
  rw [hc.rest_eq, List.drop_drop]

theorem moves_take (field : Field) (count : Nat) :
    Moves (Cursor.Ahead buffer) count (take field count) := by
  refine moves_of_cases (fun bytes c c' hrun hc => ?_) fun e c c' hrun hc => ?_
  · rw [take_of_within hc] at hrun
    split at hrun
    case isTrue hle =>
      cases hrun
      exact ⟨⟨hle, rfl⟩, le_rfl⟩
    case isFalse => cases hrun
  · rw [take_of_within hc] at hrun
    split at hrun
    case isTrue => cases hrun
    case isFalse =>
      cases hrun
      exact ⟨hc, le_rfl⟩

theorem moves_byte (field : Field) : Moves (Cursor.Ahead buffer) 1 (byte field) := by
  intro c
  unfold byte
  cases hrest : c.rest with
  | nil => exact (Additive.refl c : c.Ahead buffer 0 c)
  | cons b bs =>
    intro hc
    have hsum := hc.offset_add
    rw [hrest, List.length_cons] at hsum
    refine ⟨⟨show c.offset + 1 ≤ _ by omega, show bs = _ from ?_⟩, le_rfl⟩
    rw [← List.drop_drop, ← hc.rest_eq, hrest, List.drop_one, List.tail_cons]

theorem compositional_moves : Compositional fun x => Moves (Cursor.Ahead buffer) 0 x where
  value := moves_pure
  fault _ := moves_throw _
  bind hx hf := hx.first hf
  atOffset hf := moves_get_bind fun c => hf c.offset
  take field count := (moves_take field count).weaken
  byte field := (moves_byte field).weaken

theorem moves_word (field : Field) : Moves (Cursor.Ahead buffer) 1 (word field) := by
  have htake : Moves (Cursor.Ahead buffer) 1 (take field wordSize) :=
    (moves_take field wordSize).mono (by decide)
  exact htake.first fun bytes => moves_pure (wordOfBytes bytes)

theorem moves_natural (field : Field) : Moves (Cursor.Ahead buffer) 1 (natural field) := by
  refine moves_get_bind fun start => (moves_word field).first fun w => ?_
  split
  · exact moves_throw _
  · exact moves_pure w

theorem moves_thisSlot : Moves (Cursor.Ahead buffer) 1 thisSlot := by
  refine moves_get_bind fun start => (moves_word .thisSlot).first fun w => ?_
  split
  · exact moves_pure none
  · split
    · exact moves_throw _
    · exact moves_pure (some w)

/-- Notes stand outside the buffer. -/
theorem moves_note (k : Int64) : Moves (Cursor.Ahead buffer) 0 (note k) := fun _ hc =>
  ⟨⟨hc.offset_le, hc.rest_eq⟩, le_rfl⟩

theorem moves_constant : Moves (Cursor.Ahead buffer) 1 constant := by
  refine (moves_byte .constantTag).first fun tag => ?_
  split
  · refine (compositional_moves.word .integerConstant).first fun w => ?_
    exact (moves_note w.toInt64).first fun _ => moves_pure w.toInt64
  · exact moves_throw _

theorem moves_blob (field : Field) : Moves (Cursor.Ahead buffer) 1 (blob field) :=
  (moves_natural field).first fun count => compositional_moves.take field count.toNat

theorem moves_text (field : Field) : Moves (Cursor.Ahead buffer) 1 (text field) := by
  refine (moves_blob field).first fun bytes => ?_
  cases Text.ofUtf8? bytes with
  | some s => exact moves_pure s
  | none => exact moves_throw _

end Reader

-- ---------------------------------------------------------------------------
-- Loaders
-- ---------------------------------------------------------------------------

namespace Loader

section Read

theorem read_pure (a : α) : (read (pure a) : Loader σ α) = pure a := rfl

theorem read_bind (x : Reader α) (f : α → Reader β) :
    (read (x >>= f) : Loader σ β) = read x >>= fun a => read (f a) := by
  funext p
  simp only [read, bind, EStateM.bind]
  cases x p.cursor <;> rfl

theorem read_many (item : Reader α) (count : Nat) :
    (read (item.many count) : Loader σ (List α)) = many (read item) count := by
  induction count with
  | zero => rfl
  | succ count ih =>
    simp only [Reader.many, many, read_bind, read_pure, ih]

/-- Items that the machine has no part in are taken one after the other too. -/
theorem read_counted (field : Field) (item : Reader α) :
    (read (Reader.counted field item) : Loader σ (List α)) = counted field (read item) := by
  simp only [Reader.counted, counted, read_bind, read_many]

end Read

/-- Takes a class behind its tag. -/
def wholeClass (block : Option String → Loader σ Block) : Loader σ Class := do
  let name ← read (.text .className)
  let methods ← counted .methodCount (method block name)
  let c := Class.ofMethods { name } methods
  complete c
  pure c

/-- A class is taken as one item. -/
theorem decl_eq (block : Option String → Loader σ Block) :
    decl block = (do
      let tag ← read (.byte .declarationTag)
      if tag = Decl.functionTag then
        let f ← function block none
        pure (.function f)
      else if tag = Decl.classTag then
        let c ← wholeClass block
        pure (.class c)
      else throw (.unknownDeclaration tag)) := by
  simp only [decl, wholeClass, bind_assoc, pure_bind]

section Moves

variable {buffer : List UInt8} {n : Nat}

theorem moves_read {x : Reader α} (hx : Moves (Cursor.Ahead buffer) n x) :
    Moves (Progress.Ahead buffer) n (read x : Loader σ α) := by
  intro p
  unfold read
  cases hrun : x p.cursor with
  | ok a c => exact ⟨hx.of_ok hrun, rfl, List.prefix_rfl⟩
  | error e c => exact ⟨hx.of_error hrun, rfl, List.prefix_rfl⟩

theorem moves_ask (x : StateM σ α) : Moves (Progress.Ahead buffer) 0 (ask x) := fun p =>
  ⟨Additive.refl p.cursor, rfl, List.prefix_rfl⟩

theorem moves_complete (c : Class) :
    Moves (Progress.Ahead buffer) 0 (complete c : Loader σ Unit) := fun p =>
  ⟨Additive.refl p.cursor, rfl, List.prefix_append p.classes [c]⟩

theorem moves_nested {x : Loader σ α} (hx : Moves (Progress.Ahead buffer) n x) :
    Moves (Progress.Ahead buffer) n (nested x) := by
  intro p
  unfold nested
  by_cases hdeep : maxNesting ≤ p.depth
  · simp only [if_pos hdeep]
    exact Additive.refl p
  · simp only [if_neg hdeep]
    cases hrun : x { p with depth := p.depth + 1 } with
    | ok a q => exact (hx.of_ok hrun).nested
    | error e q => exact (hx.of_error hrun).nested

theorem moves_many {item : Loader σ α} (hitem : Moves (Progress.Ahead buffer) n item)
    (count : Nat) : Moves (Progress.Ahead buffer) 0 (many item count) := by
  induction count with
  | zero => exact moves_pure []
  | succ count ih => exact hitem.weaken.first fun a => ih.first fun rest => moves_pure (a :: rest)

/-- The number itself is taken even where it asks for no item. -/
theorem moves_counted {item : Loader σ α} (field : Field)
    (hitem : Moves (Progress.Ahead buffer) n item) :
    Moves (Progress.Ahead buffer) 1 (counted field item) :=
  (moves_read (Reader.moves_natural field)).first fun count => moves_many hitem count.toNat

theorem moves_texts (field : Field) :
    Moves (Progress.Ahead buffer) 1 (read (Reader.texts field) : Loader σ (List String)) := by
  rw [Reader.texts, read_counted]
  exact moves_counted field (moves_read (Reader.moves_text field))

theorem moves_naturals (field : Field) :
    Moves (Progress.Ahead buffer) 1 (read (Reader.naturals field) : Loader σ (List UInt64)) := by
  rw [Reader.naturals, read_counted]
  exact moves_counted field (moves_read (Reader.moves_natural field))

variable (host : Host σ)

theorem moves_constant : Moves (Progress.Ahead buffer) 1 (constant host) :=
  (moves_read Reader.moves_constant).first fun k => moves_ask (host.wrapInt k)

section Nested

variable {block : Option String → Loader σ Block}
  (hblock : ∀ owner, Moves (Progress.Ahead buffer) 1 (block owner))

include hblock

theorem moves_function (owner : Option String) :
    Moves (Progress.Ahead buffer) 1 (function block owner) := by
  refine (hblock owner).first fun body => ?_
  exact (moves_read Reader.compositional_moves.params).first fun params => moves_pure _

theorem moves_method (owner : String) : Moves (Progress.Ahead buffer) 1 (method block owner) := by
  refine (moves_read (Reader.moves_text .methodName)).first fun name => ?_
  refine (moves_read (Reader.compositional_moves.word .accessFlags)).first fun flags => ?_
  exact (moves_function hblock (some owner)).weaken.first fun f => moves_pure _

theorem moves_wholeClass : Moves (Progress.Ahead buffer) 1 (wholeClass block) := by
  refine (moves_read (Reader.moves_text .className)).first fun name => ?_
  refine (moves_counted .methodCount (moves_method hblock name)).weaken.first fun methods => ?_
  exact (moves_complete _).first fun _ => moves_pure _

theorem moves_decl : Moves (Progress.Ahead buffer) 1 (decl block) := by
  rw [decl_eq]
  refine (moves_read (Reader.moves_byte .declarationTag)).first fun tag => ?_
  split
  · exact (moves_function hblock none).weaken.first fun f => moves_pure _
  · split
    · exact (moves_wholeClass hblock).weaken.first fun c => moves_pure _
    · exact moves_throw _

theorem moves_fields (owner : Option String) :
    Moves (Progress.Ahead buffer) 1 (fields host block owner) := by
  have items : Reader.Compositional fun x => Moves (Cursor.Ahead buffer) 0 x :=
    Reader.compositional_moves
  refine (moves_read (Reader.moves_blob .code)).first fun code => ?_
  refine (moves_counted .constantCount (moves_constant host)).weaken.first fun consts => ?_
  refine (moves_read (items.text .blockName)).first fun name => ?_
  refine (moves_read (items.text .filename)).first fun filename => ?_
  refine (moves_read (items.natural .startLine)).first fun startLine => ?_
  refine (moves_read (items.texts .sourceLine)).first fun sourceLines => ?_
  refine (moves_read (items.texts .name)).first fun names => ?_
  refine (moves_read (items.texts .variableName)).first fun varnames => ?_
  refine (moves_read (items.naturals .superglobalSlot)).first fun superglobals => ?_
  refine (moves_read items.thisSlot).first fun thisSlot => ?_
  refine (moves_counted .declarationCount (moves_decl hblock)).weaken.first fun decls => ?_
  refine (moves_read (items.naturals .lineMapping)).first fun lineMap => ?_
  dsimp only
  split
  · exact moves_pure _
  · exact moves_throw _

end Nested

theorem moves_block (levels : Nat) (owner : Option String) :
    Moves (Progress.Ahead buffer) 1 (block host levels owner) := by
  induction levels generalizing owner with
  | zero => exact moves_get_bind fun p => moves_throw _
  | succ levels ih => exact moves_nested (moves_fields host ih owner)

end Moves

end Loader

end Bytecode.Wire
