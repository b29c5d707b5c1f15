-- SUMMARY: Loaders advance: however many items are asked for, there are no more than bytes.
import Mathlib
import Bytecode.Proofs.Wire.Moves
import Bytecode.Proofs.Wire.OnePass

/-!
# Advancing

An item takes up at least one byte, so that of a number of items, however large, no more are taken
than there are bytes left. This holds of all items, small ones and blocks with what is inside, whose
recursion only the depth ends.
-/

namespace Bytecode.Wire.Loader

variable {σ α β : Type}

-- ---------------------------------------------------------------------------
-- Loops
-- ---------------------------------------------------------------------------

section Loops

variable {item : Loader σ α} {count n : Nat} {p q : Progress σ} {a : α}

/--
Of `count` items that are asked for, `n` are taken one after the other. Either these are all, or the
next one fails, and the whole loop as it does.
-/
def Takes (item : Loader σ α) (count : Nat) (p : Progress σ) (n : Nat) : Prop :=
  ∃ as q, many item n p = .ok as q ∧
    (n = count ∨ n < count ∧ ∃ e r, item q = .error e r ∧ many item count p = .error e r)

theorem takes_zero_of_error {e : ReadError} (h : item p = .error e q) :
    Takes item (count + 1) p 0 :=
  ⟨[], p, rfl, .inr ⟨Nat.succ_pos count, e, q, h, bind_of_error h⟩⟩

theorem Takes.cons (hrest : Takes item count q n) (h : item p = .ok a q) :
    Takes item (count + 1) p (n + 1) := by
  obtain ⟨as, r, htaken, hend⟩ := hrest
  have htaken' : many item (n + 1) p = .ok (a :: as) r := by
    rw [many, bind_of_ok h, bind_of_ok htaken]
    rfl
  refine ⟨a :: as, r, htaken', ?_⟩
  obtain rfl | ⟨hlt, e, r', hfails, hloop⟩ := hend
  · exact .inl rfl
  · refine .inr ⟨Nat.succ_lt_succ hlt, e, r', hfails, ?_⟩
    rw [many, bind_of_ok h, bind_of_error hloop]

/-- A loop fails that asks for more items than are taken. -/
theorem Takes.exists_error (h : Takes item count p n) (hlt : n < count) :
    ∃ e r, many item count p = .error e r := by
  obtain ⟨as, q, -, rfl | ⟨-, e, r, -, hloop⟩⟩ := h
  · exact absurd hlt (Nat.lt_irrefl n)
  · exact ⟨e, r, hloop⟩

/-- Each item takes up a byte at least, and so there are no more items than bytes. -/
theorem exists_takes {buffer : List UInt8} (hitem : Moves (Progress.Ahead buffer) 1 item)
    (count : Nat) (hp : p.cursor.Within buffer) :
    ∃ n ≤ p.cursor.rest.length, Takes item count p n := by
  induction count generalizing p with
  | zero => exact ⟨0, Nat.zero_le _, [], p, rfl, .inl rfl⟩
  | succ count ih =>
    cases hrun : item p with
    | error e q => exact ⟨0, Nat.zero_le _, takes_zero_of_error hrun⟩
    | ok a q =>
      have hahead := (hitem.of_ok hrun).cursor
      have hleft := hahead.length_rest hp
      obtain ⟨n, hn, hrest⟩ := ih (hahead hp).1
      exact ⟨n + 1, by omega, hrest.cons hrun⟩

end Loops

-- ---------------------------------------------------------------------------
-- Recursion
-- ---------------------------------------------------------------------------

section Recursion

variable {buffer : List UInt8} {d m : Nat} {x y : Loader σ α} {f g : α → Loader σ β}

/-- Two loaders do the same at a depth. -/
def AgreeAt (d : Nat) (x y : Loader σ α) : Prop := ∀ p, p.depth = d → x p = y p

theorem agreeAt_refl (d : Nat) (x : Loader σ α) : AgreeAt d x x := fun _ _ => rfl

theorem AgreeAt.bind (hxy : AgreeAt d x y) (hx : Moves (Progress.Ahead buffer) m x)
    (hfg : ∀ a, AgreeAt d (f a) (g a)) : AgreeAt d (x >>= f) (y >>= g) := by
  intro p hp
  cases hrun : x p with
  | error e q => rw [bind_of_error hrun, bind_of_error ((hxy p hp).symm.trans hrun)]
  | ok a q =>
    rw [bind_of_ok hrun, bind_of_ok ((hxy p hp).symm.trans hrun)]
    exact hfg a q ((hx.of_ok hrun).depth.trans hp)

/-- Behind an item that the machine has no part in, both are as deep as in front of it. -/
theorem agreeAt_read_bind (z : Reader α) (hfg : ∀ a, AgreeAt d (f a) (g a)) :
    AgreeAt d (read z >>= f) (read z >>= g) := by
  intro p hp
  simp only [Bind.bind, EStateM.bind, read]
  cases z p.cursor with
  | error e c => rfl
  | ok a c => exact hfg a (p.movedTo c) hp

theorem AgreeAt.nested (hxy : AgreeAt (d + 1) x y) : AgreeAt d (nested x) (nested y) := by
  intro p hp
  have hbelow := hxy { p with depth := p.depth + 1 } (congrArg (· + 1) hp)
  simp only [Loader.nested, hbelow]

theorem AgreeAt.counted (hxy : AgreeAt d x y) (hx : Moves (Progress.Ahead buffer) m x)
    (field : Field) : AgreeAt d (counted field x) (counted field y) := by
  have hmany : ∀ count, AgreeAt d (many x count) (many y count) := by
    intro count
    induction count with
    | zero => exact agreeAt_refl d (pure [])
    | succ count ih =>
      refine hxy.bind hx fun a => ?_
      exact ih.bind (moves_many hx count) fun rest => agreeAt_refl d _
  exact agreeAt_read_bind (.natural field) fun count => hmany count.toNat

section Nested

variable {host : Host σ} {block block' : Option String → Loader σ Block}
  (hblock : ∀ owner, Moves (Progress.Ahead buffer) 1 (block owner))
  (hagree : ∀ owner, AgreeAt d (block owner) (block' owner))

include hblock hagree

theorem agreeAt_function (owner : Option String) :
    AgreeAt d (function block owner) (function block' owner) :=
  (hagree owner).bind (hblock owner) fun _ => agreeAt_refl d _

theorem agreeAt_method (owner : String) : AgreeAt d (method block owner) (method block' owner) := by
  refine agreeAt_read_bind (.text .methodName) fun name => ?_
  refine agreeAt_read_bind (.word .accessFlags) fun flags => ?_
  exact (agreeAt_function hblock hagree (some owner)).bind (moves_function hblock (some owner))
    fun f => agreeAt_refl d _

theorem agreeAt_wholeClass : AgreeAt d (wholeClass block) (wholeClass block') := by
  refine agreeAt_read_bind (.text .className) fun name => ?_
  have hmethod := moves_method hblock name
  exact ((agreeAt_method hblock hagree name).counted hmethod .methodCount).bind
    (moves_counted .methodCount hmethod) fun methods => agreeAt_refl d _

theorem agreeAt_decl : AgreeAt d (decl block) (decl block') := by
  rw [decl_eq, decl_eq]
  refine agreeAt_read_bind (.byte .declarationTag) fun tag => ?_
  split
  · exact (agreeAt_function hblock hagree none).bind (moves_function hblock none)
      fun f => agreeAt_refl d _
  · split
    · exact (agreeAt_wholeClass hblock hagree).bind (moves_wholeClass hblock)
        fun c => agreeAt_refl d _
    · exact agreeAt_refl d _

theorem agreeAt_fields (owner : Option String) :
    AgreeAt d (fields host block owner) (fields host block' owner) := by
  have hconstants : Moves (Progress.Ahead buffer) 1 (counted .constantCount (constant host)) :=
    moves_counted .constantCount (moves_constant host)
  have hdecl := moves_decl hblock
  refine agreeAt_read_bind (.blob .code) fun code => ?_
  refine (agreeAt_refl d _).bind hconstants fun consts => ?_
  refine agreeAt_read_bind (.text .blockName) fun name => ?_
  refine agreeAt_read_bind (.text .filename) fun filename => ?_
  refine agreeAt_read_bind (.natural .startLine) fun startLine => ?_
  refine agreeAt_read_bind (.texts .sourceLine) fun sourceLines => ?_
  refine agreeAt_read_bind (.texts .name) fun names => ?_
  refine agreeAt_read_bind (.texts .variableName) fun varnames => ?_
  refine agreeAt_read_bind (.naturals .superglobalSlot) fun superglobals => ?_
  refine agreeAt_read_bind .thisSlot fun thisSlot => ?_
  exact ((agreeAt_decl hblock hagree).counted hdecl .declarationCount).bind
    (moves_counted .declarationCount hdecl) fun decls => agreeAt_refl d _

end Nested

variable (host : Host σ)

theorem block_of_maxNesting_le {p : Progress σ} (hp : maxNesting ≤ p.depth) (levels : Nat)
    (owner : Option String) :
    block host levels owner p = .error (.tooDeep p.cursor.offset) p := by
  cases levels with
  | zero => rfl
  | succ levels => exact if_pos hp

/-- Levels that lie too deep are no use. -/
theorem agreeAt_block {levels levels' : Nat} (h : maxNesting ≤ d + levels)
    (h' : maxNesting ≤ d + levels') (owner : Option String) :
    AgreeAt d (block host levels owner) (block host levels' owner) := by
  induction levels generalizing levels' d owner with
  | zero =>
    intro p hp
    have hdeep : maxNesting ≤ p.depth := by omega
    rw [block_of_maxNesting_le host hdeep, block_of_maxNesting_le host hdeep]
  | succ levels ih =>
    cases levels' with
    | zero =>
      intro p hp
      have hdeep : maxNesting ≤ p.depth := by omega
      rw [block_of_maxNesting_le host hdeep, block_of_maxNesting_le host hdeep]
    | succ levels' =>
      have hbelow : ∀ owner, AgreeAt (d + 1) (block host levels owner) (block host levels' owner) :=
        fun owner => ih (by omega) (by omega) owner
      have hblock : ∀ owner, Moves (Progress.Ahead []) 1 (block host levels owner) :=
        moves_block host levels
      exact (agreeAt_fields hblock hbelow owner).nested

/-- The blocks inside a block are taken as the block itself is, and only the depth ends that. -/
theorem block_eq (owner : Option String) :
    block host maxNesting owner = nested (fields host (block host maxNesting) owner) := by
  have hone : block host (maxNesting + 1) owner =
      nested (fields host (block host maxNesting) owner) := rfl
  rw [← hone]
  funext p
  exact agreeAt_block host (Nat.le_add_left _ _) (by omega) owner p rfl

end Recursion

-- ---------------------------------------------------------------------------
-- Items
-- ---------------------------------------------------------------------------

/-- The loaders of items, large and small, however deep they may go down. -/
inductive Item (host : Host σ) : {α : Type} → Loader σ α → Prop
  | byte (field : Field) : Item host (read (.byte field))
  | word (field : Field) : Item host (read (.word field))
  | natural (field : Field) : Item host (read (.natural field))
  | blob (field : Field) : Item host (read (.blob field))
  | text (field : Field) : Item host (read (.text field))
  | texts (field : Field) : Item host (read (.texts field))
  | naturals (field : Field) : Item host (read (.naturals field))
  | thisSlot : Item host (read .thisSlot)
  | constant : Item host (constant host)
  | decl (levels : Nat) : Item host (decl (block host levels))
  | function (levels : Nat) (owner : Option String) : Item host (function (block host levels) owner)
  | method (levels : Nat) (owner : String) : Item host (method (block host levels) owner)
  | wholeClass (levels : Nat) : Item host (wholeClass (block host levels))
  | fields (levels : Nat) (owner : Option String) :
    Item host (fields host (block host levels) owner)
  | block (levels : Nat) (owner : Option String) : Item host (block host levels owner)

theorem Item.moves {host : Host σ} {x : Loader σ α} (hx : Item host x) (buffer : List UInt8) :
    Moves (Progress.Ahead buffer) 1 x := by
  cases hx with
  | byte field => exact moves_read (Reader.moves_byte field)
  | word field => exact moves_read (Reader.moves_word field)
  | natural field => exact moves_read (Reader.moves_natural field)
  | blob field => exact moves_read (Reader.moves_blob field)
  | text field => exact moves_read (Reader.moves_text field)
  | texts field => exact moves_texts field
  | naturals field => exact moves_naturals field
  | thisSlot => exact moves_read Reader.moves_thisSlot
  | constant => exact moves_constant host
  | decl levels => exact moves_decl (moves_block host levels)
  | function levels owner => exact moves_function (moves_block host levels) owner
  | method levels owner => exact moves_method (moves_block host levels) owner
  | wholeClass levels => exact moves_wholeClass (moves_block host levels)
  | fields levels owner => exact moves_fields host (moves_block host levels) owner
  | block levels owner => exact moves_block host levels owner

/-- How loaders go through a buffer, whatever is in it. -/
structure Advances (host : Host σ) (buffer : List UInt8) : Prop where
  /-- Items keep the loader in the buffer, as deep as it was, and take up a byte. -/
  items : ∀ {α : Type} {x : Loader σ α}, Item host x → Moves (Progress.Ahead buffer) 1 x
  /-- Blocks inside blocks are items of the same kind: only the depth ends the recursion. -/
  recursion : ∀ owner,
    block host maxNesting owner = nested (fields host (block host maxNesting) owner)
  /-- No more items are taken than there are bytes left, however many are asked for. -/
  loops : ∀ {α : Type} {x : Loader σ α}, Item host x → ∀ (count : Nat) {p : Progress σ},
    p.cursor.Within buffer → ∃ n ≤ p.cursor.rest.length, Takes x count p n
  /-- Lists of texts and words are loops over items, as other lists are. -/
  texts : ∀ field,
    (read (.texts field) : Loader σ (List String)) = counted field (read (.text field))
  naturals : ∀ field,
    (read (.naturals field) : Loader σ (List UInt64)) = counted field (read (.natural field))
  /-- The bytes that are left are those behind the cursor. -/
  left : ∀ {c : Cursor}, c.Within buffer → c.offset + c.rest.length = buffer.length
  /-- A slice is taken if it lies in the buffer, and nothing is taken otherwise. -/
  slices : ∀ {c : Cursor}, c.Within buffer → ∀ field count,
    Reader.take field count c =
      if c.offset + count ≤ buffer.length then
        .ok ((buffer.drop c.offset).take count)
          { c with offset := c.offset + count, rest := buffer.drop (c.offset + count) }
      else .error (.unexpectedEnd field c.offset) c

/-- Loaders advance in every buffer, from every place in it, at every depth. -/
theorem loaders_advance (host : Host σ) (buffer : List UInt8) : Advances host buffer where
  items hx := hx.moves buffer
  recursion := block_eq host
  loops hx count _ hp := exists_takes (hx.moves buffer) count hp
  texts field := read_counted field (Reader.text field)
  naturals field := read_counted field (Reader.natural field)
  left := Cursor.Within.offset_add
  slices := Reader.take_of_within

/-- In sixteen bytes there are no 2⁶³ - 1 texts. -/
theorem loaders_advance_absurd_count :
    let buffer : List UInt8 := List.replicate 16 0
    let p : Progress Unit := { cursor := { rest := buffer }, machine := () }
    p.cursor.Within buffer ∧ Item Host.silent (read (.text .name) : Loader Unit String) ∧
      ∃ e r, many (read (.text .name) : Loader Unit String) (2 ^ 63 - 1) p = .error e r := by
  intro buffer p
  have hp : p.cursor.Within buffer := ⟨Nat.zero_le _, rfl⟩
  have htext : Item Host.silent (read (.text .name) : Loader Unit String) := .text .name
  obtain ⟨n, hn, htakes⟩ := (loaders_advance Host.silent buffer).loops htext (2 ^ 63 - 1) hp
  have hlength : p.cursor.rest.length = 16 := rfl
  exact ⟨hp, htext, htakes.exists_error (by omega)⟩

end Bytecode.Wire.Loader
