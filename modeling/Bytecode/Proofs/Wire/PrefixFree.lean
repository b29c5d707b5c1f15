-- SUMMARY: Readers see no further than they go: bytes put behind a buffer change no verdict reached before its end.
import Bytecode.Proofs.Wire.Compositional
import Bytecode.Proofs.Wire.Loading
import Bytecode.Proofs.Wire.RecordReading

/-!
# Prefix freedom

A reader that gives a value gives the same value in front of more bytes, and so does one that raises
an error, unless the error is that the buffer ended. No accepted buffer is a prefix of another, and
one that is cut off anywhere is refused because it ends.
-/

namespace Bytecode.Wire

/-- The buffer ended in the middle of an item. -/
def ReadError.IsEnd : ReadError → Prop
  | .unexpectedEnd _ _ => True
  | _ => False

theorem ReadError.isEnd_iff {e : ReadError} : e.IsEnd ↔ ∃ field offset, e = .unexpectedEnd field offset := by
  cases e <;> simp [ReadError.IsEnd]

/-- The same cursor with more bytes at the end. -/
def Cursor.before (c : Cursor) (suffix : List UInt8) : Cursor := { c with rest := c.rest ++ suffix }

namespace Reader

variable {α β : Type}

/-- More bytes at the end change nothing, unless the bytes run out; bytes left over are no error. -/
def Settled (x : Reader α) : Prop :=
  ∀ (c : Cursor) (suffix : List UInt8),
    match x c with
    | .ok a c' => x (c.before suffix) = .ok a (c'.before suffix)
    | .error e c' =>
      e.IsEnd ∨ (∀ n, e ≠ .trailingBytes n) ∧ x (c.before suffix) = .error e (c'.before suffix)

theorem settled_pure (a : α) : Settled (pure a) := fun _ _ => rfl

theorem settled_throw {e : ReadError} (h : ∀ n, e ≠ .trailingBytes n) :
    Settled (throw e : Reader α) := fun _ _ => .inr ⟨h, rfl⟩

theorem settled_note (n : Int64) : Settled (note n) := fun _ _ => rfl

theorem Settled.bind {x : Reader α} {f : α → Reader β} (hx : Settled x) (hf : ∀ a, Settled (f a)) :
    Settled (x >>= f) := by
  intro c suffix
  have hxc := hx c suffix
  cases h : x c with
  | ok a c' =>
    simp only [h] at hxc
    simp only [bind_of_ok h, bind_of_ok hxc]
    exact hf a c' suffix
  | error e c' =>
    simp only [h] at hxc
    simp only [bind_of_error h]
    exact hxc.imp_right fun ⟨hne, herror⟩ => ⟨hne, bind_of_error herror⟩

/-- A reader may look at its offset. -/
theorem Settled.at_offset {f : Nat → Reader α} (hf : ∀ offset, Settled (f offset)) :
    Settled (get >>= fun c => f c.offset) := fun c suffix => hf c.offset c suffix

theorem settled_take (field : Field) (n : Nat) : Settled (take field n) := by
  intro c suffix
  by_cases h : c.rest.length < n
  · have hshort : (c.rest.take n).length < n := by simpa using h
    simp only [take, if_pos hshort]
    exact .inl trivial
  · have hn : n ≤ c.rest.length := by omega
    simp [take, Cursor.before, hn, List.take_append_of_le_length hn,
      List.drop_append_of_le_length hn]

theorem settled_byte (field : Field) : Settled (byte field) := by
  intro c suffix
  cases h : c.rest with
  | nil =>
    simp only [byte, h]
    exact .inl trivial
  | cons b bs => simp [byte, Cursor.before, h]

theorem settled_items : Compositional Settled where
  value := settled_pure
  fault := settled_throw
  bind := Settled.bind
  atOffset := Settled.at_offset
  take := settled_take
  byte := settled_byte

theorem settled_constant : Settled constant := by
  refine (settled_byte .constantTag).bind fun tag => ?_
  split
  · refine (settled_items.word .integerConstant).bind fun w => ?_
    exact (settled_note _).bind fun _ => settled_pure _
  · exact settled_throw nofun

-- ---------------------------------------------------------------------------
-- Blocks
-- ---------------------------------------------------------------------------

section Nested

variable {block : Reader (Record Int64)}

theorem settled_routine (hblock : Settled block) : Settled (routine block) :=
  hblock.bind fun _ => settled_items.params.bind fun _ => settled_pure _

theorem settled_member (hblock : Settled block) : Settled (member block) := by
  refine (settled_items.text .methodName).bind fun name => ?_
  refine (settled_items.word .accessFlags).bind fun flags => ?_
  exact (settled_routine hblock).bind fun _ => settled_pure _

theorem settled_entry (hblock : Settled block) : Settled (entry block) := by
  refine (settled_byte .declarationTag).bind fun tag => ?_
  split
  · exact (settled_routine hblock).bind fun _ => settled_pure _
  · split
    · refine (settled_items.text .className).bind fun name => ?_
      exact (settled_items.counted .methodCount (settled_member hblock)).bind fun _ => settled_pure _
    · exact settled_throw nofun

theorem settled_fields (hblock : Settled block) : Settled (fields block) := by
  refine (settled_items.blob .code).bind fun code => ?_
  refine (settled_items.counted .constantCount settled_constant).bind fun consts => ?_
  refine (settled_items.text .blockName).bind fun name => ?_
  refine (settled_items.text .filename).bind fun filename => ?_
  refine (settled_items.natural .startLine).bind fun startLine => ?_
  refine (settled_items.texts .sourceLine).bind fun sourceLines => ?_
  refine (settled_items.texts .name).bind fun names => ?_
  refine (settled_items.texts .variableName).bind fun varnames => ?_
  refine (settled_items.naturals .superglobalSlot).bind fun superglobals => ?_
  refine settled_items.thisSlot.bind fun slot => ?_
  refine (settled_items.counted .declarationCount (settled_entry hblock)).bind fun entries => ?_
  refine (settled_items.naturals .lineMapping).bind fun lineMap => ?_
  cases stackDepth code with
  | ok depth => exact settled_pure _
  | error e => exact settled_throw nofun

end Nested

theorem settled_block (levels : Nat) : Settled (block levels) := by
  induction levels with
  | zero =>
    exact Settled.at_offset (f := fun offset => throw (.tooDeep offset)) fun _ =>
      settled_throw nofun
  | succ levels ih => exact settled_fields ih

end Reader

-- ---------------------------------------------------------------------------
-- Buffers
-- ---------------------------------------------------------------------------

/-- What a verdict becomes when bytes are put behind the buffer. -/
def extended (suffix : List UInt8) :
    Except ReadError (Record Int64) → Except ReadError (Record Int64)
  | .ok _ => .error (.trailingBytes suffix.length)
  | .error (.trailingBytes n) => .error (.trailingBytes (n + suffix.length))
  | .error e => .error e

theorem extended_error {suffix : List UInt8} {e : ReadError} (h : ∀ n, e ≠ .trailingBytes n) :
    extended suffix (.error e) = .error e := by
  cases e with
  | trailingBytes n => exact absurd rfl (h n)
  | _ => rfl

theorem Record.read_append (buffer : List UInt8) {suffix : List UInt8} (hsuffix : suffix ≠ []) :
    (∃ e, (Record.read buffer).1 = .error e ∧ e.IsEnd) ∨
      (Record.read (buffer ++ suffix)).1 = extended suffix (Record.read buffer).1 := by
  have hsettled := Reader.settled_block maxNesting { rest := buffer } suffix
  have hstart : Cursor.before { rest := buffer } suffix = { rest := buffer ++ suffix } := rfl
  rw [hstart] at hsettled
  rw [Record.read_eq, Record.read_eq]
  cases h : Reader.block maxNesting { rest := buffer } with
  | ok r c =>
    simp only [h] at hsettled
    have hrest : (c.before suffix).rest ≠ [] := by simp [Cursor.before, hsuffix]
    have hlength : (c.before suffix).rest.length = c.rest.length + suffix.length := by
      simp [Cursor.before]
    right
    simp only [hsettled, if_neg hrest, hlength]
    cases hc : c.rest with
    | nil => simp [extended]
    | cons b bs => simp [extended]
  | error e c =>
    simp only [h] at hsettled
    rcases hsettled with hend | ⟨hne, hsettled⟩
    · exact .inl ⟨e, rfl, hend⟩
    · right
      simp only [hsettled, extended_error hne]

section Load

variable {σ : Type} (host : Host σ) (s : σ)

/-- Bytes behind a buffer change its verdict in their number only, unless the buffer has ended. -/
theorem load_append (buffer : List UInt8) {suffix : List UInt8} (hsuffix : suffix ≠ []) :
    (∀ t, ((Block.load host buffer).run s).1 = .ok t →
      ((Block.load host (buffer ++ suffix)).run s).1 = .error (.trailingBytes suffix.length)) ∧
    (∀ n, ((Block.load host buffer).run s).1 = .error (.trailingBytes n) →
      ((Block.load host (buffer ++ suffix)).run s).1 =
        .error (.trailingBytes (n + suffix.length))) ∧
    (∀ e, ((Block.load host buffer).run s).1 = .error e →
      (∀ field offset, e ≠ .unexpectedEnd field offset) → (∀ n, e ≠ .trailingBytes n) →
      ((Block.load host (buffer ++ suffix)).run s).1 = .error e) ∧
    (∀ t, ((Block.load host (buffer ++ suffix)).run s).1 = .ok t →
      ∃ field offset, ((Block.load host buffer).run s).1 = .error (.unexpectedEnd field offset)) := by
  have happend := Record.read_append buffer hsuffix
  simp only [load_eq_error_iff]
  refine ⟨fun t ht => ?accepted, fun n hn => ?trailing, fun e he hend hne => ?refused, fun t ht => ?cut⟩
  case accepted =>
    obtain ⟨r, hr⟩ := exists_load_eq_ok_iff.mp ⟨t, ht⟩
    simp only [hr, extended] at happend
    simpa using happend
  case trailing =>
    simp only [hn, extended] at happend
    simpa [ReadError.IsEnd] using happend
  case refused =>
    have hnot : ¬ e.IsEnd := by
      rw [ReadError.isEnd_iff]
      exact fun ⟨field, offset, heq⟩ => hend field offset heq
    simp only [he, extended_error hne] at happend
    simpa [hnot] using happend
  case cut =>
    obtain ⟨r, hr⟩ := exists_load_eq_ok_iff.mp ⟨t, ht⟩
    rcases happend with ⟨e, he, hend⟩ | happend
    · obtain ⟨field, offset, rfl⟩ := ReadError.isEnd_iff.mp hend
      exact ⟨field, offset, he⟩
    · rw [hr] at happend
      cases hverdict : (Record.read buffer).1 with
      | ok q => simp [hverdict, extended] at happend
      | error e =>
        rw [hverdict] at happend
        cases e <;> simp [extended] at happend

end Load

theorem load_append_empty : ([0] : List UInt8) ≠ [] ∧
    ((Block.load Host.silent (Record.empty.encode ++ [0])).run ()).1 = .error (.trailingBytes 1) :=
  ⟨by simp, (load_append Host.silent () Record.empty.encode (by simp)).1 _ load_encode_empty⟩

end Bytecode.Wire
