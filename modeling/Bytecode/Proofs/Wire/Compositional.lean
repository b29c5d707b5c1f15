-- SUMMARY: Properties that all readers of items have because those of single bytes have them.
import Mathlib
import Bytecode.Wire.Reading

/-!
# Compositional properties

The readers of items are put together from two that take bytes, with values, errors and a look at the
offset in between. A property that all of these have and that `bind` keeps is one of every item.
-/

namespace Bytecode.Wire.Reader

/-- A property that holds of the readers of bytes and is kept when readers are put together. -/
structure Compositional (P : ∀ {α : Type}, Reader α → Prop) : Prop where
  value : ∀ {α : Type} (a : α), P (pure a)
  fault : ∀ {α : Type} {e : ReadError}, (∀ n, e ≠ .trailingBytes n) → P (throw e : Reader α)
  bind : ∀ {α β : Type} {x : Reader α} {f : α → Reader β}, P x → (∀ a, P (f a)) → P (x >>= f)
  /-- A reader may look at its offset. -/
  atOffset : ∀ {α : Type} {f : Nat → Reader α}, (∀ offset, P (f offset)) →
    P (get >>= fun c => f c.offset)
  take : ∀ field n, P (take field n)
  byte : ∀ field, P (byte field)

namespace Compositional

variable {P : ∀ {α : Type}, Reader α → Prop} {α β : Type}

theorem word (h : Compositional P) (field : Field) : P (word field) :=
  h.bind (h.take field wordSize) fun bytes => h.value (wordOfBytes bytes)

theorem natural (h : Compositional P) (field : Field) : P (natural field) := by
  have hnatural : ∀ offset, P (Reader.word field >>= fun w =>
      if w.toInt64 < 0 then throw (.negative field w.toInt64 offset) else pure w) := by
    intro offset
    refine h.bind (h.word field) fun w => ?_
    split
    · exact h.fault nofun
    · exact h.value w
  exact h.atOffset hnatural

theorem blob (h : Compositional P) (field : Field) : P (blob field) :=
  h.bind (h.natural field) fun count => h.take field count.toNat

theorem text (h : Compositional P) (field : Field) : P (text field) := by
  refine h.bind (h.blob field) fun bytes => ?_
  cases Text.ofUtf8? bytes with
  | some s => exact h.value s
  | none => exact h.fault nofun

theorem many (h : Compositional P) {item : Reader α} (hitem : P item) (n : Nat) :
    P (many item n) := by
  induction n with
  | zero => exact h.value []
  | succ n ih => exact h.bind hitem fun a => h.bind ih fun rest => h.value (a :: rest)

theorem counted (h : Compositional P) (field : Field) {item : Reader α} (hitem : P item) :
    P (counted field item) :=
  h.bind (h.natural field) fun count => h.many hitem count.toNat

theorem texts (h : Compositional P) (field : Field) : P (texts field) :=
  h.counted field (h.text field)

theorem naturals (h : Compositional P) (field : Field) : P (naturals field) :=
  h.counted field (h.natural field)

theorem thisSlot (h : Compositional P) : P thisSlot := by
  have hslot : ∀ offset, P (Reader.word .thisSlot >>= fun w =>
      if w = noSlot then pure none
      else if w.toInt64 < 0 then throw (.negative .thisSlot w.toInt64 offset)
      else pure (some w)) := by
    intro offset
    refine h.bind (h.word .thisSlot) fun w => ?_
    split
    · exact h.value none
    · split
      · exact h.fault nofun
      · exact h.value (some w)
  exact h.atOffset hslot

theorem mapM (h : Compositional P) {f : α → Reader β} (hf : ∀ a, P (f a)) (as : List α) :
    P (as.mapM f) := by
  induction as with
  | nil => exact h.value []
  | cons a rest ih =>
    rw [List.mapM_cons]
    exact h.bind (hf a) fun b => h.bind ih fun bs => h.value (b :: bs)

theorem params (h : Compositional P) : P params := by
  refine h.bind (h.texts .paramName) fun names => ?_
  refine h.bind (h.blob .paramTags) fun tags => ?_
  split
  · exact h.fault nofun
  · refine h.mapM (fun pair => ?_) (names.zip tags)
    cases hkind : ParamKind.ofTag? pair.2 with
    | some kind =>
      simp only [hkind]
      exact h.value (pair.1, kind)
    | none =>
      simp only [hkind]
      exact h.fault nofun

end Compositional

end Bytecode.Wire.Reader
