-- SUMMARY: Passages of a buffer, and the readers that go over them: what they take, give and refuse.
import Mathlib
import Bytecode.Wire.Reading
import Bytecode.Wire.Word.Lemmas

/-!
# Passages

A passage says of bytes in a buffer what a reader meets there: stretch by stretch the bytes, the
integer constants noted on the way, and the error that ends the reading, if one does.

A reader and a passage are related in two ways. `Reader.Follows` says what the reader makes of a
buffer that starts with the passage: the value or the first fault. `Reader.Strict` says that the
reader accepts nothing but the passage that its value is spelled as. Both are composed along `bind`,
so that a statement about a record is assembled from those about its items.
-/

namespace Bytecode.Wire

/-- A stretch of a buffer that a reader takes at once. -/
structure Stretch where
  bytes : List UInt8
  /-- The error that is raised here, given the offset at which the stretch starts. -/
  fault : Option (Nat → ReadError) := none
  /-- The integer constants that are noted here. -/
  met : List Int64 := []

/-- Stretches one after the other. -/
abbrev Passage := List Stretch

namespace Passage

/-- The bytes of a passage. -/
def bytes (p : Passage) : List UInt8 := p.flatMap Stretch.bytes

/-- The integer constants noted in a passage. -/
def met (p : Passage) : List Int64 := p.flatMap Stretch.met

/-- The first error of a passage that starts at an offset. -/
def fault? : Passage → Nat → Option ReadError
  | [], _ => none
  | s :: p, offset =>
    match s.fault with
    | some error => some (error offset)
    | none => fault? p (offset + s.bytes.length)

/-- No error is raised in the passage. -/
def Clean (p : Passage) : Prop := ∀ s ∈ p, s.fault = none

variable {p q : Passage}

@[simp] theorem bytes_nil : Passage.bytes [] = [] := rfl

@[simp] theorem bytes_cons {s : Stretch} : Passage.bytes (s :: p) = s.bytes ++ p.bytes := rfl

@[simp] theorem bytes_append : (p ++ q).bytes = p.bytes ++ q.bytes := by
  simp [bytes]

@[simp] theorem met_nil : Passage.met [] = [] := rfl

@[simp] theorem met_cons {s : Stretch} : Passage.met (s :: p) = s.met ++ p.met := rfl

@[simp] theorem met_append : (p ++ q).met = p.met ++ q.met := by
  simp [met]

@[simp] theorem clean_nil : Passage.Clean [] := by
  simp [Clean]

@[simp] theorem clean_cons {s : Stretch} :
    Passage.Clean (s :: p) ↔ s.fault = none ∧ p.Clean := by
  simp [Clean]

@[simp] theorem clean_append : (p ++ q).Clean ↔ p.Clean ∧ q.Clean := by
  simp only [Clean, List.mem_append, or_imp, forall_and]

theorem fault?_append (offset : Nat) :
    (p ++ q).fault? offset = (p.fault? offset).or (q.fault? (offset + p.bytes.length)) := by
  induction p generalizing offset with
  | nil => simp [fault?]
  | cons s p ih =>
    simp only [List.cons_append, fault?]
    cases s.fault with
    | some error => rfl
    | none => simp only [ih, bytes_cons, List.length_append, Nat.add_assoc]

theorem fault?_eq_none_iff (offset : Nat) : p.fault? offset = none ↔ p.Clean := by
  induction p generalizing offset with
  | nil => simp [fault?]
  | cons s p ih =>
    cases h : s.fault <;> simp [fault?, h, ih]

end Passage

-- ---------------------------------------------------------------------------
-- Going over a passage
-- ---------------------------------------------------------------------------

/-- The cursor behind a passage, with the bytes that follow it. -/
def Cursor.past (c : Cursor) (p : Passage) (rest : List UInt8) : Cursor :=
  ⟨c.offset + p.bytes.length, rest, p.met.reverse ++ c.met⟩

/-- A clean passage lies between two cursors. -/
def Passage.Leads (p : Passage) (c c' : Cursor) : Prop :=
  p.Clean ∧ c.rest = p.bytes ++ c'.rest ∧ c' = c.past p c'.rest

theorem Passage.leads_nil (c : Cursor) : Passage.Leads [] c c :=
  ⟨Passage.clean_nil, rfl, rfl⟩

theorem Passage.Leads.append {p q : Passage} {c c' c'' : Cursor} (hp : p.Leads c c')
    (hq : q.Leads c' c'') : (p ++ q).Leads c c'' := by
  obtain ⟨hclean, hrest, hc'⟩ := hp
  obtain ⟨hclean', hrest', hc''⟩ := hq
  refine ⟨Passage.clean_append.mpr ⟨hclean, hclean'⟩, by simp [hrest, hrest'], ?_⟩
  rw [hc'', hc']
  simp [Cursor.past, Nat.add_assoc]

namespace Reader

variable {α β : Type}

theorem bind_of_ok {x : Reader α} {f : α → Reader β} {a : α} {c c' : Cursor}
    (h : x c = .ok a c') : (x >>= f) c = f a c' := by
  simp only [bind, EStateM.bind, h]

theorem bind_of_error {x : Reader α} {f : α → Reader β} {e : ReadError} {c c' : Cursor}
    (h : x c = .error e c') : (x >>= f) c = .error e c' := by
  simp only [bind, EStateM.bind, h]

theorem bind_eq_ok {x : Reader α} {f : α → Reader β} {b : β} {c c'' : Cursor}
    (h : (x >>= f) c = .ok b c'') : ∃ a c', x c = .ok a c' ∧ f a c' = .ok b c'' := by
  cases hx : x c with
  | ok a c' => exact ⟨a, c', rfl, by rw [← h, bind_of_ok hx]⟩
  | error e c' => rw [bind_of_error hx] at h; cases h

/-- In front of a passage the reader gives the value and stands behind it, or raises its first error. -/
def Follows (x : Reader α) (p : Passage) (a : α) : Prop :=
  ∀ c rest, c.rest = p.bytes ++ rest →
    match p.fault? c.offset with
    | none => x c = .ok a (c.past p rest)
    | some error => ∃ c', x c = .error error c'

/-- Whatever the reader accepts is spelled as its value is. -/
def Strict (x : Reader α) (spell : α → Passage) : Prop :=
  ∀ {c a c'}, x c = .ok a c' → (spell a).Leads c c'

theorem follows_pure (a : α) : Follows (pure a) [] a := by
  intro c rest hc
  change c.rest = rest at hc
  subst hc
  rfl

theorem Follows.bind {x : Reader α} {f : α → Reader β} {p q : Passage} {a : α} {b : β}
    (hx : Follows x p a) (hf : Follows (f a) q b) : Follows (x >>= f) (p ++ q) b := by
  intro c rest hc
  have hxc := hx c (q.bytes ++ rest) (by simpa using hc)
  rw [Passage.fault?_append]
  cases hp : p.fault? c.offset with
  | some error =>
    simp only [hp] at hxc
    obtain ⟨c', h⟩ := hxc
    exact ⟨c', bind_of_error h⟩
  | none =>
    simp only [hp] at hxc
    have hfc := hf (c.past p (q.bytes ++ rest)) rest rfl
    have hpast : (c.past p (q.bytes ++ rest)).past q rest = c.past (p ++ q) rest := by
      simp [Cursor.past, Nat.add_assoc]
    simp only [Option.none_or, bind_of_ok hxc]
    rwa [hpast] at hfc

theorem Follows.map {x : Reader α} {p : Passage} {a : α} (f : α → β) (hx : Follows x p a) :
    Follows (x >>= fun a => pure (f a)) p (f a) := by
  have h := hx.bind (f := fun a => pure (f a)) (follows_pure (f a))
  rwa [List.append_nil] at h

end Reader

-- ---------------------------------------------------------------------------
-- Bytes and words
-- ---------------------------------------------------------------------------

theorem toInt64_neg_iff (w : UInt64) : w.toInt64 < 0 ↔ 2 ^ 63 ≤ w.toNat := by
  have hlt : w.toNat < 2 ^ 64 := w.toNat_lt
  have hint : w.toInt64.toInt = w.toBitVec.toInt := rfl
  have hnat : w.toBitVec.toNat = w.toNat := rfl
  have hzero : (0 : Int64).toInt = 0 := rfl
  rw [Int64.lt_iff_toInt_lt, hint, hzero, BitVec.toInt_eq_toNat_cond, hnat]
  split <;> omega

theorem countBytes_toNat (w : UInt64) : countBytes w.toNat = wordBytes w := by
  simp [countBytes]

namespace Passage

def byte (b : UInt8) : Passage := [{ bytes := [b] }]

def word (w : UInt64) : Passage := [{ bytes := wordBytes w }]

/-- A number as a word that must not be negative as a signed one. -/
def number (field : Field) (n : Nat) : Passage :=
  [{ bytes := countBytes n
     fault := if n < 2 ^ 63 then none else some (.negative field (UInt64.ofNat n).toInt64) }]

@[simp] theorem bytes_byte (b : UInt8) : (byte b).bytes = [b] := rfl

@[simp] theorem bytes_word (w : UInt64) : (word w).bytes = wordBytes w := by
  simp [word]

@[simp] theorem bytes_number (field : Field) (n : Nat) : (number field n).bytes = countBytes n := by
  simp [number]

@[simp] theorem clean_byte (b : UInt8) : (byte b).Clean := by
  simp [byte]

@[simp] theorem clean_word (w : UInt64) : (word w).Clean := by
  simp [word]

@[simp] theorem clean_number {field : Field} {n : Nat} : (number field n).Clean ↔ n < 2 ^ 63 := by
  simp [number]

end Passage

namespace Reader

theorem follows_take (field : Field) (bs : List UInt8) :
    Follows (take field bs.length) [{ bytes := bs }] bs := by
  intro c rest hc
  simp only [Passage.bytes_cons, Passage.bytes_nil, List.append_nil] at hc
  simp [Passage.fault?, take, hc, Cursor.past]

theorem strict_take {field : Field} {n : Nat} {c c' : Cursor} {bs : List UInt8}
    (h : take field n c = .ok bs c') : Passage.Leads [{ bytes := bs }] c c' ∧ bs.length = n := by
  simp only [take] at h
  split at h
  · cases h
  · rename_i hlen
    cases h
    have hn : n ≤ c.rest.length := by simpa using hlen
    refine ⟨⟨by simp, by simp, ?_⟩, by simpa using hn⟩
    simp [Cursor.past, Nat.min_eq_left hn]

theorem follows_byte (field : Field) (b : UInt8) : Follows (byte field) (.byte b) b := by
  intro c rest hc
  have hcons : c.rest = b :: rest := hc
  simp [Passage.byte, Passage.fault?, byte, hcons, Cursor.past]

theorem strict_byte (field : Field) : Strict (byte field) .byte := by
  intro c b c' h
  simp only [byte] at h
  split at h
  · cases h
  · rename_i b' bs hrest
    cases h
    refine ⟨Passage.clean_byte _, by simp [hrest], ?_⟩
    simp [Passage.byte, Cursor.past]

theorem follows_word (field : Field) (w : UInt64) : Follows (word field) (.word w) w := by
  have h := (follows_take field (wordBytes w)).map wordOfBytes
  rwa [length_wordBytes, wordOfBytes_wordBytes] at h

theorem strict_word (field : Field) : Strict (word field) .word := by
  intro c w c' h
  obtain ⟨bs, c₁, htake, hpure⟩ := bind_eq_ok h
  cases hpure
  obtain ⟨hleads, hlen⟩ := strict_take htake
  rwa [Passage.word, wordBytes_wordOfBytes hlen]

theorem follows_natural (field : Field) (w : UInt64) :
    Follows (natural field) (.number field w.toNat) w := by
  intro c rest hc
  have hword := follows_word field w c rest (by simpa [countBytes_toNat] using hc)
  simp only [Passage.word, Passage.fault?] at hword
  -- The sign is looked at with the whole word already taken.
  have hrun : natural field c =
      if w.toInt64 < 0 then .error (.negative field w.toInt64 c.offset) (c.past (.word w) rest)
      else .ok w (c.past (.word w) rest) := by
    change (word field >>= _) c = _
    rw [bind_of_ok hword]
    split <;> rfl
  by_cases hw : w.toNat < 2 ^ 63
  · have hneg : ¬ w.toInt64 < 0 := by rw [toInt64_neg_iff]; omega
    simp only [Passage.number, if_pos hw, Passage.fault?, hrun, if_neg hneg]
    simp [Cursor.past, Passage.word, countBytes_toNat]
  · have hneg : w.toInt64 < 0 := by rw [toInt64_neg_iff]; omega
    simp only [Passage.number, if_neg hw, Passage.fault?, hrun, if_pos hneg]
    exact ⟨c.past (.word w) rest, by simp⟩

theorem strict_natural (field : Field) :
    Strict (natural field) fun w => .number field w.toNat := by
  intro c w c' h
  obtain ⟨start, c₀, hget, h⟩ := bind_eq_ok h
  cases hget
  obtain ⟨v, c₁, hword, h⟩ := bind_eq_ok h
  split at h
  · cases h
  · rename_i hneg
    cases h
    have hlt : w.toNat < 2 ^ 63 := by rw [toInt64_neg_iff] at hneg; omega
    simp only [Passage.number, if_pos hlt, countBytes_toNat]
    exact strict_word field hword

theorem follows_count (field : Field) {n : Nat} (hn : n < 2 ^ 64) :
    Follows (natural field) (.number field n) (UInt64.ofNat n) := by
  have h := follows_natural field (UInt64.ofNat n)
  rwa [UInt64.toNat_ofNat_of_lt' hn] at h

end Reader

-- ---------------------------------------------------------------------------
-- Texts and lists
-- ---------------------------------------------------------------------------

/-- The bytes that a text takes. -/
def textLength (s : String) : Nat := (Text.utf8 s).length

/-- The number of texts, and the bytes that each of them takes. -/
def textsLengths (items : List String) : List Nat := items.length :: items.map textLength

namespace Passage

def blob (field : Field) (bytes : List UInt8) : Passage :=
  number field bytes.length ++ [{ bytes := bytes }]

def text (field : Field) (s : String) : Passage := blob field (Text.utf8 s)

/-- Items after their number. -/
def counted {α : Type} (field : Field) (item : α → Passage) (items : List α) : Passage :=
  number field items.length ++ items.flatMap item

section Items

variable {α : Type} {field : Field} {item : α → Passage} {items : List α}

theorem bytes_flatMap : Passage.bytes (items.flatMap item) = items.flatMap fun a => (item a).bytes := by
  induction items with
  | nil => rfl
  | cons a rest ih => simp only [List.flatMap_cons, bytes_append, ih]

theorem clean_flatMap : Passage.Clean (items.flatMap item) ↔ ∀ a ∈ items, (item a).Clean := by
  induction items with
  | nil => simp
  | cons a rest ih => simp only [List.flatMap_cons, clean_append, ih, List.forall_mem_cons]

@[simp] theorem bytes_counted :
    (counted field item items).bytes =
      countBytes items.length ++ items.flatMap fun a => (item a).bytes := by
  simp [counted, bytes_flatMap]

@[simp] theorem clean_counted :
    (counted field item items).Clean ↔ items.length < 2 ^ 63 ∧ ∀ a ∈ items, (item a).Clean := by
  rw [counted, clean_append, clean_number, clean_flatMap]

end Items

@[simp] theorem bytes_blob (field : Field) (bs : List UInt8) :
    (blob field bs).bytes = blobBytes bs := by
  simp [blob, blobBytes]

@[simp] theorem clean_blob {field : Field} {bs : List UInt8} :
    (blob field bs).Clean ↔ bs.length < 2 ^ 63 := by
  simp [blob]

@[simp] theorem bytes_text (field : Field) (s : String) : (text field s).bytes = textBytes s := by
  simp [text, textBytes]

@[simp] theorem clean_text {field : Field} {s : String} :
    (text field s).Clean ↔ textLength s < 2 ^ 63 :=
  clean_blob

theorem clean_texts {field : Field} {items : List String} :
    (counted field (text field) items).Clean ↔ ∀ n ∈ textsLengths items, n < 2 ^ 63 := by
  simp [textsLengths]

end Passage

namespace Reader

variable {α : Type}

theorem follows_blob (field : Field) {bs : List UInt8} (hbs : bs.length < 2 ^ 64) :
    Follows (blob field) (.blob field bs) bs := by
  refine (follows_count field hbs).bind ?_
  rw [UInt64.toNat_ofNat_of_lt' hbs]
  exact follows_take field bs

theorem strict_blob (field : Field) : Strict (blob field) (.blob field) := by
  intro c bs c' h
  obtain ⟨w, c₁, hcount, htake⟩ := bind_eq_ok h
  obtain ⟨hleads, hlen⟩ := strict_take htake
  rw [Passage.blob, hlen]
  exact (strict_natural field hcount).append hleads

theorem follows_text (field : Field) {s : String} (hs : textLength s < 2 ^ 64) :
    Follows (text field) (.text field s) s := by
  rw [Passage.text, ← List.append_nil (Passage.blob _ _)]
  refine (follows_blob field hs).bind ?_
  simp only [Text.ofUtf8?_utf8]
  exact follows_pure s

theorem strict_text (field : Field) : Strict (text field) (.text field) := by
  intro c s c' h
  obtain ⟨bs, c₁, hblob, h⟩ := bind_eq_ok h
  cases hs : Text.ofUtf8? bs with
  | none => rw [hs] at h; cases h
  | some s' =>
    rw [hs] at h
    cases h
    rw [Passage.text, ← Text.ofUtf8?_eq_some_iff.mp hs]
    exact strict_blob field hblob

theorem follows_many {item : Reader α} {spell : α → Passage} {as : List α}
    (h : ∀ a ∈ as, Follows item (spell a) a) :
    Follows (many item as.length) (as.flatMap spell) as := by
  induction as with
  | nil => exact follows_pure []
  | cons a as ih =>
    have hhead := h a List.mem_cons_self
    have htail := ih fun b hb => h b (List.mem_cons_of_mem a hb)
    exact hhead.bind (htail.map (a :: ·))

theorem strict_many {item : Reader α} {spell : α → Passage} (hitem : Strict item spell) {n : Nat}
    {c c' : Cursor} {as : List α} (h : many item n c = .ok as c') :
    Passage.Leads (as.flatMap spell) c c' ∧ as.length = n := by
  induction n generalizing c as with
  | zero =>
    cases h
    exact ⟨Passage.leads_nil _, rfl⟩
  | succ n ih =>
    obtain ⟨a, c₁, hhead, h⟩ := bind_eq_ok h
    obtain ⟨rest, c₂, htail, hpure⟩ := bind_eq_ok h
    cases hpure
    obtain ⟨hleads, hlen⟩ := ih htail
    exact ⟨(hitem hhead).append hleads, by simp [hlen]⟩

theorem follows_counted (field : Field) {item : Reader α} {spell : α → Passage} {as : List α}
    (hlen : as.length < 2 ^ 64) (h : ∀ a ∈ as, Follows item (spell a) a) :
    Follows (counted field item) (.counted field spell as) as := by
  refine (follows_count field hlen).bind ?_
  rw [UInt64.toNat_ofNat_of_lt' hlen]
  exact follows_many h

theorem strict_counted (field : Field) {item : Reader α} {spell : α → Passage}
    (hitem : Strict item spell) : Strict (counted field item) (.counted field spell) := by
  intro c as c' h
  obtain ⟨w, c₁, hcount, hmany⟩ := bind_eq_ok h
  obtain ⟨hleads, hlen⟩ := strict_many hitem hmany
  rw [Passage.counted, hlen]
  exact (strict_natural field hcount).append hleads

theorem follows_texts (field : Field) {items : List String}
    (h : ∀ n ∈ textsLengths items, n < 2 ^ 64) :
    Follows (texts field) (.counted field (.text field) items) items := by
  refine follows_counted field (h _ (by simp [textsLengths])) fun s hs => follows_text field ?_
  exact h _ (List.mem_cons_of_mem _ (List.mem_map_of_mem hs))

theorem strict_texts (field : Field) :
    Strict (texts field) (.counted field (.text field)) :=
  strict_counted field (strict_text field)

theorem follows_naturals (field : Field) {items : List UInt64} (h : items.length < 2 ^ 64) :
    Follows (naturals field) (.counted field (fun w => .number field w.toNat) items) items :=
  follows_counted field h fun w _ => follows_natural field w

theorem strict_naturals (field : Field) :
    Strict (naturals field) (.counted field fun w => .number field w.toNat) :=
  strict_counted field (strict_natural field)

end Reader

end Bytecode.Wire
