-- SUMMARY: What readers note on the way, wherever they stop: the constants of the longest readable start of a buffer.
import Bytecode.Proofs.Wire.Passage

/-!
# Notes of readers

A reader notes integer constants, and they remain known when it fails. `Noted` says which they are
without a reader: a buffer starts with parts of passages, and the constants are those of the part that
goes furthest. `Reader.Tracks` says that a reader notes these, `Reader.Quiet` that it notes none. Like
the other relations between readers and passages they are composed along `bind`.
-/

namespace Bytecode.Wire

-- ---------------------------------------------------------------------------
-- Starts of passages
-- ---------------------------------------------------------------------------

/-- A buffer starts with the passage, and there is no error in it. -/
def Passage.Fits (p : Passage) (bytes : List UInt8) : Prop := p.Clean ∧ p.bytes <+: bytes

/-- The constants of those starts of passages that a buffer has, as far as any of them goes. -/
structure Noted (passages : Set Passage) (bytes : List UInt8) (ints : List Int64) : Prop where
  reached : ∃ q ∈ passages, ∃ p : Passage, p <+: q ∧ p.Fits bytes ∧ p.met = ints
  greatest : ∀ q ∈ passages, ∀ p : Passage, p <+: q → p.Fits bytes → p.met <+: ints

namespace Passage

variable {p q : Passage} {bytes : List UInt8}

theorem fits_nil (bytes : List UInt8) : Fits [] bytes := ⟨clean_nil, List.nil_prefix⟩

theorem Fits.left (h : (p ++ q).Fits bytes) : p.Fits bytes := by
  obtain ⟨hclean, hbytes⟩ := h
  rw [bytes_append] at hbytes
  exact ⟨(clean_append.mp hclean).1, (List.prefix_append _ _).trans hbytes⟩

theorem fits_append_iff : (p ++ q).Fits (p.bytes ++ bytes) ↔ p.Clean ∧ q.Fits bytes := by
  rw [Fits, Fits, clean_append, bytes_append, List.prefix_append_right_inj, and_assoc]

theorem prefix_append_cases {r : Passage} (h : p <+: q ++ r) :
    p <+: q ∨ ∃ p', p' <+: r ∧ p = q ++ p' := by
  rcases List.prefix_or_prefix_of_prefix h (List.prefix_append q r) with hshort | ⟨p', rfl⟩
  · exact .inl hshort
  · exact .inr ⟨p', (List.prefix_append_right_inj q).mp h, rfl⟩

end Passage

theorem Noted.unique {passages : Set Passage} {bytes : List UInt8} {ints ints' : List Int64}
    (h : Noted passages bytes ints) (h' : Noted passages bytes ints') : ints = ints' := by
  obtain ⟨q, hq, p, hp, hfits, rfl⟩ := h.reached
  obtain ⟨q', hq', p', hp', hfits', rfl⟩ := h'.reached
  have hle := h'.greatest q hq p hp hfits
  have hge := h.greatest q' hq' p' hp' hfits'
  exact hle.eq_of_length_le hge.length_le

/-- Passages that start with an error add nothing. -/
theorem Noted.extend {passages passages' : Set Passage} {bytes : List UInt8} {ints : List Int64}
    (h : Noted passages bytes ints) (hsub : passages ⊆ passages')
    (hfaulty : ∀ q ∈ passages', q ∉ passages → ∀ p : Passage, p <+: q → p.Clean → p.met = []) :
    Noted passages' bytes ints where
  reached := by
    obtain ⟨q, hq, hp⟩ := h.reached
    exact ⟨q, hsub hq, hp⟩
  greatest q hq p hp hfits := by
    by_cases hmem : q ∈ passages
    · exact h.greatest q hmem p hp hfits
    · rw [hfaulty q hq hmem p hp hfits.1]
      exact List.nil_prefix

-- ---------------------------------------------------------------------------
-- Readers
-- ---------------------------------------------------------------------------

namespace Reader

variable {α β : Type}

/-- Where the reader stands when it has given a value or failed. -/
def stop (x : Reader α) (c : Cursor) : Cursor :=
  match x c with
  | .ok _ c' => c'
  | .error _ c' => c'

theorem stop_of_ok {x : Reader α} {a : α} {c c' : Cursor} (h : x c = .ok a c') : x.stop c = c' := by
  rw [stop, h]

theorem stop_bind_of_ok {x : Reader α} {f : α → Reader β} {a : α} {c c' : Cursor}
    (h : x c = .ok a c') : (x >>= f).stop c = (f a).stop c' := by
  rw [stop, bind_of_ok h]
  rfl

theorem stop_bind_of_error {x : Reader α} {f : α → Reader β} {e : ReadError} {c c' : Cursor}
    (h : x c = .error e c') : (x >>= f).stop c = x.stop c := by
  rw [stop, bind_of_error h, stop, h]

/-- The reader gives a value if and only if its passage is there, without an error. -/
structure Reads (x : Reader α) (spell : α → Passage) : Prop where
  strict : Strict x spell
  follows : ∀ a, (spell a).Clean → Follows x (spell a) a

theorem Reads.exists_ok {x : Reader α} {spell : α → Passage} (hx : Reads x spell) {a : α}
    {c : Cursor} (h : (spell a).Fits c.rest) : ∃ c', x c = .ok a c' := by
  obtain ⟨hclean, rest, hrest⟩ := h
  have hfollows := hx.follows a hclean c rest hrest.symm
  rw [(Passage.fault?_eq_none_iff _).mpr hclean] at hfollows
  exact ⟨_, hfollows⟩

/-- The reader notes nothing, whether it fails or not. -/
def Quiet (x : Reader α) : Prop := ∀ c, (x.stop c).met = c.met

/-- The reader notes the constants of starts of passages, as far as these go, whether it fails or not. -/
def Tracks (x : Reader α) (passages : Set Passage) : Prop :=
  ∀ c, ∃ ints, (x.stop c).met = ints.reverse ++ c.met ∧ Noted passages c.rest ints

variable {x : Reader α} {f : α → Reader β}

theorem Tracks.extend {passages passages' : Set Passage} (h : Tracks x passages)
    (hsub : passages ⊆ passages')
    (hfaulty : ∀ q ∈ passages', q ∉ passages → ∀ p : Passage, p <+: q → p.Clean → p.met = []) :
    Tracks x passages' := by
  intro c
  obtain ⟨ints, hmet, hnoted⟩ := h c
  exact ⟨ints, hmet, hnoted.extend hsub hfaulty⟩

theorem Tracks.map {passages : Set Passage} (g : α → β) (h : Tracks x passages) :
    Tracks (x >>= fun a => pure (g a)) passages := by
  intro c
  have hstop : (x >>= fun a => pure (g a)).stop c = x.stop c := by
    cases hx : x c with
    | ok a c' =>
      rw [stop_bind_of_ok hx, stop_of_ok hx]
      rfl
    | error e c' => exact stop_bind_of_error hx
  rw [hstop]
  exact h c

theorem Tracks.nonempty {passages : Set Passage} (h : Tracks x passages) : passages.Nonempty := by
  obtain ⟨ints, -, hnoted⟩ := h { rest := [] }
  obtain ⟨q, hq, -⟩ := hnoted.reached
  exact ⟨q, hq⟩

theorem Quiet.tracks {passages : Set Passage} (h : Quiet x) (hne : passages.Nonempty)
    (hmet : ∀ q ∈ passages, q.met = []) : Tracks x passages := by
  intro c
  obtain ⟨q, hq⟩ := hne
  refine ⟨[], h c, ⟨q, hq, [], List.nil_prefix, Passage.fits_nil _, rfl⟩, ?_⟩
  rintro q hq p ⟨p', rfl⟩ -
  have hnil := hmet _ hq
  rw [Passage.met_append] at hnil
  rw [(List.append_eq_nil_iff.mp hnil).1]

/-- Passages that go on, after that of a value, with one that depends on the value. -/
def chain (spell : α → Passage) (tails : α → Set Passage) : Set Passage :=
  {p | ∃ a, ∃ q ∈ tails a, p = spell a ++ q}

/--
What a reader notes that goes on with another. For some values the passages may not go on; after
these the second reader is about to fail and notes nothing.
-/
theorem Tracks.bind {spell : α → Passage} {tails : α → Set Passage} (hx : Reads x spell)
    (htracks : Tracks x (spell '' {a | (tails a).Nonempty}))
    (hf : ∀ a, Tracks (f a) (tails a) ∨ tails a = ∅ ∧ Quiet (f a)) :
    Tracks (x >>= f) (chain spell tails) := by
  intro c
  obtain ⟨ints, hmet, hreached, hgreatest⟩ := htracks c
  -- What stops in front of the second passage has been accounted for by the first reader.
  have hshort : ∀ b, ∀ q ∈ tails b, ∀ p : Passage, p <+: spell b → p.Fits c.rest → p.met <+: ints :=
    fun b q hq p hp hfits => hgreatest _ ⟨b, ⟨q, hq⟩, rfl⟩ p hp hfits
  obtain ⟨_, ⟨a₀, ⟨q₀, hq₀⟩, rfl⟩, p₀, hp₀, hfits₀, hints⟩ := hreached
  have hp₀ : p₀ <+: spell a₀ ++ q₀ := hp₀.trans (List.prefix_append _ _)
  cases hxc : x c with
  | error e c' =>
    rw [stop_bind_of_error hxc]
    refine ⟨ints, hmet, ⟨_, ⟨a₀, q₀, hq₀, rfl⟩, p₀, hp₀, hfits₀, hints⟩, ?_⟩
    rintro _ ⟨b, q, hq, rfl⟩ p hp hfits
    rcases Passage.prefix_append_cases hp with hp | ⟨p', -, rfl⟩
    · exact hshort b q hq p hp hfits
    · obtain ⟨c'', hok⟩ := hx.exists_ok hfits.left
      cases hxc.symm.trans hok
  | ok a c' =>
    obtain ⟨hclean, hrest, hpast⟩ := hx.strict hxc
    have hstop := stop_of_ok hxc
    have hfirst : ints = (spell a).met := by
      rw [hstop, hpast] at hmet
      exact (List.reverse_injective (List.append_cancel_right hmet)).symm
    rw [stop_bind_of_ok hxc]
    rcases hf a with htail | ⟨hempty, hquiet⟩
    · obtain ⟨ints', hmet', ⟨q, hq, p, hp, hfits, hints'⟩, hgreatest'⟩ := htail c'
      refine ⟨ints ++ ints', ?_, ⟨_, ⟨a, q, hq, rfl⟩, spell a ++ p, ?_, ?_, ?_⟩, ?_⟩
      · rw [hmet', ← hstop, hmet]
        simp
      · exact (List.prefix_append_right_inj _).mpr hp
      · rw [hrest, Passage.fits_append_iff]
        exact ⟨hclean, hfits⟩
      · rw [Passage.met_append, hints', hfirst]
      · rintro _ ⟨b, q, hq, rfl⟩ p hp hfits
        rcases Passage.prefix_append_cases hp with hp | ⟨p', hp', rfl⟩
        · exact (hshort b q hq p hp hfits).trans (List.prefix_append _ _)
        · obtain ⟨c'', hok⟩ := hx.exists_ok hfits.left
          cases hxc.symm.trans hok
          rw [hrest, Passage.fits_append_iff] at hfits
          rw [Passage.met_append, hfirst, List.prefix_append_right_inj]
          exact hgreatest' q hq p' hp' hfits.2
    · refine ⟨ints, ?_, ⟨_, ⟨a₀, q₀, hq₀, rfl⟩, p₀, hp₀, hfits₀, hints⟩, ?_⟩
      · rw [hquiet c', ← hstop, hmet]
      · rintro _ ⟨b, q, hq, rfl⟩ p hp hfits
        rcases Passage.prefix_append_cases hp with hp | ⟨p', -, rfl⟩
        · exact hshort b q hq p hp hfits
        · obtain ⟨c'', hok⟩ := hx.exists_ok hfits.left
          cases hxc.symm.trans hok
          rw [hempty] at hq
          cases hq

/-- What a reader notes that goes on with another, where the passages go on in any case. -/
theorem Tracks.then {spell : α → Passage} {tails : α → Set Passage} (hx : Reads x spell)
    (htracks : Tracks x (Set.range spell)) (hf : ∀ a, Tracks (f a) (tails a)) :
    Tracks (x >>= f) (chain spell tails) := by
  have hall : {a | (tails a).Nonempty} = Set.univ := Set.eq_univ_of_forall fun a => (hf a).nonempty
  rw [← Set.image_univ, ← hall] at htracks
  exact htracks.bind hx fun a => .inl (hf a)

/-- What a reader notes that goes on behind one that notes nothing. -/
theorem Quiet.bind_tracks {spell : α → Passage} {tails : α → Set Passage} (h : Quiet x)
    (hx : Reads x spell) (hmet : ∀ a, (spell a).met = []) (hne : ∃ a, (tails a).Nonempty)
    (hf : ∀ a, Tracks (f a) (tails a) ∨ tails a = ∅ ∧ Quiet (f a)) :
    Tracks (x >>= f) (chain spell tails) := by
  refine Tracks.bind hx (h.tracks (Set.Nonempty.image spell hne) ?_) hf
  rintro _ ⟨a, -, rfl⟩
  exact hmet a

theorem Quiet.then [Inhabited α] {spell : α → Passage} {tails : α → Set Passage} (h : Quiet x)
    (hx : Reads x spell) (hmet : ∀ a, (spell a).met = []) (hf : ∀ a, Tracks (f a) (tails a)) :
    Tracks (x >>= f) (chain spell tails) :=
  h.bind_tracks hx hmet ⟨default, (hf default).nonempty⟩ fun a => .inl (hf a)

end Reader

end Bytecode.Wire
