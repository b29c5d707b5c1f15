-- SUMMARY: Loading a buffer in a single pass does what reading it first and turning to the machine afterwards does.
import Bytecode.Proofs.Wire.RecordNoting
import Bytecode.Wire.OnePass

/-!
# One pass or two

A loader of the single pass is in step with the reader of the same item: both fail at the same place
for the same reason, or both go on from the same place. Wherever they stop, the machine has made the
constants that the reader has noted. What a loader gives is what becomes of the item that its reader
gives when its constants are replaced afterwards, and so both ways to load a buffer are the same.
-/

namespace Bytecode

namespace Wire

variable {σ α β γ δ ρ τ υ : Type} (host : Host σ) (s : σ)

theorem Progress.cursor_movedTo (p : Progress σ) (c : Cursor) : (p.movedTo c).cursor = c := rfl

/-- The machine, first in the state `s`, has made the constants that have been noted, and no others. -/
def Progress.CaughtUp (p : Progress σ) : Prop :=
  p.machine = ((p.cursor.met.reverse.mapM host.wrapInt).run s).2

/-- A loader that started at the progress `p` stands where its reader stands. -/
structure Progress.Abreast (p : Progress σ) (c : Cursor) (q : Progress σ) : Prop where
  cursor : q.cursor = c
  depth : q.depth = p.depth
  caughtUp : q.CaughtUp host s

/-- Moving on without a note keeps a loader abreast. -/
theorem Progress.CaughtUp.abreast {host : Host σ} {s : σ} {p : Progress σ} {c : Cursor}
    (hp : p.CaughtUp host s) (hmet : c.met = p.cursor.met) :
    p.Abreast host s c (p.movedTo c) where
  cursor := rfl
  depth := rfl
  caughtUp := by
    rw [Progress.CaughtUp, Progress.cursor_movedTo, hmet]
    exact hp

namespace Loader

theorem bind_of_ok {x : Loader σ α} {k : α → Loader σ γ} {a : α} {p q : Progress σ}
    (h : x p = .ok a q) : (x >>= k) p = k a q := by
  simp only [bind, EStateM.bind, h]

theorem bind_of_error {x : Loader σ α} {k : α → Loader σ γ} {e : ReadError} {p q : Progress σ}
    (h : x p = .error e q) : (x >>= k) p = .error e q := by
  simp only [bind, EStateM.bind, h]

/--
From a progress, the loader fails as the reader does, or gives something with the given relation to
what the reader gives.
-/
def InStep (x : Loader σ α) (y : Reader β) (p : Progress σ) (post : β → α → Progress σ → Prop) :
    Prop :=
  p.CaughtUp host s →
    match y p.cursor with
    | .ok b c => ∃ a q, x p = .ok a q ∧ p.Abreast host s c q ∧ post b a q
    | .error e c => ∃ q, x p = .error e q ∧ p.Abreast host s c q

section Laws

variable {host s} {x : Loader σ α} {y : Reader β} {p : Progress σ} {post : β → α → Progress σ → Prop}

theorem inStep_pure {a : α} {b : β} (h : post b a p) :
    InStep host s (pure a : Loader σ α) (pure b) p post :=
  fun hp => ⟨a, p, rfl, ⟨rfl, rfl, hp⟩, h⟩

theorem inStep_throw (e : ReadError) : InStep host s (throw e : Loader σ α) (throw e) p post :=
  fun hp => ⟨p, rfl, rfl, rfl, hp⟩

theorem InStep.mono {post' : β → α → Progress σ → Prop} (h : InStep host s x y p post)
    (hpost : ∀ b a q, post b a q → post' b a q) : InStep host s x y p post' := by
  intro hp
  have hx := h hp
  cases hy : y p.cursor with
  | error e c => simpa only [hy] using hx
  | ok b c =>
    simp only [hy] at hx ⊢
    obtain ⟨a, q, hrun, hq, hab⟩ := hx
    exact ⟨a, q, hrun, hq, hpost b a q hab⟩

theorem InStep.bind {k : α → Loader σ γ} {l : β → Reader δ} {post' : δ → γ → Progress σ → Prop}
    (hx : InStep host s x y p post)
    (hk : ∀ b a q, q.depth = p.depth → post b a q → InStep host s (k a) (l b) q post') :
    InStep host s (x >>= k) (y >>= l) p post' := by
  intro hp
  have hfirst := hx hp
  cases hy : y p.cursor with
  | error e c =>
    simp only [hy] at hfirst
    obtain ⟨q, hrun, hq⟩ := hfirst
    simp only [Reader.bind_of_error hy]
    exact ⟨q, bind_of_error hrun, hq⟩
  | ok b c =>
    simp only [hy] at hfirst
    obtain ⟨a, q, hrun, ⟨rfl, hdepth, hq⟩, hab⟩ := hfirst
    have hnext := hk b a q hdepth hab hq
    rw [Reader.bind_of_ok hy, bind_of_ok hrun]
    cases hl : l b q.cursor with
    | error e c =>
      simp only [hl] at hnext ⊢
      obtain ⟨r, hrun', hcursor', hdepth', hr⟩ := hnext
      exact ⟨r, hrun', hcursor', hdepth'.trans hdepth, hr⟩
    | ok d c =>
      simp only [hl] at hnext ⊢
      obtain ⟨e, r, hrun', ⟨hcursor', hdepth', hr⟩, hde⟩ := hnext
      exact ⟨e, r, hrun', ⟨hcursor', hdepth'.trans hdepth, hr⟩, hde⟩

theorem inStep_get_bind {k : Progress σ → Loader σ γ} {l : Cursor → Reader δ}
    {post : δ → γ → Progress σ → Prop} (h : InStep host s (k p) (l p.cursor) p post) :
    InStep host s (get >>= k) (get >>= l) p post := h

/-- An item that the machine has no part in, with what goes on behind it. -/
theorem inStep_read_bind {y : Reader β} {k : β → Loader σ γ} {l : β → Reader δ}
    {post : δ → γ → Progress σ → Prop} (hy : y.Quiet)
    (hk : ∀ b c, InStep host s (k b) (l b) (p.movedTo c) post) :
    InStep host s (read y >>= k) (y >>= l) p post := by
  have hread : InStep host s (read y) y p fun b a q => a = b ∧ ∃ c, q = p.movedTo c := by
    intro hp
    have hkept := hp.abreast (hy p.cursor)
    unfold read
    cases hrun : y p.cursor with
    | error e c =>
      rw [Reader.stop, hrun] at hkept
      exact ⟨_, rfl, hkept⟩
    | ok a c =>
      rw [Reader.stop, hrun] at hkept
      exact ⟨a, _, rfl, hkept, rfl, c, rfl⟩
  refine hread.bind ?_
  rintro _ a _ - ⟨rfl, c, rfl⟩
  exact hk a c

theorem inStep_nested (hdepth : p.depth < maxNesting)
    (h : InStep host s x y { p with depth := p.depth + 1 } fun b a q =>
      post b a { q with depth := q.depth - 1 }) : InStep host s (nested x) y p post := by
  intro hp
  have hx := h hp
  simp only [nested, if_neg (Nat.not_le.mpr hdepth)]
  cases hy : y p.cursor with
  | error e c =>
    simp only [hy] at hx ⊢
    obtain ⟨q, hrun, hcursor, hdeeper, hq⟩ := hx
    exact ⟨{ q with depth := q.depth - 1 }, by rw [hrun], hcursor, by simp [hdeeper], hq⟩
  | ok b c =>
    simp only [hy] at hx ⊢
    obtain ⟨a, q, hrun, ⟨hcursor, hdeeper, hq⟩, hab⟩ := hx
    exact ⟨a, { q with depth := q.depth - 1 }, by rw [hrun], ⟨hcursor, by simp [hdeeper], hq⟩, hab⟩

/-- Items one after the other, where what holds of each amounts to something that holds of the list. -/
theorem inStep_many {d : Nat} {one : β → α → Progress σ → Progress σ → Prop}
    {all : List β → List α → Progress σ → Progress σ → Prop} (hnil : ∀ p, all [] [] p p)
    (hcons : ∀ {b a bs as p q r}, one b a p q → all bs as q r → all (b :: bs) (a :: as) p r)
    (hitem : ∀ p, p.depth = d → InStep host s x y p fun b a => one b a p) (n : Nat)
    (hp : p.depth = d) : InStep host s (many x n) (y.many n) p fun bs as => all bs as p := by
  induction n generalizing p with
  | zero => exact inStep_pure (hnil p)
  | succ n ih =>
    refine (hitem p hp).bind fun b a q hq hone => ?_
    refine (ih (hq.trans hp)).bind fun bs as r _ hall => ?_
    exact inStep_pure (hcons hone hall)

end Laws

-- ---------------------------------------------------------------------------
-- What becomes of an item
-- ---------------------------------------------------------------------------

/--
From `p` to `q`, a loader has given and left what becomes of an item when its constants are replaced:
the computation `z` has a result that stands for the value and has the classes in it.
-/
structure Settles (z : StateM σ ρ) (value : ρ → α) (classes : ρ → List Class) (a : α)
    (p q : Progress σ) : Prop where
  value_eq : a = value (z.run p.machine).1
  classes_eq : q.classes = p.classes ++ classes (z.run p.machine).1
  machine_eq : q.machine = (z.run p.machine).2

section Settles

variable {p q r : Progress σ} {z : StateM σ ρ} {value : ρ → α} {classes : ρ → List Class} {a : α}

theorem settles_pure {x : ρ} (ha : a = value x) (hclasses : classes x = []) :
    Settles (pure x) value classes a p p := by
  refine ⟨ha, ?_, rfl⟩
  change p.classes = p.classes ++ classes x
  rw [hclasses, List.append_nil]

theorem Settles.map {g : ρ → τ} {value' : τ → β} {classes' : τ → List Class} {b : β}
    (h : Settles z value classes a p q) (hvalue : ∀ x, a = value x → b = value' (g x))
    (hclasses : ∀ x, classes' (g x) = classes x) :
    Settles (z >>= fun x => pure (g x)) value' classes' b p q :=
  ⟨hvalue _ h.value_eq, h.classes_eq.trans (congrArg _ (hclasses _).symm), h.machine_eq⟩

theorem Settles.map₂ {w : StateM σ τ} {g : ρ → τ → υ} {value₂ : τ → β} {classes₂ : τ → List Class}
    {value₃ : υ → γ} {classes₃ : υ → List Class} {b : β} {d : γ}
    (hz : Settles z value classes a p q) (hw : Settles w value₂ classes₂ b q r)
    (hvalue : ∀ x y, a = value x → b = value₂ y → d = value₃ (g x y))
    (hclasses : ∀ x y, classes₃ (g x y) = classes x ++ classes₂ y) :
    Settles (z >>= fun x => w >>= fun y => pure (g x y)) value₃ classes₃ d p r := by
  obtain ⟨ha, hq, hmachine⟩ := hz
  obtain ⟨hb, hr, hmachine'⟩ := hw
  rw [hmachine] at hb hr hmachine'
  refine ⟨hvalue _ _ ha hb, ?_, hmachine'⟩
  rw [hr, hq, List.append_assoc, ← hclasses]
  rfl

theorem Settles.of_movedTo {c : Cursor} (h : Settles z value classes a (p.movedTo c) q) :
    Settles z value classes a p q :=
  ⟨h.value_eq, h.classes_eq, h.machine_eq⟩

theorem Settles.movedTo {c : Cursor} (h : Settles z value classes a p q) :
    Settles z value classes a p (q.movedTo c) :=
  ⟨h.value_eq, h.classes_eq, h.machine_eq⟩

end Settles

/-- The values of constants. -/
abbrev SettlesConsts (ns : List Int64) : List Value → Progress σ → Progress σ → Prop :=
  Settles (ns.mapM host.wrapInt) id fun _ => []

/-- A block in use, with the classes inside. -/
abbrev SettlesBlock (owner : Option String) (r : Record Int64) :
    Block → Progress σ → Progress σ → Prop :=
  Settles (r.traverse host.wrapInt) (Record.block owner) Record.classes

abbrev SettlesFunction (owner : Option String) (r : Routine Int64) :
    Function → Progress σ → Progress σ → Prop :=
  Settles (r.traverse host.wrapInt) (Routine.function owner) Routine.classes

abbrev SettlesMethods (owner : String) (members : List (Member Int64)) :
    List (String × Method) → Progress σ → Progress σ → Prop :=
  Settles (Member.traverseAll host.wrapInt members) (Member.methods owner) Member.classes

abbrev SettlesDecls (entries : List (Entry Int64)) : List Decl → Progress σ → Progress σ → Prop :=
  Settles (Entry.traverseAll host.wrapInt entries) Entry.decls Entry.classes

/-- A declaration in use; a class is complete behind those inside. -/
def SettlesDecl : Entry Int64 → Decl → Progress σ → Progress σ → Prop
  | .function r =>
    Settles (r.traverse host.wrapInt) (fun r => Decl.function (r.function none)) Routine.classes
  | .class name members =>
    Settles (Member.traverseAll host.wrapInt members) (fun ms => .class (Member.class name ms))
      fun ms => Member.classes ms ++ [Member.class name ms]

section Cons

variable {host} {p q r : Progress σ}

theorem settlesConsts_nil (p : Progress σ) : SettlesConsts host [] [] p p := settles_pure rfl rfl

theorem settlesMethods_nil (owner : String) (p : Progress σ) : SettlesMethods host owner [] [] p p :=
  settles_pure rfl rfl

theorem settlesDecls_nil (p : Progress σ) : SettlesDecls host [] [] p p := settles_pure rfl rfl

theorem settlesConsts_cons {n : Int64} {ns : List Int64} {v : Value} {vs : List Value}
    (hn : Settles (host.wrapInt n) id (fun _ => []) v p q) (hns : SettlesConsts host ns vs q r) :
    SettlesConsts host (n :: ns) (v :: vs) p r := by
  rw [SettlesConsts, List.mapM_cons]
  refine hn.map₂ hns (fun _ _ hv hvs => ?_) fun _ _ => rfl
  rw [hv, hvs]
  rfl

theorem settlesMethods_cons {owner : String} {m : Member Int64} {ms : List (Member Int64)}
    {f : Function} {methods : List (String × Method)}
    (hm : SettlesFunction host (some owner) m.routine f p q)
    (hms : SettlesMethods host owner ms methods q r) :
    SettlesMethods host owner (m :: ms) ((m.name, ⟨m.flags, f⟩) :: methods) p r := by
  obtain ⟨name, flags, routine⟩ := m
  refine hm.map₂ hms (fun _ _ hf hmethods => ?_) fun _ _ => rfl
  rw [hf, hmethods]
  rfl

theorem settlesDecls_cons {e : Entry Int64} {es : List (Entry Int64)} {d : Decl} {ds : List Decl}
    (he : SettlesDecl host e d p q) (hes : SettlesDecls host es ds q r) :
    SettlesDecls host (e :: es) (d :: ds) p r := by
  cases e with
  | function f =>
    refine he.map₂ hes (fun _ _ hd hds => ?_) fun _ _ => rfl
    rw [hd, hds]
    rfl
  | «class» name members =>
    refine he.map₂ hes (fun _ _ hd hds => ?_) fun _ _ => (List.append_cons ..)
    rw [hd, hds]
    rfl

theorem settlesBlock_mk {owner : Option String} {chunk : Chunk Int64} {entries : List (Entry Int64)}
    {vs : List Value} {ds : List Decl} (hconsts : SettlesConsts host chunk.consts vs p q)
    (hdecls : SettlesDecls host entries ds q r) :
    SettlesBlock host owner ⟨chunk, entries⟩
      { chunk := chunk.withConsts vs, owner, decls := ds } p r := by
  refine hconsts.map₂ hdecls (fun _ _ hvs hds => ?_) fun _ _ => rfl
  rw [hvs, hds]
  rfl

end Cons

-- ---------------------------------------------------------------------------
-- The loaders
-- ---------------------------------------------------------------------------

section Loaders

variable {host s} {p : Progress σ}

/-- A constant is noted if and only if it can be read. -/
theorem met_constant (c : Cursor) :
    match Reader.constant c with
    | .ok n c' => c'.met = n :: c.met
    | .error _ c' => c'.met = c.met := by
  cases hrun : Reader.constant c with
  | ok n c' =>
    obtain ⟨-, -, hpast⟩ := Reader.strict_constant hrun
    rw [hpast]
    rfl
  | error e c' =>
    have htag := Reader.quiet_items.byte .constantTag c
    unfold Reader.constant at hrun
    cases hbyte : Reader.byte .constantTag c with
    | error e' c₁ =>
      rw [Reader.bind_of_error hbyte] at hrun
      cases hrun
      rwa [Reader.stop, hbyte] at htag
    | ok tag c₁ =>
      rw [Reader.stop_of_ok hbyte] at htag
      rw [Reader.bind_of_ok hbyte] at hrun
      split at hrun
      · have hword := Reader.quiet_items.word .integerConstant c₁
        cases hw : Reader.word .integerConstant c₁ with
        | error e' c₂ =>
          rw [Reader.bind_of_error hw] at hrun
          cases hrun
          rw [Reader.stop, hw] at hword
          exact hword.trans htag
        | ok w c₂ =>
          rw [Reader.bind_of_ok hw] at hrun
          cases hrun
      · cases hrun
        exact htag

theorem inStep_constant (p : Progress σ) :
    InStep host s (constant host) Reader.constant p fun n v =>
      Settles (host.wrapInt n) id (fun _ => []) v p := by
  intro hp
  have hmet := met_constant p.cursor
  cases hrun : Reader.constant p.cursor with
  | error e c =>
    simp only [hrun] at hmet ⊢
    have hread : read Reader.constant p = .error e (p.movedTo c) := by rw [read, hrun]
    exact ⟨p.movedTo c, bind_of_error hread, hp.abreast hmet⟩
  | ok n c =>
    simp only [hrun] at hmet ⊢
    let q : Progress σ := { p with cursor := c, machine := ((host.wrapInt n).run p.machine).2 }
    have hread : read Reader.constant p = .ok n (p.movedTo c) := by rw [read, hrun]
    refine ⟨((host.wrapInt n).run p.machine).1, q, bind_of_ok hread, ⟨rfl, rfl, ?_⟩, rfl, ?_, rfl⟩
    · rw [Progress.CaughtUp, hmet, List.reverse_cons, List.mapM_append, List.mapM_cons]
      exact congrArg (fun s' => ((host.wrapInt n).run s').2) hp
    · rw [List.append_nil]

/-- Items after their number. -/
theorem inStep_counted {d : Nat} {x : Loader σ α} {y : Reader β}
    {z : List β → StateM σ ρ} {value : ρ → List α} {classes : ρ → List Class}
    {one : β → α → Progress σ → Progress σ → Prop} (field : Field)
    (hnil : ∀ p, Settles (z []) value classes [] p p)
    (hcons : ∀ {b a bs as p q r}, one b a p q → Settles (z bs) value classes as q r →
      Settles (z (b :: bs)) value classes (a :: as) p r)
    (hitem : ∀ p, p.depth = d → InStep host s x y p fun b a => one b a p) (hp : p.depth = d) :
    InStep host s (counted field x) (y.counted field) p fun bs as =>
      Settles (z bs) value classes as p := by
  refine inStep_read_bind (Reader.quiet_items.natural field) fun count c => ?_
  have hmany : InStep host s (many x count.toNat) (y.many count.toNat) (p.movedTo c)
      fun bs as => Settles (z bs) value classes as (p.movedTo c) :=
    inStep_many hnil hcons hitem count.toNat hp
  exact hmany.mono fun _ _ _ h => h.of_movedTo

section Nested

variable {d : Nat} {block : Option String → Loader σ Block} {rblock : Reader (Record Int64)}

section

variable (hblock : ∀ owner (p : Progress σ), p.depth = d →
  InStep host s (block owner) rblock p fun r b => SettlesBlock host owner r b p)

include hblock

theorem inStep_function (owner : Option String) (hp : p.depth = d) :
    InStep host s (function block owner) (Reader.routine rblock) p fun r f =>
      SettlesFunction host owner r f p := by
  refine (hblock owner p hp).bind fun body b q _ hb => ?_
  refine inStep_read_bind Reader.quiet_items.params fun params c => ?_
  refine inStep_pure (Settles.movedTo (hb.map (fun body hb => ?_) fun _ => rfl))
  rw [hb]
  rfl

theorem inStep_method (owner : String) (hp : p.depth = d) :
    InStep host s (method block owner) (Reader.member rblock) p fun m method q =>
      ∃ f, method = (m.name, ⟨m.flags, f⟩) ∧ SettlesFunction host (some owner) m.routine f p q := by
  refine inStep_read_bind (Reader.quiet_items.text .methodName) fun name c => ?_
  refine inStep_read_bind (Reader.quiet_items.word .accessFlags) fun flags c' => ?_
  refine (inStep_function hblock (some owner) (p := p.movedTo c') hp).bind ?_
  exact fun r f q _ hf => inStep_pure ⟨f, rfl, hf.of_movedTo.of_movedTo⟩

theorem inStep_methods (owner : String) (hp : p.depth = d) :
    InStep host s (counted .methodCount (method block owner))
      (Reader.counted .methodCount (Reader.member rblock)) p fun members methods =>
        SettlesMethods host owner members methods p := by
  refine inStep_counted .methodCount (settlesMethods_nil owner) ?_
    (fun _ => inStep_method hblock owner) hp
  rintro m _ ms methods p q r ⟨f, rfl, hf⟩ hms
  exact settlesMethods_cons hf hms

theorem inStep_decl (hp : p.depth = d) :
    InStep host s (decl block) (Reader.entry rblock) p fun e decl => SettlesDecl host e decl p := by
  refine inStep_read_bind (Reader.quiet_items.byte .declarationTag) fun tag c => ?_
  split
  · refine (inStep_function hblock none (p := p.movedTo c) hp).bind fun r f q _ hf => ?_
    exact inStep_pure ⟨congrArg Decl.function hf.value_eq, hf.classes_eq, hf.machine_eq⟩
  · split
    · refine inStep_read_bind (Reader.quiet_items.text .className) fun name c' => ?_
      refine (inStep_methods hblock name (p := p.movedTo c') hp).bind ?_
      intro members methods q _ hmethods hq
      have hmethods := hmethods.of_movedTo.of_movedTo
      -- The class is noted as complete here, where the reader has nothing to do.
      let c : Class := Class.ofMethods { name } methods
      refine ⟨.class c, { q with classes := q.classes ++ [c] }, rfl, ⟨rfl, rfl, hq⟩, ?_⟩
      have hclass : c = Member.class name _ := congrArg (Class.ofMethods { name }) hmethods.value_eq
      refine ⟨congrArg Decl.class hclass, ?_, hmethods.machine_eq⟩
      change q.classes ++ [c] = _
      rw [hclass, hmethods.classes_eq, List.append_assoc]
    · exact inStep_throw _

theorem inStep_fields (owner : Option String) (hp : p.depth = d) :
    InStep host s (fields host block owner) (Reader.fields rblock) p fun r b =>
      SettlesBlock host owner r b p := by
  have hconsts : ∀ p : Progress σ, InStep host s (counted .constantCount (constant host))
      (Reader.counted .constantCount Reader.constant) p fun ns vs => SettlesConsts host ns vs p :=
    fun p => inStep_counted .constantCount settlesConsts_nil settlesConsts_cons
      (fun p _ => inStep_constant p) rfl
  have hdecls : ∀ p : Progress σ, p.depth = d → InStep host s (counted .declarationCount (decl block))
      (Reader.counted .declarationCount (Reader.entry rblock)) p fun es ds =>
        SettlesDecls host es ds p :=
    fun p => inStep_counted .declarationCount settlesDecls_nil settlesDecls_cons
      fun p hp => inStep_decl hblock hp
  have quiet := Reader.quiet_items
  refine inStep_read_bind (quiet.blob .code) fun code c₁ => ?_
  refine (hconsts _).bind fun consts values q hq hvalues => ?_
  refine inStep_read_bind (quiet.text .blockName) fun name c₂ => ?_
  refine inStep_read_bind (quiet.text .filename) fun filename c₃ => ?_
  refine inStep_read_bind (quiet.natural .startLine) fun startLine c₄ => ?_
  refine inStep_read_bind (quiet.texts .sourceLine) fun sourceLines c₅ => ?_
  refine inStep_read_bind (quiet.texts .name) fun names c₆ => ?_
  refine inStep_read_bind (quiet.texts .variableName) fun varnames c₇ => ?_
  refine inStep_read_bind (quiet.naturals .superglobalSlot) fun superglobals c₈ => ?_
  refine inStep_read_bind quiet.thisSlot fun thisSlot c₉ => ?_
  refine InStep.bind (hdecls _ (hq.trans hp)) fun entries decls r _ hentries => ?_
  refine inStep_read_bind (quiet.naturals .lineMapping) fun lineMap c₁₀ => ?_
  simp only [Block.build?]
  cases hcode : stackDepth code with
  | error e => exact inStep_throw _
  | ok depth =>
    have hentries : SettlesDecls host entries decls q r :=
      ⟨hentries.value_eq, hentries.classes_eq, hentries.machine_eq⟩
    exact inStep_pure (settlesBlock_mk hvalues.of_movedTo hentries).movedTo

end

end Nested

/-- Blocks lie as deep as the levels above them, and the reader has those levels less to go down. -/
theorem inStep_block (levels : Nat) (owner : Option String) (p : Progress σ)
    (hp : p.depth + levels = maxNesting) :
    InStep host s (block host levels owner) (Reader.block levels) p fun r b =>
      SettlesBlock host owner r b p := by
  induction levels generalizing owner p with
  | zero => exact fun hq => ⟨p, rfl, rfl, rfl, hq⟩
  | succ levels ih =>
    let below : Progress σ := { p with depth := p.depth + 1 }
    have hbelow : below.depth = maxNesting - levels := show p.depth + 1 = _ by omega
    have hfields : InStep host s (fields host (block host levels) owner)
        (Reader.fields (Reader.block levels)) below fun r b => SettlesBlock host owner r b below :=
      inStep_fields (fun owner p hp => ih owner p (by omega)) owner hbelow
    refine inStep_nested (by omega) (hfields.mono fun r b q h => ?_)
    exact ⟨h.value_eq, h.classes_eq, h.machine_eq⟩

theorem inStep_wholeBlock (p : Progress σ) (hp : p.depth = 0) :
    InStep host s (wholeBlock host) Reader.wholeBlock p fun r b => SettlesBlock host none r b p := by
  refine InStep.bind (inStep_block maxNesting none p (by omega)) fun r b q _ hb => ?_
  refine inStep_get_bind ?_
  split
  · exact inStep_pure hb
  · exact inStep_throw _

end Loaders

end Loader

-- ---------------------------------------------------------------------------
-- Loading
-- ---------------------------------------------------------------------------

section Load

variable {buffer : List UInt8}

/-- A buffer that the reader refuses, the loader refuses for the same reason. -/
theorem wholeBlock_of_read_error {e : ReadError} (h : (Record.read buffer).1 = .error e) :
    ∃ p, Loader.wholeBlock host { cursor := { rest := buffer }, machine := s } = .error e p ∧
      p.machine = (((Record.read buffer).2.mapM host.wrapInt).run s).2 := by
  let start : Progress σ := { cursor := { rest := buffer }, machine := s }
  have hwhole : Loader.InStep host s (Loader.wholeBlock host) Reader.wholeBlock start
      fun r b => Loader.SettlesBlock host none r b start := Loader.inStep_wholeBlock start rfl
  have hstart := hwhole rfl
  cases hreader : Reader.wholeBlock start.cursor with
  | error e' c =>
    have hread : Record.read buffer = (.error e', c.met.reverse) := by
      rw [Record.read, EStateM.run, hreader]
    rw [hread] at h ⊢
    cases h
    simp only [hreader] at hstart
    obtain ⟨p, hloader, rfl, -, hmachine⟩ := hstart
    exact ⟨p, hloader, hmachine⟩
  | ok r c => simp [Record.read, EStateM.run, start, hreader] at h

/-- Of a buffer that the reader accepts, the loader has noted all classes when it is done. -/
theorem wholeBlock_of_read_ok {r : Record Int64} (h : (Record.read buffer).1 = .ok r) :
    ∃ p, Loader.wholeBlock host { cursor := { rest := buffer }, machine := s } =
        .ok (((r.traverse host.wrapInt).run s).1.block none) p ∧
      p.classes = ((r.traverse host.wrapInt).run s).1.classes ∧
      p.machine = ((r.traverse host.wrapInt).run s).2 := by
  let start : Progress σ := { cursor := { rest := buffer }, machine := s }
  have hwhole : Loader.InStep host s (Loader.wholeBlock host) Reader.wholeBlock start
      fun r b => Loader.SettlesBlock host none r b start := Loader.inStep_wholeBlock start rfl
  have hstart := hwhole rfl
  cases hreader : Reader.wholeBlock start.cursor with
  | error e c => simp [Record.read, EStateM.run, start, hreader] at h
  | ok r' c =>
    have hread : Record.read buffer = (.ok r', c.met.reverse) := by
      rw [Record.read, EStateM.run, hreader]
    rw [hread] at h
    cases h
    simp only [hreader] at hstart
    obtain ⟨_, p, hloader, -, rfl, hclasses, hmachine⟩ := hstart
    exact ⟨p, hloader, hclasses, hmachine⟩

variable {host} {s}

theorem run_loadOnePass_of_error {e : ReadError} {p : Progress σ}
    (h : Loader.wholeBlock host { cursor := { rest := buffer }, machine := s } = .error e p) :
    (Block.loadOnePass host buffer).run s = (.error e, p.machine) := by
  unfold Block.loadOnePass
  rw [StateT.run_bind, StateT.run_get, pure_bind, h]
  rfl

theorem run_loadOnePass_of_ok {b : Block} {p : Progress σ}
    (h : Loader.wholeBlock host { cursor := { rest := buffer }, machine := s } = .ok b p) :
    (Block.loadOnePass host buffer).run s =
      (.ok b, ((p.classes.forM host.declareClass).run p.machine).2) := by
  unfold Block.loadOnePass
  rw [StateT.run_bind, StateT.run_get, pure_bind, h]
  rfl

end Load

end Wire

open Wire

/-- Both ways to load a buffer are the same, whatever the host is. -/
theorem Block.loadOnePass_eq_load {σ : Type} (host : Host σ) (buffer : List UInt8) :
    Block.loadOnePass host buffer = Block.load host buffer := by
  funext s
  change (Block.loadOnePass host buffer).run s = (Block.load host buffer).run s
  cases hread : (Record.read buffer).1 with
  | error e =>
    obtain ⟨p, hloader, hmachine⟩ := wholeBlock_of_read_error host s hread
    rw [run_loadOnePass_of_error hloader, run_load_of_error hread, hmachine]
  | ok r =>
    obtain ⟨p, hloader, hclasses, hmachine⟩ := wholeBlock_of_read_ok host s hread
    rw [run_loadOnePass_of_ok hloader, run_load_of_ok hread, hclasses, hmachine]

end Bytecode
