-- SUMMARY: What loading a buffer gives: the verdict of the reader, with the constants that the host makes.
import Bytecode.Proofs.Wire.RecordReading
import Bytecode.Wire.Host

/-!
# Loading

The host is asked for constants and told of classes while a buffer is loaded, but it has no say in
whether the buffer is accepted. A host that keeps integers, whatever else it does, gets the block of
the record with its integers as they are.
-/

namespace Bytecode

/-- The same chunk with every constant replaced. -/
def Chunk.mapConsts {κ ν : Type} (g : κ → ν) (c : Chunk κ) : Chunk ν :=
  c.withConsts (c.consts.map g)

namespace Wire

section Yields

variable {σ α β κ ν : Type}

/-- In every state the computation gives the value. -/
def Yields (x : StateM σ α) (a : α) : Prop := ∀ s, (x.run s).1 = a

theorem yields_pure (a : α) : Yields (pure a : StateM σ α) a := fun _ => rfl

theorem Yields.bind {x : StateM σ α} {f : α → StateM σ β} {a : α} {b : β} (hx : Yields x a)
    (hf : Yields (f a) b) : Yields (x >>= f) b := by
  intro s
  have hbind : ((x >>= f).run s).1 = ((f (x.run s).1).run (x.run s).2).1 := rfl
  rw [hbind, hx s]
  exact hf _

theorem yields_mapM {f : α → StateM σ β} {g : α → β} (h : ∀ a, Yields (f a) (g a)) (as : List α) :
    Yields (as.mapM f) (as.map g) := by
  induction as with
  | nil => exact yields_pure []
  | cons a rest ih =>
    rw [List.mapM_cons]
    exact (h a).bind (ih.bind (yields_pure _))

variable {f : κ → StateM σ ν} {g : κ → ν}

mutual

theorem Record.yields_traverse (h : ∀ k, Yields (f k) (g k)) :
    ∀ r : Record κ, Yields (r.traverse f) (r.mapChunks (Chunk.mapConsts g))
  | ⟨chunk, entries⟩ => by
    have hconsts := yields_mapM h chunk.consts
    exact hconsts.bind ((Entry.yields_traverseAll h entries).bind (yields_pure _))

theorem Entry.yields_traverseAll (h : ∀ k, Yields (f k) (g k)) :
    ∀ entries : List (Entry κ),
      Yields (Entry.traverseAll f entries) (Entry.mapAll (Chunk.mapConsts g) entries)
  | [] => yields_pure []
  | .function r :: rest => by
    have hrest := Entry.yields_traverseAll h rest
    exact (Routine.yields_traverse h r).bind (hrest.bind (yields_pure _))
  | .class name members :: rest => by
    have hrest := Entry.yields_traverseAll h rest
    exact (Member.yields_traverseAll h members).bind (hrest.bind (yields_pure _))

theorem Routine.yields_traverse (h : ∀ k, Yields (f k) (g k)) :
    ∀ r : Routine κ, Yields (r.traverse f) (r.mapChunks (Chunk.mapConsts g))
  | ⟨body, _⟩ => (Record.yields_traverse h body).bind (yields_pure _)

theorem Member.yields_traverseAll (h : ∀ k, Yields (f k) (g k)) :
    ∀ members : List (Member κ),
      Yields (Member.traverseAll f members) (Member.mapAll (Chunk.mapConsts g) members)
  | [] => yields_pure []
  | ⟨name, flags, routine⟩ :: rest => by
    have hrest := Member.yields_traverseAll h rest
    exact (Routine.yields_traverse h routine).bind (hrest.bind (yields_pure _))

end

end Yields

/-- The record in use that a record of integers stands for. -/
def Record.values (r : Record Int64) : Record Value := r.mapChunks (Chunk.mapConsts Value.int)

/-- The machine takes integer constants as they are, whatever else it does with them. -/
def KeepsInts {σ : Type} (host : Host σ) : Prop := ∀ n, Yields (host.wrapInt n) (.int n)

theorem run_forM_discard {σ α β : Type} (f : α → StateM σ β) (as : List α) (s : σ) :
    (as.forM fun a => do let _ ← f a).run s = ((), ((as.mapM f).run s).2) := by
  induction as generalizing s with
  | nil => rfl
  | cons a rest ih =>
    rw [List.mapM_cons]
    exact ih ((f a).run s).2

section Load

variable {σ : Type} {host : Host σ} {buffer : List UInt8} {s : σ}

theorem run_load : ((Block.load host buffer).run s).1 =
    match (Record.read buffer).1 with
    | .ok r => .ok (((r.traverse host.wrapInt).run s).1.block none)
    | .error e => .error e := by
  unfold Block.load
  obtain ⟨verdict, met⟩ := Record.read buffer
  cases verdict <;> rfl

theorem run_load_of_error {e : ReadError} (h : (Record.read buffer).1 = .error e) :
    (Block.load host buffer).run s =
      (.error e, (((Record.read buffer).2.mapM host.wrapInt).run s).2) := by
  unfold Block.load
  generalize Record.read buffer = reading at h
  obtain ⟨verdict, met⟩ := reading
  cases h
  have hdiscard := run_forM_discard host.wrapInt met s
  exact congrArg (fun result : Unit × σ => (Except.error e, result.2)) hdiscard

theorem run_load_of_ok {r : Record Int64} (h : (Record.read buffer).1 = .ok r) :
    (Block.load host buffer).run s =
      (.ok (((r.traverse host.wrapInt).run s).1.block none),
        ((((r.traverse host.wrapInt).run s).1.classes.forM host.declareClass).run
          ((r.traverse host.wrapInt).run s).2).2) := by
  unfold Block.load
  generalize Record.read buffer = reading at h
  obtain ⟨verdict, met⟩ := reading
  cases h
  rfl

theorem load_eq_error_iff {e : ReadError} :
    ((Block.load host buffer).run s).1 = .error e ↔ (Record.read buffer).1 = .error e := by
  rw [run_load]
  cases (Record.read buffer).1 <;> simp

theorem exists_load_eq_ok_iff :
    (∃ t, ((Block.load host buffer).run s).1 = .ok t) ↔ ∃ r, (Record.read buffer).1 = .ok r := by
  rw [run_load]
  cases (Record.read buffer).1 <;> simp

theorem load_eq_ok_iff (h : KeepsInts host) {t : Block} :
    ((Block.load host buffer).run s).1 = .ok t ↔
      ∃ r, (Record.read buffer).1 = .ok r ∧ t = r.values.block none := by
  rw [run_load]
  cases (Record.read buffer).1 with
  | error e => simp
  | ok r =>
    have hrun : ((r.traverse host.wrapInt).run s).1 = r.values := Record.yields_traverse h r s
    simp only [hrun, Except.ok.injEq, exists_eq_left']
    exact eq_comm

theorem load_encode (hhost : KeepsInts host) {r : Record Int64} (hheight : r.height ≤ maxNesting)
    (hsound : ∀ q ∈ r.records, q.Sound) (s : σ) :
    ((Block.load host r.encode).run s).1 = .ok (r.values.block none) :=
  (load_eq_ok_iff hhost).mpr ⟨r, Record.read_eq_ok_iff.mpr ⟨rfl, hheight, hsound⟩, rfl⟩

end Load

theorem deserialize_eq_load (buffer : List UInt8) :
    Block.deserialize buffer = ((Block.load Host.silent buffer).run ()).1 := rfl

theorem keepsInts_silent : KeepsInts Host.silent := fun _ => yields_pure _

/-- The record of a block with nothing in it. -/
def Record.empty : Record Int64 := ⟨{}, []⟩

theorem Record.sound_empty : Record.empty.Sound where
  lengths := by decide +kernel
  words := by simp [Record.empty, chunkWords]
  checked := ⟨0, by cbv⟩

theorem load_encode_empty :
    ((Block.load Host.silent Record.empty.encode).run ()).1 = .ok { chunk := {} } := by
  have hsound : ∀ q ∈ Record.empty.records, q.Sound := by
    intro q hq
    rw [List.mem_singleton.mp hq]
    exact Record.sound_empty
  exact load_encode keepsInts_silent (by decide) hsound ()

end Wire

end Bytecode
