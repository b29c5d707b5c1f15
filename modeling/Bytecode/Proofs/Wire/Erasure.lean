-- SUMMARY: Loading into memory is loading, but for the addresses.
import Bytecode.Proofs.Heap
import Bytecode.Proofs.Wire.OnePass
import Bytecode.Wire.Heap

/-!
# Loading with and without addresses

A loader that keeps classes in memory and one that only knows their names go on together: what the
machine is asked for, where they stand in the buffer and how they fail is the same. What one of them
gives is what the other one gives, without the addresses.
-/

namespace Bytecode.Heap

open Wire (Progress Reader maxNesting)

variable {σ α β γ δ : Type}

-- ---------------------------------------------------------------------------
-- Loaders without addresses
-- ---------------------------------------------------------------------------

/-- What is left of a progress without the memory. -/
def forget (p : Progress (Memory σ)) : Progress σ where
  cursor := p.cursor
  depth := p.depth
  classes := p.machine.store.classes.map Class.erase
  machine := p.machine.machine

/-- Without addresses, what the one loader does is what the other one does. -/
def Erases (f : α → β) (x : Loader σ α) (y : Wire.Loader σ β) : Prop :=
  ∀ p, y (forget p) = match x p with
    | .ok a q => .ok (f a) (forget q)
    | .error e q => .error e (forget q)

section Laws

variable {f : α → β} {g : γ → δ} {x : Loader σ α} {y : Wire.Loader σ β} {k : α → Loader σ γ}
  {l : β → Wire.Loader σ δ}

theorem erases_pure {a : α} {b : β} (h : f a = b) : Erases f (pure a : Loader σ α) (pure b) :=
  fun _ => h ▸ rfl

theorem erases_throw (e : Wire.ReadError) : Erases f (throw e : Loader σ α) (throw e) := fun _ => rfl

theorem Erases.bind (hx : Erases f x y) (hk : ∀ a, Erases g (k a) (l (f a))) :
    Erases g (x >>= k) (y >>= l) := by
  intro p
  have hfirst := hx p
  cases hrun : x p with
  | error e q =>
    rw [hrun] at hfirst
    rw [Wire.Loader.bind_of_error hfirst, Wire.Loader.bind_of_error hrun]
  | ok a q =>
    rw [hrun] at hfirst
    rw [Wire.Loader.bind_of_ok hfirst, Wire.Loader.bind_of_ok hrun]
    exact hk a q

/-- An item that the memory has no part in, with what goes on behind it. -/
theorem erases_read_bind {r : Reader α} {l : α → Wire.Loader σ δ} (hk : ∀ a, Erases g (k a) (l a)) :
    Erases g (Wire.Loader.read r >>= k) (Wire.Loader.read r >>= l) := by
  have hread : Erases id (Wire.Loader.read r : Loader σ α) (Wire.Loader.read r) := by
    intro p
    simp only [Wire.Loader.read, forget]
    cases r p.cursor <;> rfl
  exact hread.bind hk

theorem erases_get_bind {k : Progress (Memory σ) → Loader σ γ} {l : Progress σ → Wire.Loader σ δ}
    (hk : ∀ p, Erases g (k p) (l (forget p))) : Erases g (get >>= k) (get >>= l) :=
  fun p => hk p p

theorem erases_ask (z : StateM σ α) : Erases id (Loader.ask z) (Wire.Loader.ask z) := fun _ => rfl

theorem erases_allocate_bind {k : Nat → Loader σ γ} {y : Wire.Loader σ δ}
    (hk : ∀ address, Erases g (k address) y) : Erases g (Loader.allocate >>= k) y :=
  fun p => hk p.machine.store.allocated { p with machine := { p.machine with store :=
    { p.machine.store with allocated := p.machine.store.allocated + 1 } } }

theorem erases_complete (c : Class) :
    Erases id (Loader.complete c : Loader σ Unit) (Wire.Loader.complete c.erase) := by
  intro p
  have hclasses : (p.machine.store.classes ++ [c]).map Class.erase =
      p.machine.store.classes.map Class.erase ++ [c.erase] := by simp
  change EStateM.Result.ok () { forget p with
    classes := p.machine.store.classes.map Class.erase ++ [c.erase] } = _
  rw [← hclasses]
  rfl

theorem Erases.many (h : Erases f x y) (n : Nat) :
    Erases (List.map f) (Wire.Loader.many x n) (Wire.Loader.many y n) := by
  induction n with
  | zero => exact erases_pure rfl
  | succ n ih => exact h.bind fun a => ih.bind fun as => erases_pure rfl

theorem Erases.counted (h : Erases f x y) (field : Wire.Field) :
    Erases (List.map f) (Wire.Loader.counted field x) (Wire.Loader.counted field y) :=
  erases_read_bind fun count => h.many count.toNat

theorem Erases.nested (h : Erases f x y) :
    Erases f (Wire.Loader.nested x) (Wire.Loader.nested y) := by
  intro p
  have hinner := h { p with depth := p.depth + 1 }
  have hbelow : forget { p with depth := p.depth + 1 } = { forget p with depth := p.depth + 1 } := rfl
  rw [hbelow] at hinner
  have hdepth : (forget p).depth = p.depth := rfl
  simp only [Wire.Loader.nested, hdepth, hinner]
  split
  · rfl
  · cases x { p with depth := p.depth + 1 } <;> rfl

end Laws

-- ---------------------------------------------------------------------------
-- The loaders
-- ---------------------------------------------------------------------------

section Loaders

variable (host : Host σ)

theorem erases_constant : Erases id (Loader.constant host) (Wire.Loader.constant host) :=
  erases_read_bind fun n => erases_ask (host.wrapInt n)

section Nested

variable {block : Option Nat → Loader σ Block} {wblock : Option String → Wire.Loader σ Bytecode.Block}
  (hblock : ∀ owner name, Erases (Block.erase name) (block owner) (wblock name))

include hblock

theorem erases_function (owner : Option Nat) (name : Option String) :
    Erases (Function.erase name) (Loader.function block owner) (Wire.Loader.function wblock name) :=
  (hblock owner name).bind fun _ => erases_read_bind fun _ => erases_pure rfl

theorem erases_method (owner : Nat) (name : String) :
    Erases (fun m => (m.1, m.2.erase name)) (Loader.method block owner)
      (Wire.Loader.method wblock name) :=
  erases_read_bind fun _ => erases_read_bind fun _ =>
    (erases_function hblock (some owner) (some name)).bind fun _ => erases_pure rfl

theorem erases_decl : Erases Decl.erase (Loader.decl block) (Wire.Loader.decl wblock) := by
  refine erases_read_bind fun tag => ?_
  split
  · exact (erases_function hblock none none).bind fun f => erases_pure rfl
  split
  · refine erases_read_bind fun name => ?_
    simp only [Wire.Loader.counted, bind_assoc]
    refine erases_read_bind fun count => erases_allocate_bind fun address => ?_
    refine ((erases_method hblock address name).many count.toNat).bind fun methods => ?_
    rw [← Class.erase_ofMethods address { name } methods]
    exact (erases_complete _).bind fun _ => erases_pure rfl
  · exact erases_throw _

theorem erases_fields (owner : Option Nat) (name : Option String) :
    Erases (Block.erase name) (Loader.fields host block owner)
      (Wire.Loader.fields host wblock name) := by
  refine erases_read_bind fun code => ?_
  refine ((erases_constant host).counted .constantCount).bind fun consts => ?_
  rw [List.map_id]
  iterate 8 refine erases_read_bind fun _ => ?_
  refine ((erases_decl hblock).counted .declarationCount).bind fun decls => ?_
  refine erases_read_bind fun lineMap => ?_
  simp only [Block.build?, Bytecode.Block.build?]
  cases stackDepth code with
  | error e => exact erases_throw _
  | ok depth => exact erases_pure (Block.erase_mk _ _)

end Nested

theorem erases_block (levels : Nat) (owner : Option Nat) (name : Option String) :
    Erases (Block.erase name) (Loader.block host levels owner)
      (Wire.Loader.block host levels name) := by
  induction levels generalizing owner name with
  | zero => exact erases_get_bind fun p => erases_throw _
  | succ levels ih => exact (erases_fields host (fun owner name => ih owner name) owner name).nested

theorem erases_wholeBlock :
    Erases (Block.erase none) (Loader.wholeBlock host) (Wire.Loader.wholeBlock host) := by
  refine (erases_block host maxNesting none none).bind fun b => erases_get_bind fun p => ?_
  have hcursor : (forget p).cursor = p.cursor := rfl
  rw [hcursor]
  split
  · exact erases_pure rfl
  · exact erases_throw _

end Loaders

section Load

variable {host : Host σ} {buffer : List UInt8} {s : σ}

theorem run_load_of_error {e : Wire.ReadError} {p : Progress (Memory σ)}
    (h : Loader.wholeBlock host { cursor := { rest := buffer }, machine := { machine := s } } =
      .error e p) : (load host buffer).run s = (.error e, p.machine.machine) := by
  unfold load
  rw [StateT.run_bind, StateT.run_get, pure_bind, h]
  rfl

theorem run_load_of_ok {b : Block} {p : Progress (Memory σ)}
    (h : Loader.wholeBlock host { cursor := { rest := buffer }, machine := { machine := s } } =
      .ok b p) :
    (load host buffer).run s = (.ok { block := b, classes := p.machine.store.classes },
      (((forget p).classes.forM host.declareClass).run (forget p).machine).2) := by
  have hclasses : (forget p).classes.forM host.declareClass =
      p.machine.store.classes.forM fun c => host.declareClass c.erase :=
    List.forM_map ..
  unfold load
  rw [StateT.run_bind, StateT.run_get, pure_bind, h, hclasses]
  rfl

/-- Without addresses, what is loaded into memory is what is loaded, and the machine cannot tell. -/
theorem run_block_load (host : Host σ) (buffer : List UInt8) (s : σ) :
    (Bytecode.Block.load host buffer).run s =
      (((load host buffer).run s).1.map fun loaded => loaded.block.erase none,
        ((load host buffer).run s).2) := by
  rw [← Bytecode.Block.loadOnePass_eq_load]
  have herases := erases_wholeBlock host
    { cursor := { rest := buffer }, machine := { machine := s } }
  cases hrun : Loader.wholeBlock host
      { cursor := { rest := buffer }, machine := { machine := s } } with
  | error e p =>
    rw [hrun] at herases
    rw [Wire.run_loadOnePass_of_error herases, run_load_of_error hrun]
    rfl
  | ok b p =>
    rw [hrun] at herases
    rw [Wire.run_loadOnePass_of_ok herases, run_load_of_ok hrun]
    rfl

end Load

end Bytecode.Heap
