-- SUMMARY: What a class that is built has: its constants, properties and methods, and its constructor.
import Bytecode.BuiltClass
import Bytecode.Proofs.Table

/-!
# Built classes

Clauses and lists of methods are settings, and a class keeps of them what `Table.Settles` says. The
place of the constructor and its value can come from different settings of the list: the place from
the first with its name, and the value from the last.
-/

namespace Bytecode

-- ---------------------------------------------------------------------------
-- Clauses
-- ---------------------------------------------------------------------------

namespace ClassHeader

namespace Clause

/-- The parent that the clause names. -/
def parent? : Clause → Option String
  | .parent name => some name
  | _ => none

/-- The interface that the clause names. -/
def interface? : Clause → Option String
  | .interface name => some name
  | _ => none

/-- The constant that the clause sets. -/
def constant? : Clause → Option (String × Value)
  | .constant name value => some (name, value)
  | _ => none

/-- The property that the clause sets. -/
def property? : Clause → Option (String × Property)
  | .property name p => some (name, p)
  | _ => none

end Clause

/-- The header says what the clauses say, of parents the last. -/
structure Collects (c : ClassHeader) (name : String) (clauses : List Clause) : Prop where
  name : c.name = name
  parent : c.parent = (clauses.filterMap Clause.parent?).getLast?
  interfaces : c.interfaces = clauses.filterMap Clause.interface?
  constants : c.constants.Settles (clauses.filterMap Clause.constant?)
  properties : c.properties.Settles (clauses.filterMap Clause.property?)

variable {c : ClassHeader} {name : String} {clauses : List Clause}

theorem collects_nil (name : String) : Collects { name } name [] where
  name := rfl
  parent := rfl
  interfaces := rfl
  constants := Table.settles_nil
  properties := Table.settles_nil

/-- A clause adds to one part of the header and leaves the others as they are. -/
theorem Collects.add (h : c.Collects name clauses) (clause : Clause) :
    (c.add clause).Collects name (clauses ++ [clause]) := by
  have hkept {β : Type} {f : Clause → Option β} (hf : f clause = none) :
      (clauses ++ [clause]).filterMap f = clauses.filterMap f := by
    simp [hf]
  have htaken {β : Type} {f : Clause → Option β} {b : β} (hf : f clause = some b) :
      (clauses ++ [clause]).filterMap f = clauses.filterMap f ++ [b] := by
    simp [hf]
  cases clause with
  | parent p =>
    exact
      { name := h.name
        parent := by rw [htaken (b := p) rfl, List.getLast?_concat]; rfl
        interfaces := by rw [hkept rfl]; exact h.interfaces
        constants := by rw [hkept rfl]; exact h.constants
        properties := by rw [hkept rfl]; exact h.properties }
  | interface i =>
    exact
      { name := h.name
        parent := by rw [hkept rfl]; exact h.parent
        interfaces := by rw [htaken (b := i) rfl, ← h.interfaces]; rfl
        constants := by rw [hkept rfl]; exact h.constants
        properties := by rw [hkept rfl]; exact h.properties }
  | constant k v =>
    exact
      { name := h.name
        parent := by rw [hkept rfl]; exact h.parent
        interfaces := by rw [hkept rfl]; exact h.interfaces
        constants := by rw [htaken (b := (k, v)) rfl]; exact h.constants.insert k v
        properties := by rw [hkept rfl]; exact h.properties }
  | property k p =>
    exact
      { name := h.name
        parent := by rw [hkept rfl]; exact h.parent
        interfaces := by rw [hkept rfl]; exact h.interfaces
        constants := by rw [hkept rfl]; exact h.constants
        properties := by rw [htaken (b := (k, p)) rfl]; exact h.properties.insert k p }

theorem collects_ofClauses (name : String) (clauses : List Clause) :
    (ofClauses name clauses).Collects name clauses := by
  induction clauses using List.reverseRecOn with
  | nil => exact collects_nil name
  | append_singleton clauses clause ih =>
    rw [ofClauses, List.foldl_append]
    exact ih.add clause

end ClassHeader

-- ---------------------------------------------------------------------------
-- Methods
-- ---------------------------------------------------------------------------

namespace BuiltClass

variable {header : ClassHeader} {listed : List (String × Method)}

theorem methods_assemble (header : ClassHeader) (listed : List (String × Method)) :
    (assemble header listed).methods = Table.ofList listed := rfl

theorem settles_assemble (header : ClassHeader) (listed : List (String × Method)) :
    Table.Settles (assemble header listed).methods listed := by
  rw [methods_assemble]
  exact Table.settles_ofList listed

/-- Looking at the place of the constructor is looking for the method with its name. -/
theorem constructor?_assemble (header : ClassHeader) (listed : List (String × Method)) :
    (assemble header listed).constructor? =
      (assemble header listed).method? Class.constructorName := by
  rw [Class.method?, Table.find?_eq_find?_idxOf, constructor?]
  simp only [Table.values, List.getElem?_map]
  rfl

/-- The constructor has one place, however often it is listed. -/
theorem constructorIndex_assemble_eq_some_iff {i : Nat} :
    (assemble header listed).constructorIndex = some i ↔
      (Table.keys (assemble header listed).methods)[i]? = some Class.constructorName := by
  have hnodup := (settles_assemble header listed).nodup
  rw [List.getElem?_eq_some_iff]
  refine List.idxOf?_eq_some_iff.trans ⟨fun ⟨hi, hname, _⟩ => ⟨hi, hname⟩, fun ⟨hi, hname⟩ => ?_⟩
  refine ⟨hi, hname, fun j hj heq => ?_⟩
  have hij : j = i := hnodup.getElem_inj_iff.mp (heq.trans hname.symm)
  omega

end BuiltClass

/--
A class is built from clauses and a list of methods, in which keys can be repeated, unless the list
could not be made. It has each constant, property and method once, in the order in which they are
first listed, with the value that is listed last. Methods are found by their keys, and no others. There
is a constructor if one is listed, and it is the last one, which is found at the one place of its key.
-/
theorem BuiltClass.build_settles {ε : Type} (name : String) (clauses : List ClassHeader.Clause)
    (methods : String → Except ε (List (String × Method))) :
    let header := ClassHeader.ofClauses name clauses
    header.Collects name clauses ∧
    (∀ e, methods name = .error e → build header methods = .error e) ∧
    ∀ listed, methods name = .ok listed → ∃ c, build header methods = .ok c ∧
      c.toClass = Class.ofMethods header listed ∧ c.constructor? = c.toClass.constructor? ∧
      Table.Settles c.methods listed ∧
      (∀ key m, c.method? key = some m ↔ Table.LastSet listed key m) ∧
      (∀ key, c.method? key = none ↔ key ∉ Table.keys listed) ∧
      (∀ i, c.constructorIndex = some i ↔ (Table.keys c.methods)[i]? = some "__construct") ∧
      (c.constructor?.isSome ↔ "__construct" ∈ Table.keys listed) ∧
      ∀ m, c.constructor? = some m ↔ Table.LastSet listed "__construct" m := by
  intro header
  have hheader : header.Collects name clauses := ClassHeader.collects_ofClauses name clauses
  refine ⟨hheader, fun e he => ?_, fun listed hlisted =>
    ⟨assemble header listed, ?_, rfl, constructor?_assemble header listed, ?_⟩⟩
  · rw [build, hheader.name, he]
  · rw [build, hheader.name, hlisted]
  · have hsettles := settles_assemble header listed
    have hsome (key : String) (m : Method) :
        (assemble header listed).method? key = some m ↔ Table.LastSet listed key m :=
      hsettles.find?_eq_some_iff
    have hnone (key : String) :
        (assemble header listed).method? key = none ↔ key ∉ Table.keys listed :=
      hsettles.find?_eq_none_iff
    refine ⟨hsettles, hsome, hnone, fun i => constructorIndex_assemble_eq_some_iff, ?_, fun m => ?_⟩
    · rw [constructor?_assemble, ← Option.ne_none_iff_isSome, ne_eq, hnone, not_not]
      rfl
    · rw [constructor?_assemble, hsome]
      rfl

/-- A method without parameters and code, to be told from others by its flags. -/
def Method.flagged (flags : AccessFlags) : Method where
  flags
  function := { signature := {}, body := { chunk := {} } }

theorem BuiltClass.build_settles_repeated :
    let clauses : List ClassHeader.Clause :=
      [.constant "A" (.int 1), .property "p" ⟨.isPublic, .null⟩, .constant "B" (.int 2),
       .constant "A" (.int 3)]
    let listed := [("f", Method.flagged .isPublic), ("f", Method.flagged .isStatic),
      ("__construct", Method.flagged .isPublic), ("g", Method.flagged .isPublic),
      ("__construct", Method.flagged .isPrivate)]
    let header := ClassHeader.ofClauses "Point" clauses
    (("A", .int 3) ∈ header.constants ∧ Table.keys header.constants = ["A", "B"]) ∧
    build header (fun _ => (.error 0 : Except Nat _)) = .error 0 ∧
    ∃ c, build header (fun _ => (.ok listed : Except Nat _)) = .ok c ∧
      Table.keys c.methods = ["f", "__construct", "g"] ∧
      c.method? "f" = some (Method.flagged .isStatic) ∧ c.method? "h" = none ∧
      c.constructorIndex = some 1 ∧ c.constructor? = some (Method.flagged .isPrivate) := by
  intro clauses listed header
  obtain ⟨hheader, hfailed, -⟩ :=
    BuiltClass.build_settles "Point" clauses fun _ => (.error 0 : Except Nat _)
  obtain ⟨-, -, hbuilt⟩ := BuiltClass.build_settles "Point" clauses fun _ => (.ok listed : Except Nat _)
  obtain ⟨c, hbuild, -, -, -, hsome, hnone, hindex, -, hconstructor⟩ := hbuilt listed rfl
  have hkeys : Table.keys c.methods = ["f", "__construct", "g"] := by
    cases hbuild
    rfl
  have hlast : Table.LastSet listed "__construct" (Method.flagged .isPrivate) :=
    ⟨listed.take 4, [], rfl, List.not_mem_nil⟩
  have hf : Table.LastSet listed "f" (Method.flagged .isStatic) :=
    ⟨listed.take 1, listed.drop 2, rfl, by simp [listed, Table.keys]⟩
  have hA : Table.LastSet (clauses.filterMap ClassHeader.Clause.constant?) "A" (.int 3) :=
    ⟨[("A", .int 1), ("B", .int 2)], [], rfl, List.not_mem_nil⟩
  refine ⟨⟨(hheader.constants.mem_iff _ _).mpr hA, rfl⟩, hfailed 0 rfl, c, hbuild, hkeys,
    (hsome "f" _).mpr hf, (hnone "h").mpr (by simp [listed, Table.keys]), ?_, (hconstructor _).mpr hlast⟩
  rw [hindex, hkeys]
  rfl

end Bytecode
