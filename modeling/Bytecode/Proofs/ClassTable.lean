-- SUMMARY: Class tables over whole runs: what declaring classes and loading buffers in any order leaves in one.
import Bytecode.ClassTable
import Bytecode.Proofs.Table
import Bytecode.Proofs.Text
import Bytecode.Proofs.Wire.HostCalls
import Bytecode.Proofs.Wire.OnePass

/-!
# Runs of class tables

Classes are declared to a class table and buffers are loaded into it, in any order. A load that fails
leaves no trace, whatever it has completed before; one that succeeds declares the classes of its
buffer, each when it is complete. So every run comes to one list of declarations. Of the classes in it
that have one name but for the case of ASCII letters, the last is found, at the place of the first.
-/

namespace Bytecode

open Wire

namespace ClassTable

-- ---------------------------------------------------------------------------
-- Declarations
-- ---------------------------------------------------------------------------

/-- What a class table shows of the classes that were declared to it, in order. -/
structure Shows (t : ClassTable) (declared : List Class) : Prop where
  /-- A name finds the last class that has it. -/
  find?_eq_some_iff : ∀ (name : String) (c : Class), t.find? name = some c ↔
    ∃ front back, declared = front ++ c :: back ∧ EqualButCase c.header.name name ∧
      ∀ d ∈ back, ¬ EqualButCase d.header.name name
  find?_eq_none_iff : ∀ name : String, t.find? name = none ↔
    ∀ c ∈ declared, ¬ EqualButCase c.header.name name
  contains_iff : ∀ name : String, t.contains name = true ↔ ∃ c, t.find? name = some c
  /-- The names of the classes listed, in the order of their first declarations. -/
  names_toList : t.toList.map (fun c => foldCase c.header.name) =
    (declared.map fun c => foldCase c.header.name).eraseDups
  find?_of_mem_toList : ∀ c ∈ t.toList, t.find? c.header.name = some c
  size_eq : t.size = (declared.map fun c => foldCase c.header.name).eraseDups.length

/-- The key of a class, and the class. -/
def setting (c : Class) : String × Class := (foldCase c.header.name, c)

theorem classes_declareAll (t : ClassTable) (cs : List Class) :
    (t.declareAll cs).classes = t.classes.insertAll (cs.map setting) := by
  induction cs generalizing t with
  | nil => rfl
  | cons c rest ih => exact ih (t.declare c)

theorem classes_declareAll_empty (cs : List Class) :
    (declareAll {} cs).classes = Table.ofList (cs.map setting) :=
  classes_declareAll {} cs

theorem keys_declareAll (cs : List Class) :
    (declareAll {} cs).classes.keys = (cs.map fun c => foldCase c.header.name).eraseDups := by
  rw [classes_declareAll_empty, Table.keys_ofList, List.map_map]
  rfl

theorem find?_declareAll (cs : List Class) (name : String) :
    (declareAll {} cs).find? name =
      cs.reverse.find? fun c => foldCase c.header.name = foldCase name := by
  rw [find?, classes_declareAll_empty, Table.find?_ofList, ← List.map_reverse, List.find?_map,
    Option.map_map]
  exact congrFun Option.map_id _

theorem key_of_mem_declareAll {cs : List Class} {item : String × Class}
    (h : item ∈ (declareAll {} cs).classes) : item.1 = foldCase item.2.header.name := by
  rw [classes_declareAll_empty] at h
  obtain ⟨c, -, rfl⟩ := List.mem_map.mp ((Table.ofList_subperm _).subset h)
  rfl

theorem shows_declareAll (cs : List Class) : (declareAll {} cs).Shows cs where
  find?_eq_some_iff name c := by
    rw [find?_declareAll, List.find?_eq_some_iff_append]
    simp only [decide_eq_true_eq, foldCase_eq_foldCase_iff, Bool.not_eq_true', decide_eq_false_iff_not]
    constructor
    · rintro ⟨hc, front, back, hcs, hfront⟩
      refine ⟨back.reverse, front.reverse, ?_, hc, by simpa using hfront⟩
      simpa using congrArg List.reverse hcs
    · rintro ⟨front, back, rfl, hc, hback⟩
      exact ⟨hc, back.reverse, front.reverse, by simp, by simpa using hback⟩
  find?_eq_none_iff name := by
    rw [find?_declareAll, List.find?_eq_none]
    simp [foldCase_eq_foldCase_iff]
  contains_iff name := Option.isSome_iff_exists
  names_toList := by
    rw [← keys_declareAll, toList, Table.values, Table.keys, List.map_map]
    exact List.map_congr_left fun item hitem => (key_of_mem_declareAll hitem).symm
  find?_of_mem_toList c hc := by
    obtain ⟨item, hitem, rfl⟩ := List.mem_map.mp hc
    have hkeys : (declareAll {} cs).classes.keys.Nodup := by
      rw [classes_declareAll_empty]
      exact Table.nodup_keys_ofList _
    rw [find?, ← key_of_mem_declareAll hitem]
    exact (Table.find?_eq_some_iff_of_nodup hkeys).mpr hitem
  size_eq := by
    rw [← keys_declareAll, Table.keys, List.length_map]
    rfl

-- ---------------------------------------------------------------------------
-- Loads
-- ---------------------------------------------------------------------------

section Load

variable {t : ClassTable} {buffer : List UInt8}

/-- Constants make no difference to a class table. -/
theorem run_mapM_wrapInt (ns : List Int64) :
    (ns.mapM host.wrapInt).run t = (ns.map Value.int, t) := by
  have hpure : ns.mapM host.wrapInt = (pure (ns.map Value.int) : StateM ClassTable _) :=
    List.mapM_pure
  rw [hpure]
  rfl

theorem keepsInts_host : KeepsInts host := fun _ => yields_pure _

theorem run_traverse_wrapInt (r : Record Int64) :
    (r.traverse host.wrapInt).run t = (r.values, t) := by
  have hstate := congrArg Prod.snd (Record.replaces_traverse (f := host.wrapInt) r t).2
  rw [run_mapM_wrapInt] at hstate
  exact Prod.ext (Record.yields_traverse keepsInts_host r t) hstate.symm

theorem run_forM_declareClass (cs : List Class) :
    (cs.forM host.declareClass).run t = ((), t.declareAll cs) := by
  induction cs generalizing t with
  | nil => rfl
  | cons c rest ih => exact ih (t := t.declare c)

theorem load_of_error {e : ReadError} (h : (Record.read buffer).1 = .error e) :
    t.load buffer = (.error e, t) := by
  rw [load, run_load_of_error h, run_mapM_wrapInt]

theorem load_of_ok {r : Record Int64} (h : (Record.read buffer).1 = .ok r) :
    t.load buffer = (.ok (r.values.block none), t.declareAll r.values.classes) := by
  rw [load, run_load_of_ok h, run_traverse_wrapInt, run_forM_declareClass]

end Load

-- ---------------------------------------------------------------------------
-- Runs
-- ---------------------------------------------------------------------------

/-- Something that happens to a class table. -/
inductive Event where
  | declare (c : Class)
  | load (buffer : List UInt8)

/-- The classes that an event declares: those of a buffer all together, or none of them. -/
def Event.declared : Event → List Class
  | .declare c => [c]
  | .load buffer =>
    match (Record.read buffer).1 with
    | .ok r => r.values.classes
    | .error _ => []

/-- The table after an event. -/
def after (t : ClassTable) : Event → ClassTable
  | .declare c => t.declare c
  | .load buffer => (t.load buffer).2

/-- The table after events in turn. -/
def afterAll (t : ClassTable) (events : List Event) : ClassTable := events.foldl after t

theorem after_eq (t : ClassTable) (e : Event) : t.after e = t.declareAll e.declared := by
  cases e with
  | declare c => rfl
  | load buffer =>
    rw [after, Event.declared]
    cases hread : (Record.read buffer).1 with
    | error e => rw [load_of_error hread, declareAll, List.foldl_nil]
    | ok r => rw [load_of_ok hread]

theorem afterAll_eq (t : ClassTable) (events : List Event) :
    t.afterAll events = t.declareAll (events.flatMap Event.declared) := by
  induction events generalizing t with
  | nil => rfl
  | cons e rest ih =>
    have hrest : t.afterAll (e :: rest) = (t.after e).afterAll rest := rfl
    rw [hrest, ih, after_eq, List.flatMap_cons, declareAll, declareAll, declareAll, List.foldl_append]

/--
Whatever is declared to a new class table and loaded into it, it is the table of the classes declared
by the events, in order, and shows them as such. An event that loads a buffer declares the classes that
the loader has noted when it is done, each once and those inside a class in front of it; if the load
fails, it declares none, whatever has been noted by then, and leaves the table as it was.
-/
theorem afterAll_shows (events : List Event) :
    (∀ (t : ClassTable) (buffer : List UInt8),
      match Loader.wholeBlock host { cursor := { rest := buffer }, machine := t } with
      | .error e _ => t.load buffer = (.error e, t) ∧ (Event.load buffer).declared = []
      | .ok b p => t.load buffer = (.ok b, t.declareAll p.classes) ∧
          (Event.load buffer).declared = p.classes ∧
          ∃ r : Record Int64, buffer = r.encode ∧ b = r.values.block none ∧
            p.classes.Perm (r.values.records.flatMap Record.ownClasses) ∧
            ∀ q ∈ r.values.records, q.entries.flatMap Entry.completed <:+: p.classes) ∧
    afterAll {} events = declareAll {} (events.flatMap Event.declared) ∧
    (afterAll {} events).Shows (events.flatMap Event.declared) := by
  refine ⟨fun t buffer => ?_, afterAll_eq {} events, ?_⟩
  · cases hread : (Record.read buffer).1 with
    | error e =>
      obtain ⟨p, hloader, -⟩ := wholeBlock_of_read_error host t hread
      rw [hloader]
      exact ⟨load_of_error hread, by simp only [Event.declared, hread]⟩
    | ok r =>
      obtain ⟨p, hloader, hclasses, -⟩ := wholeBlock_of_read_ok host t hread
      rw [run_traverse_wrapInt] at hloader hclasses
      rw [hloader]
      refine ⟨by rw [load_of_ok hread, hclasses], by simp only [Event.declared, hread, hclasses], r,
        (Record.read_eq_ok_iff.mp hread).1, rfl, ?_, fun q hq => ?_⟩
      · rw [hclasses]
        exact Record.classes_perm _
      · rw [hclasses, ← Record.classes_eq]
        exact Record.classes_infix hq
  · rw [afterAll_eq]
    exact shows_declareAll _

theorem afterAll_shows_redeclared :
    let first : Class := { header := { name := "Foo" } }
    let last : Class := { header := { name := "FOO" } }
    let t := afterAll {} [.declare first, .load (Record.declaring.encode ++ [0]),
      .load Record.declaring.encode, .declare last]
    t.find? "foo" = some last ∧ t.toList.map (fun c => foldCase c.header.name) = ["foo", "a"] := by
  have hlast : foldCase "FOO" = "foo" := by cbv
  have hfirst : foldCase "Foo" = "foo" := by cbv
  have hloaded : foldCase "A" = "a" := by cbv
  have hsame : EqualButCase "FOO" "foo" := foldCase_eq_foldCase_iff.mp (by cbv)
  have hread : (Record.read Record.declaring.encode).1 = .ok Record.declaring := by cbv
  intro first last t
  let loaded : Class := { header := { name := "A" } }
  have hdeclared : [Event.declare first, .load (Record.declaring.encode ++ [0]),
      .load Record.declaring.encode, .declare last].flatMap Event.declared = [first, loaded, last] := by
    simp only [List.flatMap_cons, List.flatMap_nil, Event.declared, Record.read_declaring, hread]
    rfl
  obtain ⟨-, -, hshows⟩ := afterAll_shows [.declare first, .load (Record.declaring.encode ++ [0]),
    .load Record.declaring.encode, .declare last]
  rw [hdeclared] at hshows
  refine ⟨(hshows.find?_eq_some_iff "foo" last).mpr ⟨[first, loaded], [], rfl, hsame, by simp⟩, ?_⟩
  rw [hshows.names_toList]
  simp [first, loaded, last, hfirst, hloaded, hlast, List.eraseDups_cons]

end ClassTable

end Bytecode
