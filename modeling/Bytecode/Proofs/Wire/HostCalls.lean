-- SUMMARY: The calls that loading a buffer makes of its host: all constants first, then all classes, or none of them.
import Bytecode.Proofs.Wire.RecordNoting

/-!
# Calls of the host

A host that keeps a log shows which calls loading makes of it. First come the integer constants, in
wire order and as far as the buffer can be read; then, if all of the buffer has been read, the classes,
each when it is complete. A buffer that is refused registers no class.
-/

namespace Bytecode

/-- A call that is made of a host. -/
inductive HostCall where
  | wrapInt (n : Int64)
  | declareClass (c : Class)

/-- The same host, keeping a log of the calls made of it. -/
def Host.logged {σ : Type} (host : Host σ) : Host (σ × List HostCall) where
  wrapInt n := fun (s, log) => ((host.wrapInt n s).1, (host.wrapInt n s).2, log ++ [.wrapInt n])
  declareClass c := fun (s, log) => ((), (host.declareClass c s).2, log ++ [.declareClass c])

namespace Wire

variable {σ α β : Type}

-- ---------------------------------------------------------------------------
-- Logs
-- ---------------------------------------------------------------------------

/-- The second computation does what the first one does and adds calls to the log. -/
def Logs (x : StateM σ α) (y : StateM (σ × List HostCall) α) (calls : List HostCall) : Prop :=
  ∀ s log, y.run (s, log) = ((x.run s).1, (x.run s).2, log ++ calls)

theorem logs_pure (a : α) : Logs (pure a : StateM σ α) (pure a) [] := by
  intro s log
  rw [List.append_nil]
  rfl

theorem Logs.bind {x : StateM σ α} {y : StateM (σ × List HostCall) α} {calls : List HostCall}
    {f : α → StateM σ β} {g : α → StateM (σ × List HostCall) β} {more : List HostCall}
    (hx : Logs x y calls) (hf : ∀ a, Logs (f a) (g a) more) :
    Logs (x >>= f) (y >>= g) (calls ++ more) := by
  intro s log
  rw [← List.append_assoc]
  change (g (y.run (s, log)).1).run (y.run (s, log)).2 = _
  rw [hx s log]
  exact hf _ _ _

theorem Logs.map {x : StateM σ α} {y : StateM (σ × List HostCall) α} {calls : List HostCall}
    (g : α → β) (hx : Logs x y calls) :
    Logs (x >>= fun a => pure (g a)) (y >>= fun a => pure (g a)) calls := by
  have h := hx.bind fun a => logs_pure (g a)
  rwa [List.append_nil] at h

variable (host : Host σ)

theorem logs_wrapInt (n : Int64) : Logs (host.wrapInt n) (host.logged.wrapInt n) [.wrapInt n] :=
  fun _ _ => rfl

theorem logs_declareClass (c : Class) :
    Logs (host.declareClass c) (host.logged.declareClass c) [.declareClass c] :=
  fun _ _ => rfl

theorem logs_forM {f : α → StateM σ Unit} {g : α → StateM (σ × List HostCall) Unit}
    {call : α → HostCall} (hf : ∀ a, Logs (f a) (g a) [call a]) (as : List α) :
    Logs (as.forM f) (as.forM g) (as.map call) := by
  induction as with
  | nil => exact logs_pure ()
  | cons a rest ih => exact (hf a).bind fun _ => ih

theorem logs_mapM {f : α → StateM σ β} {g : α → StateM (σ × List HostCall) β}
    {call : α → HostCall} (hf : ∀ a, Logs (f a) (g a) [call a]) (as : List α) :
    Logs (as.mapM f) (as.mapM g) (as.map call) := by
  induction as with
  | nil => exact logs_pure []
  | cons a rest ih =>
    rw [List.mapM_cons, List.mapM_cons]
    exact (hf a).bind fun b => ih.map (b :: ·)

mutual

theorem Record.logs_traverse :
    ∀ r : Record Int64, Logs (r.traverse host.wrapInt) (r.traverse host.logged.wrapInt)
      (r.constants.map .wrapInt)
  | ⟨chunk, entries⟩ => by
    rw [Record.constants_mk, List.map_append]
    refine (logs_mapM (logs_wrapInt host) chunk.consts).bind fun consts => ?_
    exact (Entry.logs_traverseAll entries).map (Record.mk (chunk.withConsts consts))

theorem Entry.logs_traverseAll :
    ∀ entries : List (Entry Int64), Logs (Entry.traverseAll host.wrapInt entries)
      (Entry.traverseAll host.logged.wrapInt entries) ((Entry.constants entries).map .wrapInt)
  | [] => logs_pure []
  | .function r :: rest => by
    rw [Entry.constants_function, List.map_append]
    refine (Routine.logs_traverse r).bind fun r' => ?_
    exact (Entry.logs_traverseAll rest).map (.function r' :: ·)
  | .class name members :: rest => by
    rw [Entry.constants_class, List.map_append]
    refine (Member.logs_traverseAll members).bind fun members' => ?_
    exact (Entry.logs_traverseAll rest).map (.class name members' :: ·)

theorem Routine.logs_traverse :
    ∀ r : Routine Int64, Logs (r.traverse host.wrapInt) (r.traverse host.logged.wrapInt)
      (r.constants.map .wrapInt)
  | ⟨body, params⟩ => by
    rw [Routine.constants_mk]
    exact (Record.logs_traverse body).map (Routine.mk · params)

theorem Member.logs_traverseAll :
    ∀ members : List (Member Int64), Logs (Member.traverseAll host.wrapInt members)
      (Member.traverseAll host.logged.wrapInt members) ((Member.constants members).map .wrapInt)
  | [] => logs_pure []
  | ⟨name, flags, routine⟩ :: rest => by
    rw [Member.constants_cons, List.map_append]
    refine (Routine.logs_traverse routine).bind fun routine' => ?_
    exact (Member.logs_traverseAll rest).map (⟨name, flags, routine'⟩ :: ·)

end

-- ---------------------------------------------------------------------------
-- Classes in the order of their completion
-- ---------------------------------------------------------------------------

/-- The class that an entry declares itself. -/
def Entry.ownClasses : Entry Value → List Class
  | .function _ => []
  | .class name members => [Member.class name members]

/-- The classes that are complete once an entry is: those inside of it, then its own. -/
def Entry.completed (e : Entry Value) : List Class :=
  e.bodies.flatMap Record.classes ++ e.ownClasses

/-- The classes that a record declares itself. -/
def Record.ownClasses (r : Record Value) : List Class := r.entries.flatMap Entry.ownClasses

theorem Member.classes_eq (members : List (Member Value)) :
    Member.classes members = members.flatMap fun m => m.routine.body.classes := by
  induction members with
  | nil => rfl
  | cons m rest ih =>
    obtain ⟨_, _, _, _⟩ := m
    simp [Member.classes, Routine.classes, ih]

theorem Record.classes_eq (r : Record Value) : r.classes = r.entries.flatMap Entry.completed := by
  obtain ⟨chunk, entries⟩ := r
  rw [Record.classes]
  induction entries with
  | nil => rfl
  | cons e rest ih =>
    cases e with
    | function r =>
      obtain ⟨_, _⟩ := r
      simp [Entry.classes, Routine.classes, Entry.completed, Entry.bodies, Entry.ownClasses, ih]
    | «class» name members =>
      simp [Entry.classes, Member.classes_eq, Entry.completed, Entry.bodies, Entry.ownClasses, ih,
        List.flatMap_map]

/-- Every class of the tree is registered once. -/
theorem Record.classes_perm (r : Record Value) :
    r.classes.Perm (r.records.flatMap Record.ownClasses) := by
  induction r using Record.induction with
  | step r ih =>
    have hbodies : (r.bodies.flatMap Record.classes).Perm
        ((r.bodies.flatMap Record.records).flatMap Record.ownClasses) := by
      rw [List.flatMap_assoc]
      exact List.Perm.flatMap_left _ ih
    have hsplit := List.flatMap_append_perm r.entries (fun e => e.bodies.flatMap Record.classes)
      Entry.ownClasses
    rw [Record.classes_eq, Record.records_eq, List.flatMap_cons]
    refine hsplit.symm.trans (List.perm_append_comm.trans ?_)
    rw [Record.bodies, List.flatMap_assoc] at hbodies
    exact hbodies.append_left _

/-- What is registered for a record inside a tree is registered in one go. -/
theorem Record.classes_infix {r q : Record Value} (h : q ∈ r.records) :
    q.classes <:+: r.classes := by
  induction r using Record.induction with
  | step r ih =>
    rw [Record.records_eq, List.mem_cons, List.mem_flatMap] at h
    rcases h with rfl | ⟨body, hbody, hq⟩
    · exact List.infix_rfl
    · obtain ⟨e, he, hmem⟩ := List.mem_flatMap.mp hbody
      have hinner : body.classes <:+: e.bodies.flatMap Record.classes := by
        rw [List.flatMap_def]
        exact List.infix_of_mem_flatten (List.mem_map_of_mem hmem)
      have hentry : e.completed <:+: r.classes := by
        rw [Record.classes_eq, List.flatMap_def]
        exact List.infix_of_mem_flatten (List.mem_map_of_mem he)
      exact (ih body hbody hq).trans
        ((hinner.trans (List.prefix_append _ _).isInfix).trans hentry)

-- ---------------------------------------------------------------------------
-- Loading
-- ---------------------------------------------------------------------------

theorem logs_load_of_error {buffer : List UInt8} {e : ReadError}
    (h : (Record.read buffer).1 = .error e) :
    Logs (Block.load host buffer) (Block.load host.logged buffer)
      ((Record.read buffer).2.map .wrapInt) := by
  intro s log
  have hcalls := logs_mapM (logs_wrapInt host) (Record.read buffer).2 s log
  rw [run_load_of_error h, run_load_of_error h, hcalls]

theorem run_load_logged_of_ok {buffer : List UInt8} {r : Record Int64}
    (h : (Record.read buffer).1 = .ok r) (s : σ) (log : List HostCall) :
    (Block.load host.logged buffer).run (s, log) =
      (((Block.load host buffer).run s).1, ((Block.load host buffer).run s).2,
        log ++ (r.constants.map .wrapInt ++
          ((r.traverse host.wrapInt).run s).1.classes.map .declareClass)) := by
  rw [run_load_of_ok h, run_load_of_ok h, Record.logs_traverse host r s log,
    logs_forM (logs_declareClass host), List.append_assoc]

/--
The calls that a load makes, whatever the host is. They are the integer constants of the longest start
of the buffer that is one of a record. If the buffer is refused there are no others. If it is accepted,
these are all its constants, and the classes of the record with the values that the host has made
follow: each once, and those inside a class in front of it.
-/
theorem load_logged (buffer : List UInt8) (s : σ) (log : List HostCall) :
    ∃ ints classes,
      (Block.load host.logged buffer).run (s, log) =
        (((Block.load host buffer).run s).1, ((Block.load host buffer).run s).2,
          log ++ (ints.map .wrapInt ++ classes.map .declareClass)) ∧
      Noted (Set.range (Passage.record maxNesting)) buffer ints ∧
      match ((Block.load host buffer).run s).1 with
      | .error _ => classes = []
      | .ok t => ∃ (r : Record Int64) (q : Record Value),
          (buffer = r.encode ∧ r.height ≤ maxNesting ∧ ∀ p ∈ r.records, p.Sound) ∧
            ints = r.constants ∧ q.shape = r.shape ∧
            ((ints.mapM host.wrapInt).run s).1 = q.constants ∧ t = q.block none ∧
            classes = q.classes ∧ classes.Perm (q.records.flatMap Record.ownClasses) ∧
            ∀ p ∈ q.records, p.entries.flatMap Entry.completed <:+: classes := by
  have hnoted := Record.noted_read buffer
  cases hread : (Record.read buffer).1 with
  | error e =>
    refine ⟨(Record.read buffer).2, [], ?_, hnoted, ?_⟩
    · rw [List.map_nil, List.append_nil]
      exact logs_load_of_error host hread s log
    · rw [load_eq_error_iff.mpr hread]
  | ok r =>
    have hrecord := Record.read_eq_ok_iff.mp hread
    obtain ⟨hshape, hvalues⟩ := Record.replaces_traverse (f := host.wrapInt) r s
    have hresult : ((Block.load host buffer).run s).1 =
        .ok (((r.traverse host.wrapInt).run s).1.block none) := by rw [run_load, hread]
    rw [Record.met_read_of_ok hread] at hnoted
    refine ⟨r.constants, _, run_load_logged_of_ok host hread s log, hnoted, ?_⟩
    rw [hresult]
    refine ⟨r, _, hrecord, rfl, hshape, ?_, rfl, rfl, Record.classes_perm _, ?_⟩
    · rw [hvalues]
    · intro p hp
      rw [← Record.classes_eq]
      exact Record.classes_infix hp

/-- A record with a constant and a class. -/
def Record.declaring : Record Int64 := ⟨{ consts := [7] }, [.class "A" []]⟩

theorem Record.read_declaring : Record.read (Record.declaring.encode ++ [0]) =
    (.error (.trailingBytes 1), [7]) := by cbv

theorem load_logged_declaring :
    (Block.load Host.silent.logged (Record.declaring.encode ++ [0])).run ((), []) =
      (.error (.trailingBytes 1), (), [.wrapInt 7]) := by
  have hread := Record.read_declaring
  generalize Record.declaring.encode ++ [0] = buffer at hread ⊢
  obtain ⟨ints, classes, hrun, hnoted, hclasses⟩ := load_logged Host.silent buffer () []
  have hints : ints = (Record.read buffer).2 := hnoted.unique (Record.noted_read buffer)
  have hresult : ((Block.load Host.silent buffer).run ()).1 = .error (.trailingBytes 1) :=
    load_eq_error_iff.mpr (congrArg Prod.fst hread)
  rw [hread] at hints
  rw [hresult] at hclasses hrun
  rw [hrun, hints, hclasses]
  rfl

end Wire

end Bytecode
