-- SUMMARY: Lines of different kinds can change places without a change to the assembled block.
import Bytecode.Proofs.Assembly.Grammar

/-!
# Reordering lines

A line of assembly text is an instruction, a directive of some name, or blank. Lines of different kinds
add to different parts of the block, so one can be moved past the other. A text whose lines are moved so
that those of one kind stay in order is therefore assembled with the same result.
-/

namespace Bytecode

-- ---------------------------------------------------------------------------
-- Lists in another order
-- ---------------------------------------------------------------------------

section Lists

variable {α β κ : Type} {kind : α → κ} {l l' : List α}

/-- The elements of a list at other places, where those of one kind stand in the same order. -/
def Reordered (kind : α → κ) (l l' : List α) : Prop :=
  ∃ place : Fin l.length ≃ Fin l'.length, (∀ i, l'[place i] = l[i]) ∧
    ∀ i j, i < j → kind l[i] = kind l[j] → place i < place j

variable [DecidableEq κ]

theorem filter_eq_map_finRange (p : α → Bool) (l : List α) :
    l.filter p = ((List.finRange l.length).filter fun i => p l[i]).map fun i => l[i] := by
  conv_lhs => rw [← List.map_getElem_finRange l]
  rw [List.filter_map]
  rfl

/-- The elements of one kind are the same list in both orders. -/
theorem Reordered.filter_eq (h : Reordered kind l l') (k : κ) :
    l.filter (fun a => kind a = k) = l'.filter fun a => kind a = k := by
  obtain ⟨place, hsame, horder⟩ := h
  let places (xs : List α) := (List.finRange xs.length).filter fun i => kind xs[i] = k
  have hsorted (xs : List α) : (places xs).Pairwise (· < ·) :=
    (List.sortedLT_finRange _).pairwise.filter _
  have hmoved : ((places l).map place).Pairwise (· < ·) := by
    refine List.pairwise_map.mpr ((hsorted l).imp_of_mem fun {i j} hi hj hlt => ?_)
    have hik : kind l[i] = k := by simpa [places] using hi
    have hjk : kind l[j] = k := by simpa [places] using hj
    exact horder i j hlt (hik.trans hjk.symm)
  have hperm : ((places l).map place).Perm (places l') := by
    refine (List.perm_ext_iff_of_nodup (hmoved.imp ne_of_lt) ((hsorted l').imp ne_of_lt)).mpr ?_
    intro j
    obtain ⟨i, rfl⟩ := place.surjective j
    rw [List.mem_map_of_injective place.injective]
    simp only [places, List.mem_filter, List.mem_finRange, true_and, hsame]
  -- The places in the second list are sorted, and so are those that the first list is moved to.
  have hplaces : (places l).map place = places l' :=
    hperm.eq_of_pairwise (fun i j _ _ hij hji => absurd hji hij.asymm) hmoved (hsorted l')
  have hvalues : (places l).map (fun i => l[i]) = (places l').map fun i => l'[i] := by
    rw [← hplaces, List.map_map]
    exact List.map_congr_left fun i _ => (hsame i).symm
  rw [filter_eq_map_finRange, filter_eq_map_finRange _ l']
  exact hvalues

theorem Reordered.mem_iff (h : Reordered kind l l') {a : α} : a ∈ l ↔ a ∈ l' := by
  have hmem : a ∈ l.filter (fun b => kind b = kind a) ↔ a ∈ l'.filter fun b => kind b = kind a := by
    rw [h.filter_eq]
  simpa using hmem

/-- The first element of one list stands in the other behind elements of other kinds. -/
theorem exists_eq_append_of_filter_eq {a : α} {rest : List α}
    (h : ∀ k, (a :: rest).filter (fun b => kind b = k) = l'.filter fun b => kind b = k) :
    ∃ front back, l' = front ++ a :: back ∧ (∀ b ∈ front, kind b ≠ kind a) ∧
      ∀ k, rest.filter (fun b => kind b = k) = (front ++ back).filter fun b => kind b = k := by
  have hfirst := h (kind a)
  rw [List.filter_cons_of_pos (by simp), eq_comm, List.filter_eq_cons_iff] at hfirst
  obtain ⟨front, back, rfl, hfront, -, -⟩ := hfirst
  have hother : ∀ b ∈ front, kind b ≠ kind a := by simpa using hfront
  refine ⟨front, back, rfl, hother, fun k => ?_⟩
  have hk := h k
  rw [List.filter_append, List.filter_cons, List.filter_cons] at hk
  rw [List.filter_append]
  by_cases hak : kind a = k
  · subst hak
    have hnone : front.filter (fun b => kind b = kind a) = [] := by
      simpa [List.filter_eq_nil_iff] using hother
    rw [hnone, decide_eq_true rfl, if_pos rfl, if_pos rfl, List.nil_append] at hk
    rw [hnone, List.nil_append]
    exact (List.cons.inj hk).2
  · simpa [hak] using hk

/-- A step that takes elements of different kinds in either order runs over both lists alike. -/
theorem foldl_eq_of_filter_eq {f : β → α → β}
    (hcomm : ∀ s a b, kind a ≠ kind b → f (f s a) b = f (f s b) a)
    (h : ∀ k, l.filter (fun a => kind a = k) = l'.filter fun a => kind a = k) (s : β) :
    l.foldl f s = l'.foldl f s := by
  have hpast (a : α) (front : List α) (hfront : ∀ b ∈ front, kind b ≠ kind a) (s : β) :
      front.foldl f (f s a) = f (front.foldl f s) a := by
    induction front generalizing s with
    | nil => rfl
    | cons b front ih =>
      obtain ⟨hb, hfront⟩ := List.forall_mem_cons.mp hfront
      rw [List.foldl_cons, List.foldl_cons, hcomm s a b hb.symm, ih hfront]
  induction l generalizing l' s with
  | nil =>
    cases l' with
    | nil => rfl
    | cons b rest => simpa using h (kind b)
  | cons a rest ih =>
    obtain ⟨front, back, rfl, hfront, hrest⟩ := exists_eq_append_of_filter_eq h
    rw [List.foldl_cons, ih hrest, List.foldl_append, hpast a front hfront, List.foldl_append,
      List.foldl_cons]

theorem Reordered.foldl_eq {f : β → α → β}
    (hcomm : ∀ s a b, kind a ≠ kind b → f (f s a) b = f (f s b) a) (h : Reordered kind l l') (s : β) :
    l.foldl f s = l'.foldl f s :=
  foldl_eq_of_filter_eq hcomm h.filter_eq s

end Lists

open Text

namespace Assembly

-- ---------------------------------------------------------------------------
-- Kinds of lines
-- ---------------------------------------------------------------------------

/-- What a line can be. -/
inductive LineKind where
  | blank
  | directive (name : String)
  | instruction
  deriving DecidableEq

namespace LineKind

/-- What lines that start with a word are. -/
def ofWord : List Char → LineKind
  | '.' :: name => .directive (String.ofList name)
  | _ => .instruction

/-- What a line is, whether or not it is right. -/
def ofLine (line : List Char) : LineKind :=
  if Item.content line = [] then .blank else ofWord (splitWord (Item.content line)).1

theorem ofWord_of_ne_dot {head : List Char} (h : ∀ name, head ≠ '.' :: name) :
    ofWord head = .instruction := by
  unfold ofWord
  split
  · exact absurd rfl (h _)
  · rfl

end LineKind

namespace Item

/-- What the lines are that hold an item. -/
def lineKind : Item → LineKind
  | .name _ => .directive "name"
  | .file _ => .directive "file"
  | .const _ => .directive "const"
  | .global _ => .directive "global"
  | .var _ => .directive "var"
  | .instruction _ => .instruction

theorem ofWord_of_means {head value : List Char} {item : Item} (h : Means head value item) :
    LineKind.ofWord head = item.lineKind := by
  cases h with
  | text hmem =>
    simp only [textDirectives, List.mem_cons, Prod.mk.injEq, List.not_mem_nil, or_false] at hmem
    rcases hmem with ⟨rfl, rfl⟩ | ⟨rfl, rfl⟩ | ⟨rfl, rfl⟩ | ⟨rfl, rfl⟩ <;>
      simp only [LineKind.ofWord, String.ofList_toList, lineKind]
  | const => simp only [LineKind.ofWord, String.ofList_toList, lineKind]
  | bare hhead => exact LineKind.ofWord_of_ne_dot (head_ne_dot hhead)
  | operand hhead => exact LineKind.ofWord_of_ne_dot (head_ne_dot hhead)

theorem ofLine_eq_lineKind {line : List Char} {item : Item} (h : ofLine line = .ok (some item)) :
    LineKind.ofLine line = item.lineKind := by
  cases ofLine_eq_ok_iff.mp h with
  | item hsplit hmeans =>
    rw [LineKind.ofLine, if_neg (content_ne_nil hsplit hmeans), hsplit.splitWord_eq.1,
      ofWord_of_means hmeans]

-- ---------------------------------------------------------------------------
-- Adding lines
-- ---------------------------------------------------------------------------

/-- Items of lines of different kinds are added to different parts of a chunk. -/
theorem addTo_comm (c : Chunk Value) {i j : Item} (h : i.lineKind ≠ j.lineKind) :
    addTo (addTo c i) j = addTo (addTo c j) i := by
  cases i <;> cases j <;> first | rfl | exact absurd rfl h

end Item

/-- Adds what a line holds to a chunk; a line that is wrong adds nothing. -/
def addLine (c : Chunk Value) (line : List Char) : Chunk Value :=
  match Item.ofLine line with
  | .ok (some item) => item.addTo c
  | _ => c

theorem addLine_of_ok {c : Chunk Value} {line : List Char} {item? : Option Item}
    (h : Item.ofLine line = .ok item?) : addLine c line = item?.toList.foldl Item.addTo c := by
  rw [addLine, h]
  cases item? <;> rfl

theorem addLine_comm (c : Chunk Value) (line line' : List Char)
    (h : LineKind.ofLine line ≠ LineKind.ofLine line') :
    addLine (addLine c line) line' = addLine (addLine c line') line := by
  unfold addLine
  split
  · rename_i item hitem
    split
    · rename_i item' hitem'
      rw [Item.ofLine_eq_lineKind hitem, Item.ofLine_eq_lineKind hitem'] at h
      exact Item.addTo_comm c h
    · rfl
  · rfl

/-- The items of lines that are right add up to what the lines add one by one. -/
theorem exists_items_of_grammar {ls : List (List Char)}
    (h : ∀ line ∈ ls, ∃ item?, InGrammar line item?) (number : Nat) :
    ∃ its, itemsFrom number ls = .ok its ∧ ∀ c, its.foldl Item.addTo c = ls.foldl addLine c := by
  induction ls generalizing number with
  | nil => exact ⟨[], rfl, fun _ => rfl⟩
  | cons line rest ih =>
    obtain ⟨⟨item?, hline⟩, hrest⟩ := List.forall_mem_cons.mp h
    rw [← Item.ofLine_eq_ok_iff] at hline
    obtain ⟨its, hits, hfold⟩ := ih hrest (number + 1)
    refine ⟨item?.toList ++ its, by simp only [itemsFrom, hline, hits], fun c => ?_⟩
    rw [List.foldl_append, hfold, List.foldl_cons, addLine_of_ok hline]

theorem assemble_eq_foldl_addLine {source : String}
    (h : ∀ line ∈ lines source.toList, ∃ item?, InGrammar line item?) (file : String) :
    assemble source file =
      (Block.build? ((lines source.toList).foldl addLine { filename := file, startLine := 1 })
        none []).mapError .verification := by
  obtain ⟨its, hits, hfold⟩ := exists_items_of_grammar h 1
  rw [← items] at hits
  simp only [assemble, hits, ← hfold, ← chunk_eq_foldl]
  cases Block.build? (chunk file its) none [] <;> rfl

/--
The lines of a text are all right, and those of another are the same in another order, which keeps the
order of lines of one kind. Then both texts are assembled as the same block, or the stack check refuses
both for the same cause.
-/
theorem assemble_of_reordered {source source' : String}
    (hgood : ∀ line ∈ lines source.toList, ∃ item?, InGrammar line item?)
    (h : Reordered LineKind.ofLine (lines source.toList) (lines source'.toList)) (file : String) :
    (∃ b, assemble source file = .ok b ∧ assemble source' file = .ok b) ∨
      ∃ cause, assemble source file = .error (.verification cause) ∧
        assemble source' file = .error (.verification cause) := by
  have hgood' : ∀ line ∈ lines source'.toList, ∃ item?, InGrammar line item? :=
    fun line hline => hgood line (h.mem_iff.mpr hline)
  have hchunk := h.foldl_eq addLine_comm { filename := file, startLine := 1 }
  rw [assemble_eq_foldl_addLine hgood, assemble_eq_foldl_addLine hgood', ← hchunk]
  cases Block.build? ((lines source.toList).foldl addLine { filename := file, startLine := 1 })
      none [] with
  | ok b => exact .inl ⟨b, rfl, rfl⟩
  | error cause => exact .inr ⟨cause, rfl, rfl⟩

theorem assemble_of_reordered_mixed :
    let source := ".const 2\n; two\nLOAD_CONST 0\n.name f\nRETURN"
    let source' := "LOAD_CONST 0\n.name f\nRETURN\n.const 2\n; two\n"
    (∀ line ∈ lines source.toList, ∃ item?, InGrammar line item?) ∧
    Reordered LineKind.ofLine (lines source.toList) (lines source'.toList) ∧
    ∃ b, assemble source "a.hasm" = .ok b ∧ assemble source' "a.hasm" = .ok b := by
  intro source source'
  have hlines : lines source.toList = [".const 2".toList, "; two".toList, "LOAD_CONST 0".toList,
      ".name f".toList, "RETURN".toList] := by cbv
  have hlines' : lines source'.toList = ["LOAD_CONST 0".toList, ".name f".toList, "RETURN".toList,
      ".const 2".toList, "; two".toList] := by cbv
  have hconst : Item.ofLine ".const 2".toList = .ok (some (.const 2)) := by cbv
  have hcomment : Item.ofLine "; two".toList = .ok none := by cbv
  have hload : Item.ofLine "LOAD_CONST 0".toList = .ok (some (.instruction [0x40, 0x00])) := by cbv
  have hname : Item.ofLine ".name f".toList = .ok (some (.name "f")) := by cbv
  have hreturn : Item.ofLine "RETURN".toList = .ok (some (.instruction [0x04])) := by cbv
  have hblank : LineKind.ofLine "; two".toList = .blank := by cbv
  have hdepth : stackDepth [0x40, 0x00, 0x04] = .ok 1 := by cbv
  generalize ".const 2".toList = const, "; two".toList = comment, "LOAD_CONST 0".toList = load,
    ".name f".toList = name, "RETURN".toList = last
    at hlines hlines' hconst hcomment hload hname hreturn hblank
  have hgood : ∀ line ∈ lines source.toList, ∃ item?, InGrammar line item? := by
    simp [hlines, ← Item.ofLine_eq_ok_iff, hconst, hcomment, hload, hname, hreturn]
  have hmoved : Reordered LineKind.ofLine (lines source.toList) (lines source'.toList) := by
    rw [hlines, hlines']
    refine ⟨(⟨![3, 4, 0, 1, 2], ![2, 3, 4, 0, 1], by decide, by decide⟩ : Fin 5 ≃ Fin 5),
      fun i => ?_, ?_⟩
    · fin_cases i <;> rfl
    · simp [Fin.forall_fin_succ, hblank, Item.ofLine_eq_lineKind hconst,
        Item.ofLine_eq_lineKind hload, Item.ofLine_eq_lineKind hname,
        Item.ofLine_eq_lineKind hreturn, Item.lineKind]
  refine ⟨hgood, hmoved, ?_⟩
  rcases assemble_of_reordered hgood hmoved "a.hasm" with hsame | ⟨cause, herror, -⟩
  · exact hsame
  · rw [assemble_eq_foldl_addLine hgood, hlines] at herror
    simp [addLine, hconst, hcomment, hload, hname, hreturn, Item.addTo, Block.build?, hdepth,
      Except.mapError] at herror

end Assembly

end Bytecode
