/-
Trees of labels. A diagram is what is left of a tree when only its shape and the labels at its places are
kept. Its places stand in a row, each before those below it and the parts from left to right; and the row
of their depths and labels alone tells the diagram.
-/
import Formulary.Proofs.Forest.Outline
import Formulary.Proofs.Infix.Assembly

namespace Formulary

/-- A label over the diagrams of the parts. -/
inductive Diagram where
  | node (label : String) (parts : List Diagram)

namespace Diagram

@[elab_as_elim]
theorem induct {motive : Diagram → Prop}
    (node : ∀ label parts, (∀ t ∈ parts, motive t) → motive (.node label parts)) : ∀ t, motive t
  | .node label parts => node label parts fun t _ => induct node t

/-- The label at the end of a way down, which names each part by its number. -/
def labelAt : Diagram → List Nat → Option String
  | node label _, [] => some label
  | node _ parts, k :: path =>
    match parts[k]? with
    | none => none
    | some t => t.labelAt path

/-- A diagram is its shape and the labels at its places. -/
theorem ext_labelAt {t u : Diagram} (h : ∀ path, t.labelAt path = u.labelAt path) : t = u := by
  induction t using induct generalizing u with
  | node label parts ih =>
    obtain ⟨label', parts'⟩ := u
    obtain rfl : label = label' := Option.some.inj (h [])
    congr 1
    refine List.ext_getElem? fun k => ?_
    have below : ∀ path, (node label parts).labelAt (k :: path) = (node label parts').labelAt (k :: path) :=
      fun path => h (k :: path)
    simp only [labelAt] at below
    cases ht : parts[k]? with
    | none =>
      cases hu : parts'[k]? with
      | none => rfl
      | some u =>
        obtain ⟨label', parts'⟩ := u
        have := below []
        simp [ht, hu, labelAt] at this
    | some t =>
      cases hu : parts'[k]? with
      | none =>
        obtain ⟨label', parts'⟩ := t
        have := below []
        simp [ht, hu, labelAt] at this
      | some u =>
        simp only [ht, hu] at below
        rw [ih t (List.mem_of_getElem? ht) below]

/-! ## The places in a row -/

mutual

/-- The places of a diagram with their labels: its own, then those of its parts in turn. -/
def places : Diagram → List (List Nat × String)
  | node label parts => ([], label) :: placesFrom 0 parts

/-- The places of parts that are numbered from some number on. -/
def placesFrom : Nat → List Diagram → List (List Nat × String)
  | _, [] => []
  | k, t :: ts => t.places.map (fun place => (k :: place.1, place.2)) ++ placesFrom (k + 1) ts

end

theorem mem_placesFrom {ts : List Diagram} {k : Nat} {path : List Nat} {label : String} :
    (path, label) ∈ placesFrom k ts ↔
      ∃ i rest t, path = (k + i) :: rest ∧ ts[i]? = some t ∧ (rest, label) ∈ t.places := by
  induction ts generalizing k with
  | nil => simp [placesFrom]
  | cons t ts ih =>
    rw [placesFrom, List.mem_append, ih]
    constructor
    · rintro (h | ⟨i, rest, u, rfl, hu, hmem⟩)
      · obtain ⟨⟨rest, label⟩, hmem, heq⟩ := List.mem_map.1 h
        cases heq
        exact ⟨0, rest, t, rfl, rfl, hmem⟩
      · exact ⟨i + 1, rest, u, by rw [Nat.add_assoc, Nat.add_comm 1], hu, hmem⟩
    · rintro ⟨i, rest, u, rfl, hu, hmem⟩
      cases i with
      | zero =>
        cases hu
        exact .inl (List.mem_map.2 ⟨(rest, label), hmem, rfl⟩)
      | succ i => exact .inr ⟨i, rest, u, by rw [Nat.add_assoc, Nat.add_comm 1], hu, hmem⟩

/-- The places are those to which there is a way down. -/
theorem mem_places {t : Diagram} {path : List Nat} {label : String} :
    (path, label) ∈ t.places ↔ t.labelAt path = some label := by
  induction t using induct generalizing path with
  | node top parts ih =>
    rw [places, List.mem_cons, mem_placesFrom]
    cases path with
    | nil => simp [labelAt, eq_comm]
    | cons k path =>
      rw [labelAt]
      cases ht : parts[k]? with
      | none => simp [ht]
      | some t => simp [ht, ih t (List.mem_of_getElem? ht)]

theorem pairwise_placesFrom {ts : List Diagram} (h : ∀ t ∈ ts, (t.places.map Prod.fst).Pairwise (· < ·)) (k : Nat) :
    ((placesFrom k ts).map Prod.fst).Pairwise (· < ·) := by
  induction ts generalizing k with
  | nil => exact .nil
  | cons t ts ih =>
    rw [placesFrom, List.map_append, List.pairwise_append, List.map_map]
    refine ⟨?_, ih (fun u hu => h u (List.mem_cons_of_mem _ hu)) (k + 1), ?_⟩
    · have first := h t (List.mem_cons_self ..)
      rw [List.pairwise_map] at first ⊢
      exact first.imp fun hlt => List.cons_lt_cons_self.2 hlt
    · intro path hpath other hother
      obtain ⟨⟨rest, label⟩, -, rfl⟩ := List.mem_map.1 hpath
      obtain ⟨⟨other, label'⟩, hmem, rfl⟩ := List.mem_map.1 hother
      obtain ⟨i, rest', u, rfl, -⟩ := mem_placesFrom.1 hmem
      exact List.Lex.rel (by omega)

/-- A place stands before all below it, and before those of the parts further right. -/
theorem pairwise_places (t : Diagram) : (t.places.map Prod.fst).Pairwise (· < ·) := by
  induction t using induct with
  | node label parts ih =>
    rw [places, List.map_cons, List.pairwise_cons]
    refine ⟨?_, pairwise_placesFrom ih 0⟩
    simp only [List.mem_map, Prod.exists, exists_and_right, exists_eq_right]
    rintro path ⟨label, hmem⟩
    obtain ⟨i, rest, t, rfl, -⟩ := mem_placesFrom.1 hmem
    exact List.nil_lt_cons _ _

/-! ## Depths and labels -/

/-- The depths and labels of the places, when the diagram itself stands at some depth. -/
def rows (depth : Nat) (t : Diagram) : List (Nat × String) :=
  t.places.map fun place => (depth + place.1.length, place.2)

theorem rows_placesFrom (depth k : Nat) (ts : List Diagram) :
    (placesFrom k ts).map (fun place => (depth + place.1.length, place.2)) = ts.flatMap (rows (depth + 1)) := by
  induction ts generalizing k with
  | nil => rfl
  | cons t ts ih =>
    rw [placesFrom, List.map_append, List.map_map, ih, List.flatMap_cons]
    congr 1
    refine List.map_congr_left fun place _ => ?_
    simp only [Function.comp_apply, List.length_cons, Prod.mk.injEq, and_true]
    omega

/-- First the label on top, then the rows of the parts, one deeper. -/
theorem rows_node (depth : Nat) (label : String) (parts : List Diagram) :
    (node label parts).rows depth = (depth, label) :: parts.flatMap (rows (depth + 1)) := by
  rw [rows, places, List.map_cons, rows_placesFrom]
  rfl

/-- What follows the rows of a diagram at some depth is no deeper. -/
def NotBelow (depth : Nat) (rest : List (Nat × String)) : Prop :=
  ∀ row, rest.head? = some row → row.1 ≤ depth

theorem notBelow_rows {depth : Nat} {ts : List Diagram} {rest : List (Nat × String)} (h : NotBelow depth rest) :
    NotBelow (depth + 1) (ts.flatMap (rows (depth + 1)) ++ rest) := by
  cases ts with
  | nil => exact fun row hrow => Nat.le_succ_of_le (h row hrow)
  | cons t ts =>
    obtain ⟨label, parts⟩ := t
    rw [List.flatMap_cons, rows_node]
    rintro _ ⟨⟩
    exact Nat.le_refl _

/-- Rows of parts begin deeper than what may follow them. -/
theorem ne_of_notBelow {depth : Nat} {t : Diagram} {more rest : List (Nat × String)} (h : NotBelow depth rest) :
    t.rows (depth + 1) ++ more ≠ rest := by
  obtain ⟨label, parts⟩ := t
  rw [rows_node]
  rintro rfl
  exact absurd (h _ rfl) (Nat.not_succ_le_self depth)

/-- Rows can be told from what follows them. -/
def Told (t : Diagram) : Prop :=
  ∀ {u : Diagram} {depth : Nat} {rest rest' : List (Nat × String)}, t.rows depth ++ rest = u.rows depth ++ rest' →
    NotBelow depth rest → NotBelow depth rest' → t = u ∧ rest = rest'

/-- Parts begin with the rows that are one deeper, and each of them ends before the next of these. -/
theorem told_parts {ts us : List Diagram} (ht : ∀ t ∈ ts, t.Told) {depth : Nat} {rest rest' : List (Nat × String)}
    (h : ts.flatMap (rows (depth + 1)) ++ rest = us.flatMap (rows (depth + 1)) ++ rest') (hrest : NotBelow depth rest)
    (hrest' : NotBelow depth rest') : ts = us ∧ rest = rest' := by
  induction ts generalizing us with
  | nil =>
    cases us with
    | nil => exact ⟨rfl, h⟩
    | cons u us =>
      rw [List.flatMap_cons, List.append_assoc] at h
      exact absurd h.symm (ne_of_notBelow hrest)
  | cons t ts ih =>
    cases us with
    | nil =>
      rw [List.flatMap_cons, List.append_assoc] at h
      exact absurd h (ne_of_notBelow hrest')
    | cons u us =>
      rw [List.flatMap_cons, List.flatMap_cons, List.append_assoc, List.append_assoc] at h
      obtain ⟨rfl, hmore⟩ := ht t (List.mem_cons_self ..) h (notBelow_rows hrest) (notBelow_rows hrest')
      obtain ⟨rfl, hsame⟩ := ih (fun t hm => ht t (List.mem_cons_of_mem _ hm)) hmore
      exact ⟨rfl, hsame⟩

/-- The rows tell the diagram, also where others follow that are no deeper. -/
theorem told (t : Diagram) : t.Told := by
  induction t using induct with
  | node label parts ih =>
    rintro ⟨label', parts'⟩ depth rest rest' h hrest hrest'
    rw [rows_node, rows_node, List.cons_append, List.cons_append] at h
    obtain ⟨htop, hparts⟩ := List.cons.inj h
    cases htop
    obtain ⟨rfl, hsame⟩ := told_parts ih hparts hrest hrest'
    exact ⟨rfl, hsame⟩

theorem eq_of_rows {t u : Diagram} {depth : Nat} (h : t.rows depth = u.rows depth) : t = u :=
  (t.told (congrArg (· ++ []) h) (by simp [NotBelow]) (by simp [NotBelow])).1

end Diagram

namespace Forest

/-! ## The diagram at a place -/

/-- The label at the end of a way down through children. -/
def labelAt (f : Forest) (root : NodeId) (path : List Nat) : Option String :=
  ((f.follow root path).bind f.get?).map Node.label

/-- A place has this diagram: the label of its node over the diagrams of the children. -/
inductive Draws (f : Forest) : NodeId → Diagram → Prop
  | node {id : NodeId} {node : Node} {parts : List Diagram} : f.get? id = some node →
      List.Forall₂ (Draws f) node.children parts → Draws f id (.node node.label parts)

variable {f : Forest}

/-- Where nodes refer to earlier nodes only, every live place has a diagram. -/
theorem Descends.exists_draws (hf : f.Descends) {id : NodeId} (hid : id < f.size) : ∃ t, f.Draws id t := by
  induction id using Nat.strong_induction_on with
  | _ id ih =>
    obtain ⟨node, hn⟩ := exists_get? hid
    have below : ∀ child ∈ node.children, ∃ t, f.Draws child t ∧ True := fun child hc => by
      have hlt := hf id node hn child (Node.mem_references.2 (.inr hc))
      obtain ⟨t, ht⟩ := ih child hlt (Nat.lt_trans hlt hid)
      exact ⟨t, ht, trivial⟩
    obtain ⟨parts, hparts, -⟩ := exists_forall₂ below
    exact ⟨_, .node hn hparts⟩

/-- The diagram has the labels that one comes to from the place. -/
theorem Draws.labelAt {id : NodeId} {t : Diagram} (h : f.Draws id t) (path : List Nat) :
    f.labelAt id path = t.labelAt path := by
  induction path generalizing id t with
  | nil =>
    cases h with
    | node hn _ => simp [Forest.labelAt, follow, hn, Diagram.labelAt]
  | cons k path ih =>
    cases h with
    | @node _ node parts hn hparts =>
      have onward : f.labelAt id (k :: path) = (node.children[k]?).bind fun child => f.labelAt child path := by
        rw [Forest.labelAt, follow, hn]
        simp only [followFrom]
        cases node.children[k]? <;> rfl
      rw [onward, Diagram.labelAt]
      cases hchild : node.children[k]? with
      | none =>
        rw [List.getElem?_eq_none (by rw [← hparts.length_eq]; exact List.getElem?_eq_none_iff.1 hchild)]
        rfl
      | some child =>
        obtain ⟨hk, hget⟩ := List.getElem?_eq_some_iff.1 hchild
        have hk' : k < parts.length := hparts.length_eq ▸ hk
        have drawn := hparts.get hk hk'
        rw [List.getElem?_eq_getElem hk']
        rw [List.get_eq_getElem, hget] at drawn
        exact ih drawn

/-! ## Outlines -/

/-- An outline shows nodes and no cursors. -/
theorem outline_congr {g : Forest} (hn : g.nodes = f.nodes) (id : NodeId) : g.outline id = f.outline id := by
  have lines : ∀ height depth id, g.outlineLines height depth id = f.outlineLines height depth id := by
    intro height
    induction height with
    | zero => exact fun _ _ => rfl
    | succ height ih =>
      intro depth id
      rw [outlineLines, outlineLines, get?_congr hn, funext (ih (depth + 1))]
  rw [outline_eq, outline_eq, size_congr hn, lines]

/-- The line of a label at some depth. -/
def outlineLine (row : Nat × String) : String :=
  "".pushn depthMark row.1 ++ row.2

theorem toList_outlineLine (row : Nat × String) :
    (outlineLine row).toList = List.replicate row.1 depthMark ++ row.2.toList := by
  obtain ⟨depth, label⟩ := row
  have marks : ("".pushn depthMark depth).toList = List.replicate depth depthMark := by
    rw [String.pushn_eq_repeat_push]
    induction depth with
    | zero => rfl
    | succ depth ih => rw [Nat.repeat, String.toList_push, ih, List.replicate_succ']
  rw [outlineLine, String.toList_append, marks]

/-- The lines of an outline are the rows of the diagram. -/
theorem Draws.outlineLines (hf : f.Descends) {height depth id : Nat} {t : Diagram} (h : f.Draws id t)
    (hid : id < height) : f.outlineLines height depth id = (t.rows depth).map outlineLine := by
  induction height generalizing depth id t with
  | zero => exact absurd hid (Nat.not_lt_zero id)
  | succ height ih =>
    cases h with
    | @node _ node parts hn hparts =>
      have lower : ∀ child ∈ node.children, child < height := fun child hc =>
        Nat.lt_of_lt_of_le (hf id node hn child (Node.mem_references.2 (.inr hc))) (Nat.le_of_lt_succ hid)
      simp only [Forest.outlineLines, hn, Diagram.rows_node, List.map_cons, List.map_flatMap]
      congr 1
      -- child by child
      generalize node.children = children at hparts lower
      induction hparts with
      | nil => rfl
      | cons hchild _ ihs =>
        rw [List.flatMap_cons, List.flatMap_cons, ih hchild (lower _ (List.mem_cons_self ..)),
          ihs fun child hc => lower child (List.mem_cons_of_mem _ hc)]

theorem Draws.outline_eq (hf : f.Descends) {id : NodeId} {t : Diagram} (h : f.Draws id t) (hid : id < f.size) :
    f.outline id = String.intercalate "\n" ((t.rows 0).map outlineLine) := by
  rw [Forest.outline_eq, h.outlineLines hf hid]

/-- A label that can be read back from its line: it is not empty, goes over no end of a line and does not
begin like one that stands deeper. -/
def IsLabel (label : String) : Prop :=
  label ≠ "" ∧ '\n' ∉ label.toList ∧ label.toList.head? ≠ some depthMark

instance (label : String) : Decidable (IsLabel label) :=
  inferInstanceAs (Decidable (_ ∧ _ ∧ _))

/-- The depth and the label can be read back from the line. -/
theorem outlineLine_injective {row row' : Nat × String} (hrow : IsLabel row.2) (hrow' : IsLabel row'.2)
    (h : outlineLine row = outlineLine row') : row = row' := by
  have marks : ∀ (depth : Nat) {label : String}, IsLabel label →
      (List.replicate depth depthMark ++ label.toList).dropWhile (· = depthMark) = label.toList ∧
        (List.replicate depth depthMark ++ label.toList).takeWhile (· = depthMark) =
          List.replicate depth depthMark := by
    rintro depth label ⟨hne, -, hhead⟩
    obtain ⟨c, rest, hlabel⟩ := List.exists_cons_of_ne_nil (fun h => hne (String.toList_eq_nil_iff.1 h))
    rw [hlabel] at hhead ⊢
    have hc : c ≠ depthMark := fun h => hhead (congrArg some h)
    rw [List.dropWhile_append_of_pos (by simp), List.takeWhile_append_of_pos (by simp)]
    simp [hc]
  have same := congrArg String.toList h
  rw [toList_outlineLine, toList_outlineLine] at same
  obtain ⟨hdrop, htake⟩ := marks row.1 hrow
  obtain ⟨hdrop', htake'⟩ := marks row'.1 hrow'
  rw [same, hdrop'] at hdrop
  rw [same, htake'] at htake
  refine Prod.ext ?_ (String.toList_inj.1 hdrop.symm)
  simpa using congrArg List.length htake.symm

/-- The diagram at a place has labels that can be read back. -/
def Labelled (t : Diagram) : Prop :=
  ∀ path label, t.labelAt path = some label → IsLabel label

theorem isLabel_of_mem_rows {t : Diagram} (h : Labelled t) {depth : Nat} {row : Nat × String}
    (hrow : row ∈ t.rows depth) : IsLabel row.2 := by
  obtain ⟨⟨path, label⟩, hmem, rfl⟩ := List.mem_map.1 hrow
  exact h path label (Diagram.mem_places.1 hmem)

/-- The text of an outline, cut at the ends of its lines. -/
theorem Draws.lines_outline (hf : f.Descends) {id : NodeId} {t : Diagram} (h : f.Draws id t) (hid : id < f.size)
    (ht : Labelled t) : (f.outline id).toList.splitOn '\n' = t.places.map fun place =>
      List.replicate place.1.length depthMark ++ place.2.toList := by
  have lines : (f.outline id).toList = ['\n'].intercalate ((t.rows 0).map fun row => (outlineLine row).toList) := by
    rw [h.outline_eq hf hid, String.toList_intercalate, List.map_map]
    rfl
  rw [lines, List.splitOn_intercalate]
  · rw [Diagram.rows, List.map_map]
    refine List.map_congr_left fun place _ => ?_
    simp [toList_outlineLine]
  · intro line hline
    obtain ⟨row, hrow, rfl⟩ := List.mem_map.1 hline
    rw [toList_outlineLine, List.mem_append]
    rintro (hm | hm)
    · cases List.eq_of_mem_replicate hm
    · exact (isLabel_of_mem_rows ht hrow).2.1 hm
  · obtain ⟨label, parts⟩ := t
    simp [Diagram.rows_node]

/-- Outlines of the same text are those of the same diagram. -/
theorem Draws.outline_inj (hf : f.Descends) {id other : NodeId} {t u : Diagram} (ht : f.Draws id t)
    (hu : f.Draws other u) (hid : id < f.size) (hother : other < f.size) (hlt : Labelled t) (hlu : Labelled u)
    (h : f.outline id = f.outline other) : t = u := by
  have lines := (ht.lines_outline hf hid hlt).symm.trans ((congrArg (·.toList.splitOn '\n') h).trans
    (hu.lines_outline hf hother hlu))
  have same : (t.rows 0).map outlineLine = (u.rows 0).map outlineLine := by
    refine List.map_injective_iff.2 (fun _ _ => String.toList_inj.1) ?_
    simpa [Diagram.rows, Function.comp_def, toList_outlineLine] using lines
  refine Diagram.eq_of_rows (List.ext_getElem (by simpa using congrArg List.length same) fun k hk hk' => ?_)
  have labels := isLabel_of_mem_rows hlt (List.getElem_mem hk)
  have labels' := isLabel_of_mem_rows hlu (List.getElem_mem hk')
  refine outlineLine_injective labels labels' ?_
  have line := List.getElem_of_eq same (by simpa using hk)
  rwa [List.getElem_map, List.getElem_map] at line

end Forest

end Formulary
