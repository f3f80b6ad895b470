/-
What the outline of a tree tells. In a session that has come about every label can be read back from its
line, so the outline shows the places of the tree in a row, one line each, and two trees have the same
outline only if they have the same shape and the same label everywhere.
-/
import Formulary.Proofs.Forest.Diagram
import Formulary.Proofs.Session.Lexeme

namespace Formulary

open Text Infix Reading Forest

/-! ## Texts of values -/

namespace Number

/-- A decimal is written with digits and at most a point. -/
theorem isDigit_of_mem_layout {d : Decimal} {c : Char} (h : c ∈ d.layout) : c.isDigit = true ∨ c = '.' := by
  have digit : c ∈ Nat.toDigits 10 d.digits → c.isDigit = true :=
    Nat.isDigit_of_mem_toDigits (by decide) (by decide)
  have zero : ∀ n, c ∈ List.replicate n '0' → c.isDigit = true := fun n hc => by
    rw [List.eq_of_mem_replicate hc]
    rfl
  simp only [Decimal.layout] at h
  split at h
  · rcases List.mem_append.1 h with h | h
    · exact .inl (digit h)
    · exact .inl (zero _ h)
  · split at h
    · rcases List.mem_append.1 h with h | h
      · exact .inl (digit (List.mem_of_mem_take h))
      · rcases List.mem_cons.1 h with h | h
        · exact .inr h
        · exact .inl (digit (List.mem_of_mem_drop h))
    · simp only [List.cons_append, List.mem_cons, List.mem_append] at h
      rcases h with rfl | h | h | h
      · exact .inl rfl
      · exact .inr h
      · exact .inl (zero _ h)
      · exact .inl (digit h)

theorem newline_notMem_text (x : Float) : '\n' ∉ (text x).toList := by
  have layout : ∀ d : Decimal, '\n' ∉ d.layout := fun d h => by
    rcases isDigit_of_mem_layout h with h | h <;> revert h <;> decide
  unfold text
  split
  · decide
  · rename_i negative _
    cases negative <;> decide
  · rename_i negative _ _
    cases negative <;> decide
  · rename_i negative _ _ _ _
    cases negative <;> simp [layout]

end Number

namespace Value

theorem newline_notMem_text (v : Value) : '\n' ∉ v.text.toList := by
  cases v with
  | number x =>
    rw [text]
    split
    · decide
    · exact Number.newline_notMem_text x
  | boolean b => cases b <;> decide

theorem newline_notMem_intercalate (items : List Value) :
    '\n' ∉ [',', ' '].intercalate (items.map fun v => v.text.toList) := by
  induction items with
  | nil => simp
  | cons v items ih =>
    cases items with
    | nil => simpa using v.newline_notMem_text
    | cons w items =>
      rw [List.map_cons, List.map_cons, List.intercalate_cons_cons, List.mem_append, List.mem_append, not_or, not_or]
      exact ⟨⟨v.newline_notMem_text, by decide⟩, ih⟩

/-- The items of a list stand between brackets on one line. -/
theorem isLabel_listText (items : List Value) : IsLabel (listText items) := by
  have spelled : (listText items).toList =
      '[' :: ([',', ' '].intercalate (items.map fun v => v.text.toList) ++ [']']) := by
    simp [listText, Function.comp_def]
  refine ⟨fun h => ?_, ?_, ?_⟩
  · rw [h] at spelled
    cases spelled
  · rw [spelled]
    simp [newline_notMem_intercalate]
  · rw [spelled, List.head?_cons]
    decide

end Value

/-! ## Labels of nodes -/

theorem Operator.isLabel_symbol (op : Operator) : IsLabel op.symbol := by
  cases op <;> decide

theorem Builtin.isLabel_symbol (f : Builtin) : IsLabel f.symbol := by
  cases f <;> decide

/-- A text without line ends and marks of depth is a label. -/
theorem isLabel_of_chars {text : String} (hne : text ≠ "") (h : ∀ c ∈ text.toList, c ≠ '\n' ∧ c ≠ depthMark) :
    IsLabel text :=
  ⟨hne, fun hm => (h _ hm).1 rfl, fun hm => (h _ (List.mem_of_mem_head? hm)).2 rfl⟩

theorem isLabel_of_isName {name : String} (h : IsName name) : IsLabel name := by
  refine isLabel_of_chars h.1 fun c hc => ?_
  have := h.2.1 c hc
  constructor <;> rintro rfl <;> exact absurd this (by decide)

theorem isLabel_of_numeral {text : String} (h : Numeral text.toList) : IsLabel text := by
  obtain ⟨sign, whole, fraction, htext, hsign, hwhole, hfraction⟩ := h
  have clean : ∀ {c : Char}, isDigit c = true → c ≠ '\n' ∧ c ≠ depthMark := fun hc => by
    constructor <;> rintro rfl <;> exact absurd hc (by decide)
  refine isLabel_of_chars ?_ fun c hc => ?_
  · rintro rfl
    simp [hwhole.1] at htext
  · rw [htext, List.mem_append, List.mem_append] at hc
    rcases hc with hc | hc | hc
    · rcases hsign with rfl | rfl
      · cases hc
      · rw [List.mem_singleton.1 hc]
        decide
    · exact clean (hwhole.2 c hc)
    · rcases hfraction with rfl | ⟨digits, rfl, hdigits⟩
      · cases hc
      · rcases List.mem_cons.1 hc with rfl | hc
        · decide
        · exact clean (hdigits.2 c hc)

/-- The label of a node that is what its text says. -/
theorem Node.Lexical.isLabel {node : Node} (h : node.Lexical) : IsLabel node.label := by
  rcases node with ⟨text, (x | ⟨name, target⟩ | items) | ⟨op, lhs, rhs⟩ | ⟨f, params⟩⟩
  · exact isLabel_of_numeral h.1
  · exact isLabel_of_isName (h.1 ▸ h.2)
  · exact Value.isLabel_listText items.toList
  · have symbol : text = op.symbol := h
    exact symbol ▸ op.isLabel_symbol
  · have symbol : text = f.symbol := h.1
    exact symbol ▸ f.isLabel_symbol

namespace Session

variable {s : Session}

/-- Every place of a session has a diagram, with labels that can be read back. -/
theorem Reachable.exists_labelled (h : s.Reachable) {id : NodeId} (hid : id < s.forest.size) :
    ∃ t, s.forest.Draws id t ∧ Labelled t := by
  obtain ⟨t, ht⟩ := h.laid.descends.exists_draws hid
  refine ⟨t, ht, fun path label hlabel => ?_⟩
  rw [← ht.labelAt, Forest.labelAt, Option.map_eq_some_iff] at hlabel
  obtain ⟨node, hnode, rfl⟩ := hlabel
  obtain ⟨place, -, hplace⟩ := Option.bind_eq_some_iff.1 hnode
  exact (Node.lexical_of_atom (h.lexical place node hplace) (h.laid.applied place node hplace)).isLabel

/-- For every session that has come about: two places have the same outline just if the trees there have
the same shape and the same label at every place, whatever variables stand for. The outline has one line
for each node of the tree, a node before those below it and children from left to right: the label behind
a mark for each level. It depends on the nodes alone, and as it is only a text, no cursor moves for it. -/
theorem Reachable.outline_faithful (h : s.Reachable) :
    (∀ id other, id < s.forest.size → other < s.forest.size →
      (s.forest.outline id = s.forest.outline other ↔
        ∀ path, s.forest.labelAt id path = s.forest.labelAt other path)) ∧
    (∀ id, id < s.forest.size →
      (∀ path other place, s.forest.follow id path = some place → s.forest.follow id other = some place →
        path = other) ∧
      ∃ places : List (List Nat × String), (places.map Prod.fst).Pairwise (· < ·) ∧
        (∀ path label, (path, label) ∈ places ↔ s.forest.labelAt id path = some label) ∧
        (s.forest.outline id).toList.splitOn '\n' =
          places.map fun place => List.replicate place.1.length depthMark ++ place.2.toList) ∧
    ∀ g : Forest, g.nodes = s.forest.nodes → ∀ id, g.outline id = s.forest.outline id := by
  have descends := h.laid.descends
  refine ⟨fun id other hid hother => ?_, fun id hid => ⟨fun path other place hp ho => ?_, ?_⟩, fun g hg id => ?_⟩
  · obtain ⟨t, ht, hlt⟩ := h.exists_labelled hid
    obtain ⟨u, hu, hlu⟩ := h.exists_labelled hother
    constructor
    · intro same path
      rw [ht.labelAt, hu.labelAt, ht.outline_inj descends hu hid hother hlt hlu same]
    · intro same
      have alike : t = u := Diagram.ext_labelAt fun path => by rw [← ht.labelAt, ← hu.labelAt, same]
      rw [ht.outline_eq descends hid, hu.outline_eq descends hother, alike]
  · obtain ⟨first, spans⟩ := h.laid.rows.exists_singleton (Nat.zero_le id) hid
    exact spans.follow_unique hp ho
  · obtain ⟨t, ht, hlt⟩ := h.exists_labelled hid
    refine ⟨t.places, t.pairwise_places, fun path label => ?_, ht.lines_outline descends hid hlt⟩
    rw [Diagram.mem_places, ht.labelAt]
  · exact outline_congr hg id

/-- A product with a list, before and after its name is bound anew. -/
def rebound : Session :=
  (((((new {}).parse "k=3").2.parse "[1,2]*sqrt(k)").2.parse "k=4").2.parse "[1,2]*sqrt(k)").2

theorem outline_faithful_rebound : rebound.Reachable ∧ rebound.trees = #[0, 4, 5, 9] ∧
    rebound.forest.outline 4 = "*\n·[1, 2]\n·sqrt\n··k" ∧
    (∀ path, rebound.forest.labelAt 4 path = rebound.forest.labelAt 9 path) ∧
    ¬ ∀ path, rebound.forest.labelAt 4 path = rebound.forest.labelAt 5 path := by
  have reached : rebound.Reachable := .parse _ (.parse _ (.parse _ (.parse _ (.new _))))
  have faithful := reached.outline_faithful.1
  refine ⟨reached, by decide +kernel, by decide +kernel, ?_, ?_⟩
  · exact (faithful 4 9 (by decide +kernel) (by decide +kernel)).1 (by decide +kernel)
  · exact fun same => absurd ((faithful 4 5 (by decide +kernel) (by decide +kernel)).2 same) (by decide +kernel)

end Session

end Formulary
