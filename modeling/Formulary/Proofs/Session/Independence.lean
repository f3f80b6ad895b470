/-
How far the lists have been read does not matter to a formula. Two sessions that differ in nothing
but the cursors of their lists answer a formula alike, are alike again afterwards, and if the formula
is accepted, they answer alike for its values: whatever the formula reads of the lists there were has
been put back on its first item while the formula was read.
-/
import Formulary.Proofs.Session.Refusal
import Formulary.Proofs.Reading.Alike

namespace Formulary.Session

open Reading Relation

/-- Two sessions differ in nothing but the cursors of their lists. -/
structure Alike (s s' : Session) : Prop where
  twin : s' = { s with forest := s'.forest }
  nodes : s'.forest.nodes = s.forest.nodes

namespace Alike

variable {s s' s'' : Session}

theorem refl (s : Session) : s.Alike s :=
  ⟨rfl, rfl⟩

theorem trans (h : s.Alike s') (h' : s'.Alike s'') : s.Alike s'' where
  twin := by rw [h'.twin, h.twin]
  nodes := h'.nodes.trans h.nodes

/-- What they read formulas against is the same. -/
theorem scope (h : s.Alike s') : s'.scope = s.scope := by
  rw [h.twin]
  rfl

theorem bindings (h : s.Alike s') : s'.bindings = s.bindings := by
  rw [h.twin]

end Alike

/-- Nothing that is asked of a session changes more than cursors. -/
theorem Asked.alike {s s' : Session} (h : s.Asked s') : s.Alike s' where
  twin := by
    cases h with
    | values =>
      unfold Session.values
      split <;> rfl
    | evaluate | broadcast | rewind => rfl
  nodes := h.nodes

/-- However often a session is asked. -/
theorem alike_of_asked {s s' : Session} (h : ReflTransGen Asked s s') : s.Alike s' := by
  induction h with
  | refl => exact .refl s
  | tail _ ha ih => exact ih.trans ha.alike

variable {s s' : Session} {text : String}

/-- The tokens of a text lead to drafts that are alike. -/
theorem Laid.alike_drafts (laid : s.Laid) (h : s.Alike s') {d : Draft}
    (hd : s.draft.takeAll s.bindings (read s.scope text).tokens = some d) :
    ∃ d', s'.draft.takeAll s'.bindings (read s'.scope text).tokens = some d' ∧
      Draft.Alike s.bindings s.forest d d' := by
  rw [h.bindings, h.scope]
  exact (Draft.Alike.start s.bindings h.nodes).takeAll laid.descends laid.lookup_lt hd

/-- A formula is refused in both with the same error, and both go on with the nodes they had. -/
theorem Laid.alike_of_refused (laid : s.Laid) (h : s.Alike s') {error : ReadError}
    (he : (read s.scope text).error? = some error) :
    (s'.parse text).1 = (s.parse text).1 ∧ (s.parse text).2.Alike (s'.parse text).2 := by
  obtain ⟨d, hd⟩ := s.exists_takeAll text
  obtain ⟨d', hd', alike⟩ := laid.alike_drafts h hd
  have nodes := alike.nodes'.trans alike.nodes.symm
  rw [parse_of_error hd he, parse_of_error hd' (by rw [h.scope]; exact he)]
  refine ⟨rfl, ⟨?_, ?_⟩⟩
  · simp only [refuse]
    rw [h.twin]
  · show d'.forest.nodes.shrink s'.forest.size = d.forest.nodes.shrink s.forest.size
    rw [nodes, Forest.size_congr h.nodes]

/-- A formula is accepted in both with the same tree, and the values of the tree are the same. -/
theorem Laid.alike_of_accepted (laid : s.Laid) (h : s.Alike s') (he : (read s.scope text).error? = none) :
    (s'.parse text).1 = (s.parse text).1 ∧ (s.parse text).2.Alike (s'.parse text).2 ∧
      (s'.parse text).2.values.1 = (s.parse text).2.values.1 := by
  obtain ⟨d, root, g, hd, hfin, accepted⟩ := parse_of_ok ((result_parse_iff s text).2 he)
  obtain ⟨d', hd', alike⟩ := laid.alike_drafts h hd
  obtain ⟨g', hfin', nodes, t, hu, hh, hu', hh', cursors⟩ :=
    alike.finish laid.descends laid.lookup_lt hfin
  have width : d'.width = d.width := by rw [alike.twin]
  have accepted' : s'.parse text = s'.accept text (read s.scope text).target root g' d.width := by
    obtain ⟨e, root', forest, hd'', hfin'', hp⟩ := parse_of_ok
      ((result_parse_iff s' text).2 (by rw [h.scope]; exact he))
    cases hd'.symm.trans hd''
    cases hfin'.symm.trans hfin''
    rw [hp, h.scope, width]
  have size : s'.forest.size = s.forest.size := Forest.size_congr h.nodes
  have grown : g'.size = g.size := Forest.size_congr nodes
  have answers : (s'.parse text).1 = (s.parse text).1 := by
    rw [accepted, accepted']
    unfold Session.accept
    rw [size, grown, h.twin]
    cases (read s.scope text).target <;> rfl
  have same : (s.parse text).2.Alike (s'.parse text).2 := by
    refine ⟨?_, by rw [accepted, accepted', forest_accept, forest_accept, nodes]⟩
    rw [accepted, accepted', forest_accept]
    unfold Session.accept
    rw [h.twin]
    cases (read s.scope text).target <;> rfl
  refine ⟨answers, same, ?_⟩
  rw [accepted, accepted', values_accept, values_accept, Forest.broadcast_congr hu hh hu' hh' cursors]

/-- Two sessions answer a formula alike: the answer is the same, afterwards they still differ in
nothing but cursors, and if the formula is accepted, so are the answers for its values. -/
structure AnswersAlike (s s' : Session) (text : String) : Prop where
  answer : (s'.parse text).1 = (s.parse text).1
  after : (s.parse text).2.Alike (s'.parse text).2
  values : (s.parse text).1.result = .ok () → (s'.parse text).2.values.1 = (s.parse text).2.values.1

/-- A session that has come about answers every formula as any other one does that differs from it in
nothing but cursors, and so as it would itself after it had been asked for whatever values before. -/
theorem Reachable.independent (h : s.Reachable) :
    (∀ s', s.Alike s' → ∀ text, s.AnswersAlike s' text) ∧
    ∀ s', ReflTransGen Asked s s' → ∀ text, s.AnswersAlike s' text := by
  have answers : ∀ s', s.Alike s' → ∀ text, s.AnswersAlike s' text := by
    intro s' alike text
    cases he : (read s.scope text).error? with
    | some error =>
      obtain ⟨answer, after⟩ := h.laid.alike_of_refused alike he
      refine ⟨answer, after, fun hok => ?_⟩
      rw [(result_parse_iff s text).1 hok] at he
      cases he
    | none =>
      obtain ⟨answer, after, values⟩ := h.laid.alike_of_accepted alike he
      exact ⟨answer, after, fun _ => values⟩
  exact ⟨answers, fun s' asked => answers s' (alike_of_asked asked)⟩

/-- Evaluating `a` moves its cursor, but `a+[a]` answers as if it had not been moved. -/
theorem independent_listBound : listBound.Reachable ∧
    ∃ s', ReflTransGen Asked listBound s' ∧ s'.forest.cursor 0 ≠ listBound.forest.cursor 0 ∧
      (listBound.parse "a+[a]").1.result = .ok () ∧
      (s'.parse "a+[a]").2.values.1 = (listBound.parse "a+[a]").2.values.1 := by
  have reached : listBound.Reachable := .parse _ (.new {})
  have asked : ReflTransGen Asked listBound { listBound with forest := (listBound.forest.evaluate 0).2 } :=
    .single (.evaluate listBound 0)
  obtain ⟨f, width, v, w, hs, hsize, hcursor, hlist⟩ := listBound_eq
  have hok : (listBound.parse "a+[a]").1.result = .ok () := by
    rw [result_parse_iff, scope_listBound]
    decide +kernel
  refine ⟨reached, _, asked, ?_, hok, ((reached.independent.2 _ asked) "a+[a]").values hok⟩
  have unfolds : f.Unfolds 0 (.list 0 #[v, w]) := .list hlist
  rw [hs]
  simp [Forest.evaluate_eq_value unfolds (Nat.le_of_eq hsize.symm), FullTree.cursor_value unfolds, Forest.listSize?,
    hlist, FullTree.lists, FullTree.after, FullTree.nextItem, hcursor]

end Formulary.Session
