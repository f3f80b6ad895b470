/-
Sessions as they come about, and what reading a formula can do to one. A formula is either refused,
and then the nodes are those there were, or it is accepted, and then its tree lies behind them.
-/
import Formulary.Proofs.Session.Parse

namespace Formulary

open Reading Relation

/-- What a name is bound to right after some name was bound. -/
theorem Bindings.lookup_bind (b : Bindings) (name : String) (root : NodeId) (other : String) :
    (b.bind name root).lookup other = if other = name then some root else b.lookup other := by
  show ((name, root) :: b.entries.filter (·.1 ≠ name)).lookup other = _
  by_cases same : other = name
  · rw [same, List.lookup_cons_self, if_pos rfl]
  · have drop : ∀ {key : String} {place : NodeId} {rest : List (String × NodeId)}, other ≠ key →
        ((key, place) :: rest).lookup other = rest.lookup other := by
      intro key place rest hne
      rw [List.lookup_cons, beq_eq_false_iff_ne.2 hne]
    rw [if_neg same, drop same]
    show _ = b.entries.lookup other
    induction b.entries with
    | nil => rfl
    | cons entry entries ih =>
      by_cases gone : entry.1 = name
      · rw [List.filter_cons_of_neg (by simpa using gone), ih]
        exact (drop fun h => same (h.trans gone)).symm
      · rw [List.filter_cons_of_pos (by simpa using gone), List.lookup_cons, List.lookup_cons, ih]

namespace Session

/-- The sessions that can come about: from a new one by reading formulas, whether they are accepted
or refused, by asking for values, and by evaluating and rewinding any tree by its place. -/
inductive Reachable : Session → Prop
  | new (options : Options) : Reachable (Session.new options)
  | parse {s : Session} (text : String) : Reachable s → Reachable (s.parse text).2
  | values {s : Session} : Reachable s → Reachable s.values.2
  | evaluate {s : Session} (id : NodeId) : Reachable s → Reachable { s with forest := (s.forest.evaluate id).2 }
  | broadcast {s : Session} (id : NodeId) (width : Nat) :
      Reachable s → Reachable { s with forest := (s.forest.broadcast id width).2 }
  | rewind {s : Session} (id : NodeId) : Reachable s → Reachable { s with forest := (s.forest.rewindLists id).2 }

/-- What can be asked of a session between two formulas: its values, and the evaluation or rewinding
of any tree by its place. -/
inductive Asked : Session → Session → Prop
  | values (s : Session) : Asked s s.values.2
  | evaluate (s : Session) (id : NodeId) : Asked s { s with forest := (s.forest.evaluate id).2 }
  | broadcast (s : Session) (id : NodeId) (width : Nat) :
      Asked s { s with forest := (s.forest.broadcast id width).2 }
  | rewind (s : Session) (id : NodeId) : Asked s { s with forest := (s.forest.rewindLists id).2 }

/-- None of this changes a node. -/
theorem Asked.nodes {s s' : Session} (h : s.Asked s') : s'.forest.nodes = s.forest.nodes := by
  cases h with
  | values =>
    unfold Session.values
    split
    · rfl
    · exact Forest.nodes_broadcast _ _ _
  | evaluate id => exact Forest.nodes_evaluate _ id
  | broadcast id width => exact Forest.nodes_broadcast _ id width
  | rewind id => exact Forest.nodes_rewindLists _ id

/-- One step of a run: a formula is read, accepted or not, or something is asked. -/
inductive Step : Session → Session → Prop
  | parse (s : Session) (text : String) : Step s (s.parse text).2
  | asked {s s' : Session} : Asked s s' → Step s s'

/-- A run leads from one session to another. -/
def Later : Session → Session → Prop :=
  ReflTransGen Step

theorem Reachable.step {s s' : Session} (h : s.Reachable) (hs : s.Step s') : s'.Reachable := by
  cases hs with
  | parse text => exact .parse text h
  | asked ha =>
    cases ha with
    | values => exact .values h
    | evaluate id => exact .evaluate id h
    | broadcast id width => exact .broadcast id width h
    | rewind id => exact .rewind id h

/-- The sessions that can come about are those that runs from new sessions lead to. -/
theorem reachable_iff_later {s : Session} : s.Reachable ↔ ∃ options, (Session.new options).Later s := by
  constructor
  · intro h
    induction h with
    | new options => exact ⟨options, .refl⟩
    | parse text _ ih =>
      obtain ⟨options, run⟩ := ih
      exact ⟨options, run.tail (.parse _ text)⟩
    | values _ ih =>
      obtain ⟨options, run⟩ := ih
      exact ⟨options, run.tail (.asked (.values _))⟩
    | evaluate id _ ih =>
      obtain ⟨options, run⟩ := ih
      exact ⟨options, run.tail (.asked (.evaluate _ id))⟩
    | broadcast id width _ ih =>
      obtain ⟨options, run⟩ := ih
      exact ⟨options, run.tail (.asked (.broadcast _ id width))⟩
    | rewind id _ ih =>
      obtain ⟨options, run⟩ := ih
      exact ⟨options, run.tail (.asked (.rewind _ id))⟩
  · rintro ⟨options, run⟩
    induction run with
    | refl => exact .new options
    | tail _ hs ih => exact ih.step hs

/-- A formula is refused with an error and the nodes there were, or accepted with the tree that its
tokens come to. -/
theorem parse_cases (s : Session) (text : String) :
    (∃ error forest, (forest.truncate s.forest.size).nodes = s.forest.nodes ∧
      s.parse text = s.refuse text forest s.forest.size error) ∨
    ∃ d root forest, s.draft.takeAll s.bindings (read s.scope text).tokens = some d ∧
      (read s.scope text).error? = none ∧ d.yard.finish d.forest = (some root, forest) ∧
      s.parse text = s.accept text (read s.scope text).target root forest d.width := by
  rw [parse_eq]
  unfold build draft
  simp only
  cases hd : Draft.takeAll s.bindings { forest := s.forest } (read s.scope text).tokens with
  | none => exact .inl ⟨_, s.forest, by rw [Forest.truncate_size], rfl⟩
  | some d =>
    have kept := (Draft.Over.start s.bindings s.forest).takeAll hd
    cases he : (read s.scope text).error? with
    | some error =>
      refine .inl ⟨error, d.forest, ?_, rfl⟩
      rw [← kept.size, Forest.truncate_size, kept.nodes]
    | none =>
      cases hf : d.yard.finish d.forest with
      | mk root? forest =>
        cases root? with
        | some root => exact .inr ⟨d, root, forest, rfl, rfl, hf, by simp only [hf]⟩
        | none =>
          refine .inl ⟨(read s.scope text).stop.error .expectedExpression, forest, ?_, by simp only [hf]⟩
          have grown := Forest.grown_finish hf
          rw [← kept.size, Forest.nodes_truncate_of_extends grown.toExtends rfl, kept.nodes]

/-- A formula that is accepted has been put together from its tokens. -/
theorem parse_of_ok {s : Session} {text : String} (hok : (s.parse text).1.result = .ok ()) :
    ∃ d root forest, s.draft.takeAll s.bindings (read s.scope text).tokens = some d ∧
      d.yard.finish d.forest = (some root, forest) ∧
      s.parse text = s.accept text (read s.scope text).target root forest d.width := by
  rcases s.parse_cases text with ⟨error, forest, -, hp⟩ | ⟨d, root, forest, hd, -, hfin, hp⟩
  · rw [hp] at hok
    cases hok
  · exact ⟨d, root, forest, hd, hfin, hp⟩

theorem forest_accept (s : Session) (text : String) (target : Option String) (root : NodeId) (forest : Forest)
    (width : Nat) : (s.accept text target root forest width).2.forest = forest := by
  unfold accept
  cases target <;> rfl

theorem trees_accept (s : Session) (text : String) (target : Option String) (root : NodeId) (forest : Forest)
    (width : Nat) : (s.accept text target root forest width).2.trees = s.trees.push root := by
  unfold accept
  cases target <;> rfl

theorem root?_accept (s : Session) (text : String) (target : Option String) (root : NodeId) (forest : Forest)
    (width : Nat) : (s.accept text target root forest width).2.root? = some root := by
  unfold accept
  cases target <;> rfl

theorem width_accept (s : Session) (text : String) (target : Option String) (root : NodeId) (forest : Forest)
    (width : Nat) : (s.accept text target root forest width).2.width = width := by
  unfold accept
  cases target <;> rfl

/-- What a session answers for its values right after a formula was accepted. -/
theorem values_accept (s : Session) (text : String) (target : Option String) (root : NodeId) (forest : Forest)
    (width : Nat) : (s.accept text target root forest width).2.values.1 =
      ⟨some (forest.broadcast root (max width 1)).1, [.evaluating root (max width 1)]⟩ := by
  unfold accept
  cases target <;> rfl

theorem result_accept (s : Session) (text : String) (target : Option String) (root : NodeId) (forest : Forest)
    (width : Nat) : (s.accept text target root forest width).1.result = .ok () := by
  unfold accept
  cases target <;> rfl

theorem bindings_accept (s : Session) (text : String) (target : Option String) (root : NodeId) (forest : Forest)
    (width : Nat) : (s.accept text target root forest width).2.bindings =
      target.elim s.bindings (s.bindings.bind · root) := by
  unfold accept
  cases target <;> rfl

theorem lookup_accept {s : Session} {text : String} {target : Option String} {root : NodeId} {forest : Forest}
    {width : Nat} {name : String} {bound : NodeId}
    (h : (s.accept text target root forest width).2.bindings.lookup name = some bound) :
    bound = root ∨ s.bindings.lookup name = some bound := by
  unfold accept at h
  cases target with
  | none => exact .inr h
  | some target =>
    simp only at h
    rw [Bindings.lookup_bind] at h
    split at h
    · cases h
      exact .inl rfl
    · exact .inr h

/-- Whether it is accepted or not, a formula leaves all nodes where they are. -/
theorem within_parse (s : Session) (text : String) : s.forest.Within (s.parse text).2.forest := by
  rcases s.parse_cases text with ⟨error, forest, hn, hp⟩ | ⟨d, root, forest, hd, -, hfin, hp⟩
  · rw [hp]
    exact .of_nodes hn.symm
  · have kept := (Draft.Over.start s.bindings s.forest).takeAll hd
    have grown := Forest.grown_finish hfin
    rw [hp, forest_accept]
    exact (Forest.Within.of_nodes kept.nodes.symm).trans grown.toExtends.within

end Session

end Formulary
