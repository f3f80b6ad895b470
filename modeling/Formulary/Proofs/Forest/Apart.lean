/-
Evaluations that have nothing to do with each other. An evaluation looks at nothing but what its root
reaches, and moves nothing but the cursors of the lists among that. So trees that reach no list in
common may be evaluated in either order, and a tree that reaches no list at all may be evaluated any
number of times.
-/
import Formulary.Proofs.Forest.Passes
import Formulary.Proofs.Forest.Search

namespace Formulary.Forest

open Relation

/-! ## Forests that agree on what a place reaches -/

/-- Another forest has the same nodes and the same cursors wherever a place leads to. Elsewhere it may
be any forest. -/
structure AgreesFrom (f g : Forest) (root : NodeId) : Prop where
  nodes : ∀ place, f.Reaches root place → g.get? place = f.get? place
  cursors : ∀ place, f.Reaches root place → g.cursor place = f.cursor place

section Agreeing

variable {f g : Forest} {root : NodeId}

theorem leads_congr (hn : ∀ place, f.Reaches root place → g.get? place = f.get? place) {a b : NodeId}
    (ha : f.Reaches root a) : g.Leads a b ↔ f.Leads a b := by
  unfold Leads
  rw [hn a ha]

theorem reaches_congr (hn : ∀ place, f.Reaches root place → g.get? place = f.get? place) {place : NodeId} :
    g.Reaches root place ↔ f.Reaches root place := by
  constructor
  · intro hr
    induction hr with
    | refl => exact .refl
    | tail _ hl ih => exact ih.tail ((leads_congr hn ih).1 hl)
  · intro hr
    induction hr with
    | refl => exact .refl
    | tail hr hl ih => exact ih.tail ((leads_congr hn hr).2 hl)

theorem Grounded.agree (hn : ∀ place, f.Reaches root place → g.get? place = f.get? place) (h : f.Grounded root) :
    g.Grounded root := by
  constructor
  · intro place hr
    obtain ⟨node, hnode⟩ := exists_get? (h.live place ((reaches_congr hn).1 hr))
    exact get?_eq_some_lt ((hn place ((reaches_congr hn).1 hr)).trans hnode)
  · intro place hr cycle
    -- a way round in the one forest is a way round in the other
    have around : ∀ last, TransGen g.Leads place last → TransGen f.Leads place last ∧ f.Reaches root last := by
      intro last hway
      induction hway with
      | single hl =>
        have hl := (leads_congr hn ((reaches_congr hn).1 hr)).1 hl
        exact ⟨.single hl, ((reaches_congr hn).1 hr).tail hl⟩
      | tail _ hl ih =>
        have hl := (leads_congr hn ih.2).1 hl
        exact ⟨ih.1.tail hl, ih.2.tail hl⟩
    exact h.acyclic place ((reaches_congr hn).1 hr) (around place cycle).1

theorem Unfolds.agree {t : FullTree} (h : f.Unfolds root t)
    (hn : ∀ place, f.Reaches root place → g.get? place = f.get? place) : g.Unfolds root t := by
  -- what a reference reaches, the root reaches too
  have below : ∀ {root next : NodeId} {node : Node}, (∀ place, f.Reaches root place → g.get? place = f.get? place) →
      f.get? root = some node → next ∈ node.references → ∀ place, f.Reaches next place → g.get? place = f.get? place :=
    fun hn hnode hnext place hr => hn place (.head ⟨_, hnode, hnext⟩ hr)
  induction t using FullTree.induct generalizing root with
  | number x => cases h with | number h => exact .number ((hn _ .refl).trans h)
  | reference t ih =>
    cases h with
    | reference h ht => exact .reference ((hn _ .refl).trans h) (ih ht (below hn h (by simp [Node.references])))
  | list id items => cases h with | list h => exact .list ((hn _ .refl).trans h)
  | binary op l r ihl ihr =>
    cases h with
    | binary h hl hr =>
      exact .binary ((hn _ .refl).trans h) (ihl hl (below hn h (by simp [Node.references, Node.children])))
        (ihr hr (below hn h (by simp [Node.references, Node.children])))
  | call op ts ih =>
    cases h with
    | call h hts =>
      refine .call ((hn _ .refl).trans h) (List.forall₂_iff_get.2 ⟨hts.length_eq, fun k hk hk' => ?_⟩)
      exact ih _ (List.getElem_mem hk') (hts.get hk hk')
        (below hn h (by simp [Node.references, Node.children, List.getElem_mem]))

/-- Evaluating in forests that agree gives the same value, and moves the cursors alike. -/
theorem AgreesFrom.evaluate (h : f.AgreesFrom g root) (hr : f.Grounded root) :
    (g.evaluate root).1 = (f.evaluate root).1 ∧ ∀ place, g.cursor place = f.cursor place →
      (g.evaluate root).2.cursor place = (f.evaluate root).2.cursor place := by
  obtain ⟨t, hu, hh⟩ := hr.exists_unfolds
  obtain ⟨t', hu', hh'⟩ := (hr.agree h.nodes).exists_unfolds
  have same : t' = t := hu'.unique (hu.agree h.nodes)
  subst same
  rw [evaluate_eq_value hu hh, evaluate_eq_value hu' hh']
  exact t'.value_congr (agreeOn_of_cursor hu' hu fun place hp =>
    h.cursors place (FullTree.reached_of_mem_lists hu hp).1)

end Agreeing

/-! ## What an evaluation leaves alone -/

theorem Grounded.cursor_evaluate {f : Forest} {root place : NodeId} (h : f.Grounded root)
    (hp : ¬ (f.Reaches root place ∧ (f.listSize? place).isSome)) :
    (f.evaluate root).2.cursor place = f.cursor place := by
  obtain ⟨t, hu, hh⟩ := h.exists_unfolds
  rw [evaluate_eq_value hu hh]
  refine FullTree.cursor_value_of_not_mem t f fun hmem => hp ?_
  obtain ⟨hr, text, items, hn⟩ := FullTree.reached_of_mem_lists hu hmem
  exact ⟨hr, by simp [listSize?, hn]⟩

/-- A tree that reaches no list leaves all of the forest as it is. -/
theorem Grounded.evaluate_still {f : Forest} {root : NodeId} (h : f.Grounded root) (hl : f.lengths root = ∅) :
    (f.evaluate root).2 = f := by
  refine ext_cursor (nodes_evaluate f root) fun place => h.cursor_evaluate ?_
  rintro ⟨hr, hs⟩
  obtain ⟨size, hs⟩ := Option.isSome_iff_exists.1 hs
  have : size ∈ f.lengths root := ⟨place, hr, hs⟩
  rw [hl] at this
  exact this

theorem Grounded.broadcast_still {f : Forest} {root : NodeId} (h : f.Grounded root) (hl : f.lengths root = ∅)
    (width : Nat) : (f.broadcast root width).2 = f := by
  rw [broadcast_eq_passes]
  exact Function.iterate_fixed (h.evaluate_still hl) _

/-! ## Evaluations in either order -/

/-- Two places reach no list in common. -/
def Apart (f : Forest) (a b : NodeId) : Prop :=
  ∀ place, f.Reaches a place → f.Reaches b place → f.listSize? place = none

/-- Two places can be evaluated in either order: each of them has the value it has on its own, and the
forest is left the same. -/
structure Commutes (f : Forest) (a b : NodeId) : Prop where
  first : ((f.evaluate b).2.evaluate a).1 = (f.evaluate a).1
  second : ((f.evaluate a).2.evaluate b).1 = (f.evaluate b).1
  forest : ((f.evaluate a).2.evaluate b).2 = ((f.evaluate b).2.evaluate a).2

section Order

variable {f : Forest} {a b : NodeId}

theorem Apart.symm (h : f.Apart a b) : f.Apart b a :=
  fun place hb ha => h place ha hb

/-- Evaluating one place changes nothing of what the other reaches. -/
theorem Apart.agrees (h : f.Apart a b) (ha : f.Grounded a) : f.AgreesFrom (f.evaluate a).2 b where
  nodes place _ := get?_congr (nodes_evaluate f a) place
  cursors place hr := by
    refine ha.cursor_evaluate ?_
    rintro ⟨hra, hs⟩
    rw [h place hra hr] at hs
    cases hs

theorem Apart.commutes (h : f.Apart a b) (ha : f.Grounded a) (hb : f.Grounded b) : f.Commutes a b := by
  obtain ⟨first, moved⟩ := (h.symm.agrees hb).evaluate ha
  obtain ⟨second, moved'⟩ := (h.agrees ha).evaluate hb
  have grounded : ∀ {c d}, f.Grounded d → (f.evaluate c).2.Grounded d := fun {c _} hd =>
    hd.agree fun place _ => get?_congr (nodes_evaluate f c) place
  -- in a forest with the same nodes, an evaluation leaves alone what it leaves alone here
  have still : ∀ {c d place}, f.Grounded d → ¬ (f.Reaches d place ∧ (f.listSize? place).isSome) →
      ((f.evaluate c).2.evaluate d).2.cursor place = (f.evaluate c).2.cursor place := by
    intro c d place hd hno
    refine (grounded hd).cursor_evaluate ?_
    rintro ⟨hr, hs⟩
    rw [listSize?_congr (get?_congr (nodes_evaluate f c) place)] at hs
    exact hno ⟨hr.congr (nodes_evaluate f c), hs⟩
  refine ⟨first, second, ext_cursor (by simp only [nodes_evaluate]) fun place => ?_⟩
  by_cases hm : f.Reaches a place ∧ (f.listSize? place).isSome
  · -- a list of the first place, which the second one does not come to
    have away : ¬ (f.Reaches b place ∧ (f.listSize? place).isSome) := by
      rintro ⟨hrb, hs⟩
      rw [h place hm.1 hrb] at hs
      cases hs
    rw [still hb away, moved place (hb.cursor_evaluate away)]
  · rw [still ha hm, moved' place (ha.cursor_evaluate hm)]

end Order

/-! ## Cursors within their lists -/

/-- No cursor is past the end of its list. -/
def Bounded (f : Forest) : Prop :=
  ∀ place size, f.listSize? place = some size → f.cursor place ≤ size

namespace Bounded

variable {f g : Forest}

theorem empty : empty.Bounded := by
  intro place size hs
  simp [listSize?, Forest.empty, get?] at hs

/-- Where the nodes are the same, it is enough that every cursor is at zero or where it was. -/
theorem moved (h : f.Bounded) (hn : g.nodes = f.nodes)
    (hc : ∀ place, g.cursor place = 0 ∨ g.cursor place = f.cursor place) : g.Bounded := by
  intro place size hs
  rw [listSize?_congr (get?_congr hn place)] at hs
  rcases hc place with zero | same
  · rw [zero]
    exact Nat.zero_le size
  · rw [same]
    exact h place size hs

theorem grown (h : f.Bounded) (hfg : f.Extends g) : g.Bounded := by
  intro place size hs
  rw [hfg.cursor]
  by_cases old : place < f.size
  · exact h place size (by rw [← listSize?_congr (hfg.get?_eq old), hs])
  · rw [cursor_of_size_le (Nat.le_of_not_lt old)]
    exact Nat.zero_le size

theorem truncate (h : f.Bounded) (size : Nat) : (f.truncate size).Bounded := by
  intro place n hs
  have kept : place < size := by
    by_contra gone
    rw [listSize?, get?_truncate, if_neg gone] at hs
    cases hs
  rw [cursor_truncate f kept]
  exact h place n (by rw [← hs, listSize?_congr (by rw [get?_truncate, if_pos kept])])

theorem rewindLists (h : f.Bounded) (root : NodeId) : (f.rewindLists root).2.Bounded := by
  refine h.moved (nodes_rewindLists f root) fun place => ?_
  rw [cursor_rewindLists]
  split
  · exact .inl rfl
  · exact .inr rfl

/-- Reading a list steps past an item of it at most. -/
theorem readItem (h : f.Bounded) {id : NodeId} {text : String} {items : Array Value}
    (hn : f.get? id = some ⟨text, .leaf (.list items)⟩) : (f.readItem id items).2.Bounded := by
  unfold Forest.readItem
  split
  · exact h
  · rename_i i hi
    have step : i < items.size := by
      unfold Series.nextIndex? at hi
      split at hi
      · cases hi
      · split at hi <;> cases hi <;> omega
    intro place size hs
    have hs : f.listSize? place = some size := hs
    rw [cursor_setCursor (get?_eq_some_lt hn)]
    split
    · rename_i same
      subst same
      have here : f.listSize? place = some items.size := by rw [listSize?, hn]
      cases hs.symm.trans here
      omega
    · exact h place size hs

theorem visit (h : f.Bounded) (height : Nat) (id : NodeId) : (f.visit height id).forest.Bounded := by
  unfold Forest.visit
  split
  · rename_i node hn
    unfold expand
    rcases node with ⟨text, (x | ⟨name, target⟩ | items) | ⟨op, lhs, rhs⟩ | ⟨g, params⟩⟩
    · exact h
    · exact h
    · exact h.readItem hn
    · exact h
    · exact h
  · exact h

theorem run (h : f.Bounded) (values : List Value) (tasks : List Task) : (f.run values tasks).2.Bounded := by
  fun_induction Forest.run f values tasks with
  | case1 f values => exact h
  | case2 f values height id rest v ih => exact ih (h.visit height id)
  | case3 f values op rest rhs lhs ih => exact ih h
  | case4 f values g count rest params ih => exact ih h

theorem evaluate (h : f.Bounded) (id : NodeId) : (f.evaluate id).2.Bounded :=
  h.run [] _

theorem broadcast (h : f.Bounded) (id : NodeId) (width : Nat) : (f.broadcast id width).2.Bounded := by
  have passed : ∀ passes, (f.passed id passes).Bounded := by
    intro passes
    induction passes with
    | zero => exact h
    | succ n ih =>
      rw [passed_succ]
      exact ih.evaluate id
  rw [broadcast_eq_passes]
  exact passed _

end Bounded

/-! ## Evaluation as a local effect -/

/-- What an evaluation depends on and what it does. It moves no cursor but those of the lists that its
root reaches, and these not past their ends. In every forest that agrees on what the root reaches it
gives the same value, leaves the cursors there the same, and leaves all others alone. -/
structure Confined (f : Forest) (root : NodeId) : Prop where
  nodes : (f.evaluate root).2.nodes = f.nodes
  still : ∀ place, ¬ (f.Reaches root place ∧ (f.listSize? place).isSome) →
    (f.evaluate root).2.cursor place = f.cursor place
  within : ∀ place size, f.listSize? place = some size → (f.evaluate root).2.cursor place ≤ size
  value : ∀ g, f.AgreesFrom g root → (g.evaluate root).1 = (f.evaluate root).1
  effect : ∀ g, f.AgreesFrom g root → ∀ place,
    (f.Reaches root place → (g.evaluate root).2.cursor place = (f.evaluate root).2.cursor place) ∧
      (¬ f.Reaches root place → (g.evaluate root).2.cursor place = g.cursor place)

theorem Grounded.confined_of_bounded {f : Forest} {root : NodeId} (h : f.Grounded root) (hb : f.Bounded) :
    f.Confined root where
  nodes := nodes_evaluate f root
  still _ hp := h.cursor_evaluate hp
  within place size hs :=
    hb.evaluate root place size (by rw [listSize?_congr (get?_congr (nodes_evaluate f root) place), hs])
  value _ hg := (hg.evaluate h).1
  effect _ hg place := ⟨fun hr => (hg.evaluate h).2 place (hg.cursors place hr), fun hr =>
    (h.agree hg.nodes).cursor_evaluate fun hp => hr ((reaches_congr hg.nodes).1 hp.1)⟩

end Formulary.Forest
