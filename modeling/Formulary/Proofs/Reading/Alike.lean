/-
Two readings of the same tokens over forests that differ in nothing but cursors. They stay alike: the
same atoms wait and have gone out, the same items have been computed, and the same lists are the
longest. For the only cursors that an item reads are those of lists that its variables reach, and
these were rewound when the variables were read, in the same way in both.
-/
import Formulary.Proofs.Reading.Frame
import Formulary.Proofs.Forest.Rewound

namespace Formulary

open Infix Forest

namespace Forest

variable {y : Yard} {f g : Forest} {root : NodeId}

/-- Put together over two forests with the same nodes, a yard has one tree, and the cursors of its
lists are the same in both as soon as those that the yard refers to are. -/
theorem finish_alike {f' g' : Forest} (hn : f'.nodes = f.nodes) (hf : f.Descends)
    (ht : ∀ a ∈ y.atoms, ∀ target, a.target? = some target → target < f.size) (h : y.finish f = (some root, g))
    (h' : y.finish f' = (some root, g')) (hc : ∀ place, y.Refers f place → f.cursor place = f'.cursor place) :
    ∃ t, g.Unfolds root t ∧ t.height ≤ g.size ∧ g'.Unfolds root t ∧ t.height ≤ g'.size ∧
      ∀ place ∈ t.lists, g.cursor place = g'.cursor place := by
  have nodes := (finish_congr y hn).2
  have grown := grown_finish h
  have grown' := grown_finish h'
  rw [h, h'] at nodes
  have live := (spans_finish h).root_bounds.2
  obtain ⟨t, hu, hh⟩ := ((descends_finish hf ht h).grounded live).exists_unfolds
  refine ⟨t, hu, hh, hu.congr nodes.symm, size_congr nodes ▸ hh, fun place hp => ?_⟩
  rw [grown.cursor, grown'.cursor]
  obtain ⟨hreach, text, items, hlist⟩ := FullTree.reached_of_mem_lists hu hp
  by_cases old : place < f.size
  · exact hc place (Yard.refers_of_finish hf ht h old hreach (by simp [listSize?, hlist]))
  · have hle := Nat.le_of_not_lt old
    rw [cursor_of_size_le hle, cursor_of_size_le (by rw [size_congr hn]; exact hle)]

end Forest

namespace Reading

/-! ## Drafts in step -/

/-- Two drafts over the nodes of a forest that differ in nothing but cursors, and not in the cursor
of a list that something at hand refers to. -/
structure Draft.Alike (b : Bindings) (f : Forest) (d d' : Draft) : Prop extends d.Over b f where
  twin : d' = { d with forest := d'.forest }
  nodes' : d'.forest.nodes = f.nodes
  cursors : ∀ y ∈ d.yard :: d.lists.map (·.outer), ∀ place, y.Refers f place →
    d.forest.cursor place = d'.forest.cursor place

namespace Draft.Alike

variable {b : Bindings} {f : Forest} {d d' : Draft}

theorem start (b : Bindings) {f f' : Forest} (hn : f'.nodes = f.nodes) :
    Draft.Alike b f { forest := f } { forest := f' } where
  toOver := .start b f
  twin := rfl
  nodes' := hn
  cursors y hy place hr := by
    rw [List.map_nil, List.mem_singleton] at hy
    subst hy
    exact absurd hr (Yard.not_refers_empty f place)

theorem add (h : d.Alike b f d') {text : String} {meaning : Meaning}
    (hm : ∀ target, Infix.Atom.target? ⟨text, meaning⟩ = some target → (∃ name, b.lookup name = some target) ∧
      ∀ place ∈ f.reachable target, (f.listSize? place).isSome → d.forest.cursor place = d'.forest.cursor place) :
    (d.add text meaning).Alike b f (d'.add text meaning) where
  toOver := h.toOver.add fun target ht => (hm target ht).1
  twin := by
    rw [h.twin]
    rfl
  nodes' := h.nodes'
  cursors y hy place hr := by
    rcases List.mem_cons.1 hy with rfl | hy
    · rcases hr.of_push with hr | ⟨target, ht, hp, hs⟩
      · exact h.cursors _ (List.mem_cons_self ..) place hr
      · exact (hm target ht).2 place hp hs
    · exact h.cursors y (List.mem_cons_of_mem _ hy) place hr

/-- A variable rewinds the same lists in both, so these agree from now on. -/
theorem addVariable (h : d.Alike b f d') {name : String} {target : NodeId} (ht : b.lookup name = some target) :
    (d.addVariable name target).Alike b f (d'.addVariable name target) := by
  have same : d.forest.nodes = d'.forest.nodes := h.nodes.trans h.nodes'.symm
  -- the cursor of a list is now the same if it was so before, or if the variable reaches the list
  have cursors : ∀ place, d.forest.cursor place = d'.forest.cursor place ∨
      place ∈ f.reachable target ∧ (f.listSize? place).isSome →
      (d.forest.rewindLists target).2.cursor place = (d'.forest.rewindLists target).2.cursor place := by
    intro place hplace
    simp only [cursor_rewindLists, mem_reachable_congr h.nodes, mem_reachable_congr h.nodes',
      listSize?_congr (get?_congr h.nodes place), listSize?_congr (get?_congr h.nodes' place)]
    split
    · rfl
    · rename_i hnot
      exact hplace.resolve_right hnot
  have rewound : Draft.Alike b f
      { d with forest := (d.forest.rewindLists target).2, width := max d.width (d.forest.rewindLists target).1 }
      { d' with forest := (d'.forest.rewindLists target).2, width := max d'.width (d'.forest.rewindLists target).1 } :=
    { nodes := (nodes_rewindLists d.forest target).trans h.nodes
      marks := h.marks
      bound := h.bound
      outer := h.outer
      twin := by
        rw [← longest_congr same, h.twin]
      nodes' := (nodes_rewindLists d'.forest target).trans h.nodes'
      cursors := fun y hy place hr => cursors place (.inl (h.cursors y hy place hr)) }
  apply rewound.add
  rintro _ ⟨⟩
  exact ⟨⟨name, ht⟩, fun place hp hs => cursors place (.inr ⟨hp, hs⟩)⟩

theorem beginList (h : d.Alike b f d') : d.beginList.Alike b f d'.beginList where
  toOver := h.toOver.beginList
  twin := by
    have size : d'.forest.size = d.forest.size := size_congr (h.nodes'.trans h.nodes.symm)
    rw [Draft.beginList, size, h.twin]
    rfl
  nodes' := h.nodes'
  cursors y hy place hr := by
    rcases List.mem_cons.1 hy with rfl | hy
    · exact absurd hr (Yard.not_refers_empty f place)
    · exact h.cursors y hy place hr

/-- What is put together in one draft is put together in the other, and its lists are at the same
cursors. -/
theorem finish (h : d.Alike b f d') (hf : f.Descends)
    (hb : ∀ name target, b.lookup name = some target → target < f.size) {root : NodeId} {g : Forest}
    (hfin : d.yard.finish d.forest = (some root, g)) :
    ∃ g', d'.yard.finish d'.forest = (some root, g') ∧ g'.nodes = g.nodes ∧
      ∃ t, g.Unfolds root t ∧ t.height ≤ g.size ∧ g'.Unfolds root t ∧ t.height ≤ g'.size ∧
        ∀ place ∈ t.lists, g.cursor place = g'.cursor place := by
  have yard : d'.yard = d.yard := by rw [h.twin]
  have nodes : d'.forest.nodes = d.forest.nodes := h.nodes'.trans h.nodes.symm
  obtain ⟨roots, after⟩ := finish_congr d.yard nodes
  have hfin' : d'.yard.finish d'.forest = (some root, (d'.yard.finish d'.forest).2) := by
    rw [yard]
    refine Prod.ext ?_ rfl
    rw [roots, hfin]
  refine ⟨_, hfin', by rw [yard, after, hfin], ?_⟩
  rw [yard] at hfin' ⊢
  refine finish_alike nodes (hf.congr h.nodes.symm) (h.toOver.targets_lt hb) hfin hfin' ?_
  rintro place ⟨a, ha, target, ht, hp, hs⟩
  rw [mem_reachable_congr h.nodes] at hp
  rw [listSize?_congr (get?_congr h.nodes place)] at hs
  exact h.cursors _ (List.mem_cons_self ..) place ⟨a, ha, target, ht, hp, hs⟩

/-- The item has the same tree in both, all lists of the tree have the same cursors, and so it has
the same value and takes these cursors equally far. -/
theorem endItem (h : d.Alike b f d') (hf : f.Descends)
    (hb : ∀ name target, b.lookup name = some target → target < f.size) {e : Draft} (he : d.endItem = some e) :
    ∃ e', d'.endItem = some e' ∧ e.Alike b f e' := by
  have kept := h.toOver.endItem he
  obtain ⟨list, others, root, g, hl, hfin, rfl⟩ := endItem_eq_some.1 he
  obtain ⟨g', hfin', nodes, t, hu, hh, hu', hh', agree⟩ := h.finish hf hb hfin
  obtain ⟨value, moved⟩ := t.value_congr (agreeOn_of_cursor hu hu' agree)
  rw [← evaluate_eq_value hu hh, ← evaluate_eq_value hu' hh'] at value moved
  have hl' : d'.lists = list :: others := by rw [h.twin, ← hl]
  have mark : list.mark = f.size := h.marks list (by rw [hl]; exact List.mem_cons_self ..)
  have grown := grown_finish hfin
  have grown' := grown_finish hfin'
  refine ⟨_, endItem_eq_some.2 ⟨list, others, root, g', hl', hfin', rfl⟩, ?_⟩
  refine { toOver := kept, twin := ?_, nodes' := ?_, cursors := fun y hy place hr => ?_ }
  · rw [h.twin]
    simp only [value]
  · show ((g'.evaluate root).2.truncate list.mark).nodes = f.nodes
    rw [mark, ← size_congr h.nodes']
    exact (nodes_truncate_of_extends grown'.toExtends (nodes_evaluate g' root)).trans h.nodes'
  · have live : place < list.mark := by
      obtain ⟨_, _, _, _, hp, _⟩ := hr
      rw [mark]
      exact ((mem_reachable _ _ _).1 hp).1
    show ((g.evaluate root).2.truncate list.mark).cursor place = ((g'.evaluate root).2.truncate list.mark).cursor place
    rw [cursor_truncate _ live, cursor_truncate _ live]
    apply moved
    rw [grown.cursor, grown'.cursor]
    -- the item is gone, so the place is referred to from around the list
    refine h.cursors y ?_ place hr
    rcases List.mem_cons.1 hy with rfl | hy
    · exact absurd hr (Yard.not_refers_empty f place)
    · rw [hl]
      exact List.mem_cons_of_mem _ hy

theorem endList (h : d.Alike b f d') {text : String} {e : Draft} (he : d.endList text = some e) :
    ∃ e', d'.endList text = some e' ∧ e.Alike b f e' := by
  have kept := h.toOver.endList he
  obtain ⟨list, others, hl, rfl⟩ := endList_eq_some.1 he
  have hl' : d'.lists = list :: others := by rw [h.twin, ← hl]
  have cursors := h.cursors
  rw [hl] at cursors
  refine ⟨_, endList_eq_some.2 ⟨list, others, hl', rfl⟩, ?_⟩
  refine { toOver := kept, twin := ?_, nodes' := h.nodes', cursors := fun y hy place hr => ?_ }
  · rw [h.twin]
    rfl
  · rcases List.mem_cons.1 hy with rfl | hy
    · rcases hr.of_push with hr | ⟨target, ⟨⟩, -⟩
      exact cursors list.outer (by simp) place hr
    · exact cursors y (List.mem_cons_of_mem _ (List.mem_cons_of_mem _ hy)) place hr

/-- One token. -/
theorem take (h : d.Alike b f d') (hf : f.Descends)
    (hb : ∀ name target, b.lookup name = some target → target < f.size) {token : Token} {e : Draft}
    (he : d.take b token = some e) : ∃ e', d'.take b token = some e' ∧ e.Alike b f e' := by
  have added : ∀ {text : String} {meaning : Meaning}, Infix.Atom.target? ⟨text, meaning⟩ = none →
      (d.add text meaning).Alike b f (d'.add text meaning) := fun hm => h.add (by simp [hm])
  rcases token with ⟨text, _ | _ | op | g | m | _ | _ | _⟩ <;> simp only [Draft.take] at he ⊢
  · cases he
    exact ⟨_, rfl, added rfl⟩
  · obtain ⟨target, ht, rfl⟩ := Option.map_eq_some_iff.1 he
    exact ⟨_, by rw [ht]; rfl, h.addVariable ht⟩
  · cases he
    exact ⟨_, rfl, added rfl⟩
  · cases he
    exact ⟨_, rfl, added rfl⟩
  · cases he
    exact ⟨_, rfl, added rfl⟩
  · cases he
    exact ⟨_, rfl, h.beginList⟩
  · exact h.endItem hf hb he
  · exact h.endList he

/-- Any number of tokens. -/
theorem takeAll {tokens : List Token} (h : d.Alike b f d') (hf : f.Descends)
    (hb : ∀ name target, b.lookup name = some target → target < f.size) {e : Draft}
    (he : d.takeAll b tokens = some e) : ∃ e', d'.takeAll b tokens = some e' ∧ e.Alike b f e' := by
  induction tokens generalizing d d' with
  | nil =>
    cases he
    exact ⟨d', rfl, h⟩
  | cons token rest ih =>
    rw [Draft.takeAll] at he
    split at he
    · cases he
    · rename_i d₁ hstep
      obtain ⟨d₁', hstep', h₁⟩ := h.take hf hb hstep
      rw [Draft.takeAll, hstep']
      exact ih h₁ he

end Draft.Alike

end Reading

end Formulary
