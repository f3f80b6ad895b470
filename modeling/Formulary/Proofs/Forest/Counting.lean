/-
How often an evaluation reads each list. The number is that of the leaves of the full tree for the
list; it does not depend on cursors, and it decides where the evaluation leaves the cursor. What
is assembled from atoms reads a list as often as the trees that its variables stand for together.
-/
import Formulary.Proofs.Forest.Reads
import Formulary.Proofs.Forest.Rewind
import Formulary.Proofs.Infix.Assembly

namespace Formulary

open Infix

namespace FullTree

theorem map_fst_readsAll {ts : List FullTree} (h : ∀ t ∈ ts, ∀ f, (t.reads f).map (·.1) = t.lists) (f : Forest) :
    (readsAll ts f).map (·.1) = listsAll ts := by
  induction ts generalizing f with
  | nil => rfl
  | cons t ts ih =>
    rw [readsAll, listsAll, List.map_append, h t (List.mem_cons_self ..),
      ih fun u hu => h u (List.mem_cons_of_mem _ hu)]

/-- The reads of a tree are those of its lists in order. -/
theorem map_fst_reads (t : FullTree) (f : Forest) : (t.reads f).map (·.1) = t.lists := by
  induction t using induct generalizing f with
  | number x => rfl
  | reference t ih => exact ih f
  | list id items => rfl
  | binary op l r ihl ihr => rw [reads, lists, List.map_append, ihl, ihr]
  | call g params ih => exact map_fst_readsAll ih f

theorem length_readsOf (place : NodeId) (reads : List (NodeId × Value)) :
    (readsOf place reads).length = (reads.map (·.1)).count place := by
  rw [readsOf, List.length_map, List.count_eq_countP, List.countP_map, List.countP_eq_length_filter]
  rfl

theorem mem_listsAll {ts : List FullTree} {place : NodeId} : place ∈ listsAll ts ↔ ∃ t ∈ ts, place ∈ t.lists := by
  induction ts with
  | nil => simp [listsAll]
  | cons t ts ih => simp [listsAll, ih]

theorem cursor_values_of_not_mem {place : NodeId} {ts : List FullTree}
    (h : ∀ t ∈ ts, ∀ f : Forest, place ∉ t.lists → (t.value f).2.cursor place = f.cursor place) (f : Forest)
    (hp : place ∉ listsAll ts) : (values ts f).2.cursor place = f.cursor place := by
  induction ts generalizing f with
  | nil => rfl
  | cons t ts ih =>
    rw [listsAll, List.mem_append, not_or] at hp
    simp only [values]
    rw [ih (fun u hu => h u (List.mem_cons_of_mem _ hu)) _ hp.2, h t (List.mem_cons_self ..) f hp.1]

/-- The cursor of a list that the tree does not have stays where it is. -/
theorem cursor_value_of_not_mem {place : NodeId} (t : FullTree) (f : Forest) (hp : place ∉ t.lists) :
    (t.value f).2.cursor place = f.cursor place := by
  induction t using induct generalizing f with
  | number x => rfl
  | reference t ih => exact ih f hp
  | list id items =>
    have hne : place ≠ id := by simpa [lists] using hp
    simp only [value]
    split
    · rfl
    · exact Forest.cursor_setCursor_ne hne _
  | binary op l r ihl ihr =>
    rw [lists, List.mem_append, not_or] at hp
    simp only [value]
    rw [ihr _ hp.2, ihl f hp.1]
  | call g params ih => exact cursor_values_of_not_mem ih f hp

/-- The lists of a full tree are lists of the forest, and an evaluation comes to them. -/
theorem reached_of_mem_lists {f : Forest} {place id : NodeId} {t : FullTree} (hu : f.Unfolds id t)
    (hp : place ∈ t.lists) : f.Reaches id place ∧ ∃ text items, f.get? place = some ⟨text, .leaf (.list items)⟩ := by
  -- one step down first
  have below : ∀ {id next : NodeId} {node : Node}, f.get? id = some node → next ∈ node.references →
      (f.Reaches next place ∧ ∃ text items, f.get? place = some ⟨text, .leaf (.list items)⟩) →
      f.Reaches id place ∧ ∃ text items, f.get? place = some ⟨text, .leaf (.list items)⟩ :=
    fun hn hr h => ⟨.head ⟨_, hn, hr⟩ h.1, h.2⟩
  induction t using induct generalizing id with
  | number x => simp [lists] at hp
  | reference t ih =>
    cases hu with
    | reference hn ht => exact below hn (by simp [Node.references]) (ih ht hp)
  | list id' items =>
    cases hu with
    | list hn =>
      rw [lists, List.mem_singleton] at hp
      exact ⟨hp ▸ .refl, _, _, hp ▸ hn⟩
  | binary op l r ihl ihr =>
    cases hu with
    | binary hn hl hr =>
      rcases List.mem_append.1 hp with hmem | hmem
      · exact below hn (by simp [Node.references, Node.children]) (ihl hl hmem)
      · exact below hn (by simp [Node.references, Node.children]) (ihr hr hmem)
  | call g ts ih =>
    cases hu with
    | @call _ _ _ params _ hn hts =>
      obtain ⟨t, ht, hmem⟩ := mem_listsAll.1 hp
      obtain ⟨k, hk, rfl⟩ := List.getElem_of_mem ht
      have hk' : k < params.length := by rwa [hts.length_eq]
      exact below hn (by simp [Node.references, Node.children, List.getElem_mem])
        (ih _ ht (hts.get hk' hk) hmem)

/-- Conversely, every list that an evaluation comes to is a list of the full tree. -/
theorem mem_lists_of_reaches {f : Forest} {place id : NodeId} {t : FullTree} {text : String} {items : Array Value}
    (hu : f.Unfolds id t) (hr : f.Reaches id place) (hp : f.get? place = some ⟨text, .leaf (.list items)⟩) :
    place ∈ t.lists := by
  -- either the way ends here, or it goes on to one of the references
  have onward : ∀ {id : NodeId} {node : Node}, f.get? id = some node → f.Reaches id place →
      id = place ∨ ∃ next ∈ node.references, f.Reaches next place := by
    intro id node hn hr
    rcases Relation.ReflTransGen.cases_head hr with here | ⟨next, ⟨node', hn', hnext⟩, hr⟩
    · exact .inl here
    · cases hn.symm.trans hn'
      exact .inr ⟨next, hnext, hr⟩
  induction t using induct generalizing id with
  | number x =>
    cases hu with
    | number hn =>
      rcases onward hn hr with rfl | ⟨next, hnext, -⟩
      · cases hn.symm.trans hp
      · simp [Node.references, Node.children] at hnext
  | reference t ih =>
    cases hu with
    | reference hn ht =>
      rcases onward hn hr with rfl | ⟨next, hnext, hr⟩
      · cases hn.symm.trans hp
      · cases List.mem_singleton.1 hnext
        exact ih ht hr
  | list id' items' =>
    cases hu with
    | list hn =>
      rcases onward hn hr with rfl | ⟨next, hnext, -⟩
      · exact List.mem_singleton_self _
      · simp [Node.references, Node.children] at hnext
  | binary op l r ihl ihr =>
    cases hu with
    | @binary _ lhs rhs _ _ _ _ hn hl hr' =>
      rcases onward hn hr with rfl | ⟨next, hnext, hr⟩
      · cases hn.symm.trans hp
      · have side : next = lhs ∨ next = rhs := by simpa [Node.references, Node.children] using hnext
        rcases side with rfl | rfl
        · exact List.mem_append_left _ (ihl hl hr)
        · exact List.mem_append_right _ (ihr hr' hr)
  | call g ts ih =>
    cases hu with
    | call hn hts =>
      rcases onward hn hr with rfl | ⟨next, hnext, hr⟩
      · cases hn.symm.trans hp
      · obtain ⟨k, hk, rfl⟩ := List.getElem_of_mem hnext
        have hk' : k < ts.length := hts.length_eq ▸ hk
        exact mem_listsAll.2 ⟨_, List.getElem_mem hk', ih _ (List.getElem_mem hk') (hts.get hk hk') hr⟩

/-- Where an evaluation leaves a cursor. -/
theorem cursor_value {f : Forest} {id : NodeId} {t : FullTree} (hu : f.Unfolds id t) (place : NodeId) :
    (t.value f).2.cursor place = after ((f.listSize? place).getD 0) (f.cursor place) (t.lists.count place) := by
  by_cases hp : place ∈ t.lists
  · obtain ⟨-, text, items, hn⟩ := reached_of_mem_lists hu hp
    have size : f.listSize? place = some items.size := by rw [Forest.listSize?, hn]
    rw [size, Option.getD_some]
    exact (goesRound_value t f id hn hu).1
  · rw [cursor_value_of_not_mem t f hp, List.count_eq_zero.2 hp]
    rfl

end FullTree

namespace Forest

/-! ## Counting reads -/

/-- How often evaluating a place reads the list at another. -/
def readCount (f : Forest) (place id : NodeId) : Nat :=
  (FullTree.readsOf place (Work.start f id).reads).length

theorem readCount_eq {f : Forest} {id : NodeId} {t : FullTree} (hu : f.Unfolds id t) (hh : t.height ≤ f.size)
    (place : NodeId) : f.readCount place id = t.lists.count place := by
  rw [readCount, reads_start hu hh, FullTree.length_readsOf, FullTree.map_fst_reads]

theorem Grounded.readCount_eq {f : Forest} {id : NodeId} {t : FullTree} (h : f.Grounded id) (hu : f.Unfolds id t)
    (place : NodeId) : f.readCount place id = t.lists.count place := by
  obtain ⟨u, hu', hh⟩ := h.exists_unfolds
  rw [hu.unique hu', Forest.readCount_eq hu' hh]

/-- What an evaluation does not come to, it does not read. -/
theorem readCount_eq_zero {f : Forest} {place id : NodeId} (h : f.Grounded id) (hp : place ∉ f.reachable id) :
    f.readCount place id = 0 := by
  obtain ⟨t, hu, hh⟩ := h.exists_unfolds
  rw [readCount_eq hu hh, List.count_eq_zero]
  intro hmem
  obtain ⟨hreach, text, items, hn⟩ := FullTree.reached_of_mem_lists hu hmem
  exact hp ((mem_reachable f id place).2 ⟨get?_eq_some_lt hn, hreach⟩)

/-- What an evaluation comes to, it reads at least once. -/
theorem readCount_pos {f : Forest} {place id : NodeId} {text : String} {items : Array Value} (h : f.Grounded id)
    (hr : f.Reaches id place) (hp : f.get? place = some ⟨text, .leaf (.list items)⟩) : 0 < f.readCount place id := by
  obtain ⟨t, hu, hh⟩ := h.exists_unfolds
  rw [readCount_eq hu hh]
  exact List.count_pos_iff.2 (FullTree.mem_lists_of_reaches hu hr hp)

/-- The full tree at a place has so many leaves for the list at another. -/
def Counts (f : Forest) (place id : NodeId) (n : Nat) : Prop :=
  ∃ t, f.Unfolds id t ∧ t.lists.count place = n

theorem Counts.extends {f g : Forest} (hfg : f.Extends g) {place id : NodeId} {n : Nat} (h : f.Counts place id n) :
    g.Counts place id n := by
  obtain ⟨t, hu, hc⟩ := h
  exact ⟨t, hu.mono fun _ _ hn => hfg.nodes hn, hc⟩

theorem exists_unfolds_of_counts {f : Forest} {place : NodeId} {ids : List NodeId} {ns : List Nat}
    (h : List.Forall₂ (f.Counts place) ids ns) :
    ∃ ts, List.Forall₂ f.Unfolds ids ts ∧ (FullTree.listsAll ts).count place = ns.sum := by
  induction h with
  | nil => exact ⟨[], .nil, rfl⟩
  | cons h _ ih =>
    obtain ⟨t, hu, hc⟩ := h
    obtain ⟨ts, hus, hcs⟩ := ih
    exact ⟨t :: ts, .cons hu hus, by rw [FullTree.listsAll, List.count_append, hc, hcs, List.sum_cons]⟩

/-- How often the tree that a variable stands for reads a list; nothing for any other atom. -/
def weight (count : NodeId → Nat) (a : Atom) : Nat :=
  a.target?.elim 0 count

/-- The weights of atoms together. -/
def weights (count : NodeId → Nat) (as : List Atom) : Nat :=
  (as.map (weight count)).sum

/-- Assembled atoms read a list as often as the trees on the stack and those of their variables
together. -/
theorem counts_assemble {place : NodeId} {count : NodeId → Nat} (as : List Atom) {f : Forest} {roots : List NodeId}
    {ns : List Nat} {root : NodeId} (hp : place < f.size) (hr : List.Forall₂ (f.Counts place) roots ns)
    (ht : ∀ a ∈ as, ∀ target, a.target? = some target → f.Counts place target (count target))
    (h : (f.assemble roots as).1 = some root) :
    (f.assemble roots as).2.Counts place root (ns.sum + weights count as) := by
  induction as generalizing f roots ns with
  | nil =>
    unfold assemble at h ⊢
    split at h
    · cases h
      obtain ⟨n, ns, hn, hns, rfl⟩ := List.forall₂_cons_left_iff.1 hr
      cases hns
      simpa [weights] using hn
    · cases h
  | cons a rest ih =>
    -- one more node, whose tree counts so much
    have step : ∀ (node : Node) (roots' : List NodeId) (ns' : List Nat) (n : Nat),
        List.Forall₂ (f.Counts place) roots' ns' → (f.alloc node).2.Counts place f.size n →
        n + ns'.sum = ns.sum + weight count a → ((f.alloc node).2.assemble (f.size :: roots') rest).1 = some root →
        ((f.alloc node).2.assemble (f.size :: roots') rest).2.Counts place root
          (ns.sum + weights count (a :: rest)) := by
      intro node roots' ns' n hr' hn hsum h
      have keep := Extends.alloc f node
      have onward := ih (by rw [size_alloc]; exact Nat.lt_succ_of_lt hp)
        (.cons hn (hr'.imp fun _ _ hc => hc.extends keep))
        (fun b hb target hbt => (ht b (List.mem_cons_of_mem _ hb) target hbt).extends keep) h
      rw [List.sum_cons, hsum] at onward
      simpa [weights, Nat.add_assoc] using onward
    have away : place ≠ f.size := Nat.ne_of_lt hp
    rcases a with ⟨text, (x | ⟨name, target⟩ | items) | op | g | m⟩ <;> simp only [assemble] at h ⊢
    · exact step _ _ _ 0 hr ⟨_, .number (get?_alloc_self f _), rfl⟩ (by simp [weight, Infix.Atom.target?]) h
    · have keep := Extends.alloc f ⟨text, .leaf (.variable name target)⟩
      obtain ⟨t, hu, hc⟩ := (ht _ (List.mem_cons_self ..) target rfl).extends keep
      exact step _ _ _ (count target) hr ⟨_, .reference (get?_alloc_self f _) hu, hc⟩
        (by simp [weight, Infix.Atom.target?, Nat.add_comm]) h
    · exact step _ _ _ 0 hr ⟨_, .list (get?_alloc_self f _), by simp [FullTree.lists, away.symm]⟩
        (by simp [weight, Infix.Atom.target?]) h
    · split at h
      · rename_i rhs lhs others
        obtain ⟨nr, nls, hrhs, hrest, rfl⟩ := List.forall₂_cons_left_iff.1 hr
        obtain ⟨nl, ns', hlhs, hothers, rfl⟩ := List.forall₂_cons_left_iff.1 hrest
        have keep := Extends.alloc f ⟨text, .binary op lhs rhs⟩
        obtain ⟨l, hl, hlc⟩ := hlhs.extends keep
        obtain ⟨r, hr', hrc⟩ := hrhs.extends keep
        refine step _ _ _ (nl + nr) hothers ⟨_, .binary (get?_alloc_self f _) hl hr', ?_⟩ ?_ h
        · rw [FullTree.lists, List.count_append, hlc, hrc]
        · simp [weight, Infix.Atom.target?]
          omega
      · cases h
    · split at h
      · rename_i hlen
        rw [if_pos hlen]
        have keep := Extends.alloc f ⟨text, .call g (roots.take g.arity).reverse⟩
        have params : List.Forall₂ (f.Counts place) (roots.take g.arity).reverse (ns.take g.arity).reverse :=
          List.rel_reverse (List.forall₂_take g.arity hr)
        obtain ⟨ts, hts, hc⟩ := exists_unfolds_of_counts (params.imp fun _ _ h => h.extends keep)
        refine step _ _ _ (ns.take g.arity).sum (List.forall₂_drop g.arity hr)
          ⟨_, .call (get?_alloc_self f _) hts, ?_⟩ ?_ h
        · rw [FullTree.lists, hc, List.sum_reverse]
        · simp [weight, Infix.Atom.target?, List.sum_take_add_sum_drop]
      · cases h
    · have onward := ih hp hr (fun b hb => ht b (List.mem_cons_of_mem _ hb)) h
      simpa [weights, weight, Infix.Atom.target?] using onward

end Forest

end Formulary
