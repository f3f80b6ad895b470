/-
Rewinding: the search comes to exactly the live places that an evaluation can come to, and the
cursors of exactly the lists among them go back to the first item.
-/
import Formulary.Proofs.Forest.Reference
import Mathlib.Data.List.TakeWhile

namespace Formulary.Forest

open Relation

variable {f : Forest} {root : NodeId}

/-! ## The search -/

/-- What a search knows when it has come so far: which places it has visited, that all of them and
all that wait can be reached, and that whatever a visited place leads to is visited or waits. -/
structure Search (f : Forest) (root : NodeId) (waiting : List NodeId) (done : Array Bool) (visited : List NodeId) :
    Prop where
  marks : done.size = f.size
  marked : ∀ id, done.getD id true = true ↔ f.size ≤ id ∨ id ∈ visited
  live : ∀ id ∈ visited, id < f.size
  once : visited.Nodup
  found : ∀ id ∈ visited ++ waiting, f.Reaches root id
  begun : root ∈ visited ++ waiting ∨ f.size ≤ root
  onward : ∀ id ∈ visited, ∀ next, f.Leads id next → next < f.size → next ∈ visited ++ waiting

namespace Search

variable {waiting rest : List NodeId} {done : Array Bool} {visited : List NodeId}

theorem start (f : Forest) (root : NodeId) : f.Search root [root] (Array.replicate f.size false) [] where
  marks := Array.size_replicate ..
  marked id := by
    rw [Array.getD_eq_getD_getElem?, Array.getElem?_replicate]
    by_cases h : id < f.size
    · simp [h, Nat.not_le.2 h]
    · simp [h, Nat.le_of_not_lt h]
  live := by simp
  once := .nil
  found id hid := by
    rw [List.nil_append, List.mem_singleton] at hid
    exact hid ▸ ReflTransGen.refl
  begun := .inl (by simp)
  onward := by simp

/-- What has been visited already need not wait. -/
theorem skip (h : f.Search root waiting done visited) :
    f.Search root (waiting.dropWhile fun id => done.getD id true) done visited := by
  have keep : ∀ id, id < f.size → id ∈ visited ++ waiting →
      id ∈ visited ++ waiting.dropWhile fun id => done.getD id true := by
    intro id hid hmem
    rcases List.mem_append.1 hmem with hv | hw
    · exact List.mem_append_left _ hv
    · rw [← List.takeWhile_append_dropWhile (p := fun id => done.getD id true) (l := waiting)] at hw
      rcases List.mem_append.1 hw with ht | hd
      · rcases (h.marked id).1 (List.mem_takeWhile_imp (p := fun id => done.getD id true) ht) with hdead | hv
        · exact absurd hid (Nat.not_lt_of_le hdead)
        · exact List.mem_append_left _ hv
      · exact List.mem_append_right _ hd
  refine ⟨h.marks, h.marked, h.live, h.once, fun id hid => h.found id ?_, ?_, fun id hid next hl hn => ?_⟩
  · rcases List.mem_append.1 hid with hv | hd
    · exact List.mem_append_left _ hv
    · exact List.mem_append_right _ ((List.dropWhile_sublist _).subset hd)
  · rcases h.begun with hb | hdead
    · by_cases hroot : root < f.size
      · exact .inl (keep root hroot hb)
      · exact .inr (Nat.le_of_not_lt hroot)
    · exact .inr hdead
  · exact keep next hn (h.onward id hid next hl hn)

/-- A visit: the place is marked, and what it leads to waits. -/
theorem visit {id : NodeId} {node : Node} (h : f.Search root (id :: rest) done visited)
    (hnew : ¬ done.getD id true = true) (hn : f.get? id = some node) :
    f.Search root (node.references ++ rest) (done.setIfInBounds id true) (id :: visited) := by
  have hlive := get?_eq_some_lt hn
  have hreach := h.found id (by simp)
  have hfresh : id ∉ visited := fun hv => hnew ((h.marked id).2 (.inr hv))
  refine ⟨by rw [Array.size_setIfInBounds, h.marks], fun other => ?_, ?_, List.nodup_cons.2 ⟨hfresh, h.once⟩,
    ?_, ?_, ?_⟩
  · rw [Array.getD_eq_getD_getElem?, Array.getElem?_setIfInBounds]
    by_cases same : id = other
    · subst same
      simp [h.marks, hlive]
    · have := h.marked other
      rw [Array.getD_eq_getD_getElem?] at this
      simp [same, Ne.symm same, this]
  · simpa [hlive] using h.live
  · intro other ho
    rcases List.mem_append.1 ho with hv | hw
    · rcases List.mem_cons.1 hv with rfl | hv
      · exact hreach
      · exact h.found other (List.mem_append_left _ hv)
    · rcases List.mem_append.1 hw with hr | hw
      · exact hreach.tail ⟨node, hn, hr⟩
      · exact h.found other (List.mem_append_right _ (List.mem_cons_of_mem _ hw))
  · rcases h.begun with hb | hdead
    · left
      simp only [List.mem_append, List.mem_cons] at hb ⊢
      tauto
    · exact .inr hdead
  -- what the place leads to waits now, and the place itself has only changed sides
  · intro other ho next hl hnext
    rcases List.mem_cons.1 ho with rfl | hv
    · obtain ⟨node', hn', hr⟩ := hl
      rw [hn] at hn'
      cases hn'
      simp [hr]
    · have := h.onward other hv next hl hnext
      simp only [List.mem_append, List.mem_cons] at this ⊢
      tauto

/-- Where nothing waits that has not been visited, exactly the live places in reach have been. -/
theorem done_iff (h : f.Search root waiting done visited) (hw : ∀ id ∈ waiting, id < f.size → id ∈ visited)
    (id : NodeId) : id ∈ visited ↔ id < f.size ∧ f.Reaches root id := by
  have settled : ∀ place, place < f.size → place ∈ visited ++ waiting → place ∈ visited := fun place hp hmem =>
    (List.mem_append.1 hmem).elim (fun hv => hv) fun hwait => hw place hwait hp
  constructor
  · intro hv
    exact ⟨h.live id hv, h.found id (List.mem_append_left _ hv)⟩
  · rintro ⟨hid, hreach⟩
    -- along the way from the root: what a visited place leads to waits or has been visited
    induction hreach with
    | refl =>
      rcases h.begun with hb | hdead
      · exact settled _ hid hb
      · exact absurd hid (Nat.not_lt_of_le hdead)
    | tail _ hl ih =>
      obtain ⟨node, hn, hr⟩ := hl
      exact settled _ hid (h.onward _ (ih (get?_eq_some_lt hn)) _ ⟨node, hn, hr⟩ hid)

/-- As many different live places as there are nodes are all of them. -/
theorem all_visited (h : f.Search root waiting done visited) (hlen : f.size ≤ visited.length) {id : NodeId}
    (hid : id < f.size) : id ∈ visited := by
  have hsub : visited.toFinset ⊆ Finset.range f.size := by
    intro place hp
    rw [List.mem_toFinset] at hp
    exact Finset.mem_range.2 (h.live place hp)
  have hcard : (Finset.range f.size).card ≤ visited.toFinset.card := by
    rw [Finset.card_range, List.toFinset_card_of_nodup h.once]
    exact hlen
  rw [← List.mem_toFinset, Finset.eq_of_subset_of_card_le hsub hcard]
  exact Finset.mem_range.2 hid

end Search

/-- A search with enough rounds left ends with exactly the live places in reach. -/
theorem mem_explore {rounds : Nat} {waiting : List NodeId} {done : Array Bool} {visited : List NodeId}
    (h : f.Search root waiting done visited) (hr : f.size ≤ rounds + visited.length) (id : NodeId) :
    id ∈ f.explore rounds waiting done visited ↔ id < f.size ∧ f.Reaches root id := by
  induction rounds generalizing waiting done visited with
  | zero =>
    rw [Nat.zero_add] at hr
    exact h.done_iff (fun place _ hp => h.all_visited hr hp) id
  | succ rounds ih =>
    have hs := h.skip
    rw [explore]
    split
    · rename_i hnone
      rw [hnone] at hs
      exact hs.done_iff (by simp) id
    · rename_i next rest hsome
      rw [hsome] at hs
      have hnew : ¬ done.getD next true = true := by
        have := List.head?_dropWhile_not (fun id => done.getD id true) waiting
        rw [hsome] at this
        simpa using this
      have hlive : next < f.size := by
        by_contra hdead
        exact hnew ((h.marked next).2 (.inl (Nat.le_of_not_lt hdead)))
      obtain ⟨node, hn⟩ := exists_get? hlive
      rw [hn]
      apply ih (hs.visit hnew hn)
      rw [List.length_cons]
      omega

/-- The places found are the live ones that an evaluation of the root can come to. -/
theorem mem_reachable (f : Forest) (root id : NodeId) : id ∈ f.reachable root ↔ id < f.size ∧ f.Reaches root id :=
  mem_explore (.start f root) (by simp) id

theorem mem_reachable_congr {f g : Forest} (hn : f.nodes = g.nodes) (root id : NodeId) :
    id ∈ f.reachable root ↔ id ∈ g.reachable root := by
  rw [mem_reachable, mem_reachable, size_congr hn]
  exact and_congr_right fun _ => ⟨Reaches.congr hn, Reaches.congr hn.symm⟩

theorem listSize?_congr {f g : Forest} {place : NodeId} (hn : f.get? place = g.get? place) :
    f.listSize? place = g.listSize? place := by
  rw [listSize?, listSize?, hn]

/-! ## Rewinding -/

/-- One place of a rewinding. -/
def rewindStep (longest : Nat × Forest) (id : NodeId) : Nat × Forest :=
  match longest.2.listSize? id with
  | none => longest
  | some size => (max longest.1 size, longest.2.setCursor id 0)

theorem rewindLists_eq (f : Forest) (root : NodeId) :
    f.rewindLists root = (f.reachable root).foldl rewindStep (0, f) := rfl

theorem get?_of_listSize? {id : NodeId} {size : Nat} (h : f.listSize? id = some size) :
    ∃ text items, f.get? id = some ⟨text, .leaf (.list items)⟩ ∧ items.size = size := by
  unfold listSize? at h
  split at h
  · rename_i text items hn
    cases h
    exact ⟨text, items, hn, rfl⟩
  · cases h

theorem live_of_listSize? {id : NodeId} {size : Nat} (h : f.listSize? id = some size) : id < f.size := by
  obtain ⟨text, items, hn, -⟩ := get?_of_listSize? h
  exact get?_eq_some_lt hn

theorem rewind_fold (ids : List NodeId) (longest : Nat) (f : Forest) :
    (ids.foldl rewindStep (longest, f)).2.nodes = f.nodes ∧
      ∀ place, (ids.foldl rewindStep (longest, f)).2.cursor place =
        if place ∈ ids ∧ (f.listSize? place).isSome then 0 else f.cursor place := by
  induction ids generalizing longest f with
  | nil => simp
  | cons id ids ih =>
    rw [List.foldl_cons]
    cases hs : f.listSize? id with
    | none =>
      have step : rewindStep (longest, f) id = (longest, f) := by simp [rewindStep, hs]
      obtain ⟨hn, hc⟩ := ih longest f
      rw [step]
      refine ⟨hn, fun place => ?_⟩
      by_cases same : place = id
      · subst same
        simp [hc, hs]
      · simp [hc, same]
    | some size =>
      have step : rewindStep (longest, f) id = (max longest size, f.setCursor id 0) := by simp [rewindStep, hs]
      have hsize : ∀ place, (f.setCursor id 0).listSize? place = f.listSize? place := fun _ => rfl
      obtain ⟨hn, hc⟩ := ih (max longest size) (f.setCursor id 0)
      rw [step]
      refine ⟨hn, fun place => ?_⟩
      rw [hc, hsize, cursor_setCursor (live_of_listSize? hs)]
      by_cases same : place = id
      · subst same
        simp [hs]
      · simp [same]

theorem nodes_rewindLists (f : Forest) (root : NodeId) : (f.rewindLists root).2.nodes = f.nodes := by
  rw [rewindLists_eq]
  exact (rewind_fold (f.reachable root) 0 f).1

/-- Rewinding puts the cursors of the lists in reach on their first items and moves no other. -/
theorem cursor_rewindLists (f : Forest) (root place : NodeId) : (f.rewindLists root).2.cursor place =
    if place ∈ f.reachable root ∧ (f.listSize? place).isSome then 0 else f.cursor place := by
  rw [rewindLists_eq]
  exact (rewind_fold (f.reachable root) 0 f).2 place

theorem longest_fold_le (ids : List NodeId) (longest : Nat) (f : Forest) (n : Nat) :
    (ids.foldl rewindStep (longest, f)).1 ≤ n ↔
      longest ≤ n ∧ ∀ id ∈ ids, ∀ size, f.listSize? id = some size → size ≤ n := by
  induction ids generalizing longest f with
  | nil => simp
  | cons id ids ih =>
    rw [List.foldl_cons]
    cases hs : f.listSize? id with
    | none =>
      have step : rewindStep (longest, f) id = (longest, f) := by simp [rewindStep, hs]
      rw [step, ih]
      simp [hs]
    | some size =>
      have step : rewindStep (longest, f) id = (max longest size, f.setCursor id 0) := by simp [rewindStep, hs]
      have hsize : ∀ place, (f.setCursor id 0).listSize? place = f.listSize? place := fun _ => rfl
      rw [step, ih]
      simp [hs, hsize, and_assoc]

/-- The length told by a rewinding is the greatest among those of the lists in reach. -/
theorem rewindLists_le_iff (f : Forest) (root : NodeId) (n : Nat) :
    (f.rewindLists root).1 ≤ n ↔ ∀ id ∈ f.reachable root, ∀ size, f.listSize? id = some size → size ≤ n := by
  rw [rewindLists_eq, longest_fold_le]
  simp

/-- The length does not depend on cursors. -/
theorem longest_congr {f g : Forest} (hn : f.nodes = g.nodes) (root : NodeId) :
    (f.rewindLists root).1 = (g.rewindLists root).1 := by
  refine eq_of_forall_ge_iff fun n => ?_
  simp only [rewindLists_le_iff, mem_reachable_congr hn, listSize?_congr (get?_congr hn _)]

/-! ## Rewinding in a forest that has grown -/

namespace Within

variable {g : Forest}

theorem mem_reachable_iff (hfg : f.Within g) (hr : f.Grounded root) {place : NodeId} :
    place ∈ g.reachable root ↔ place ∈ f.reachable root := by
  rw [mem_reachable, mem_reachable, hfg.reaches_iff hr]
  constructor
  · exact fun hp => ⟨hr.live place hp.2, hp.2⟩
  · exact fun hp => ⟨Nat.lt_of_lt_of_le hp.1 hfg.size_le, hp.2⟩

/-- The lists in reach are the same, and so the longest one is as long. -/
theorem longest_eq (hfg : f.Within g) (hr : f.Grounded root) : (g.rewindLists root).1 = (f.rewindLists root).1 := by
  refine eq_of_forall_ge_iff fun n => ?_
  rw [rewindLists_le_iff, rewindLists_le_iff]
  refine forall_congr' fun id => ?_
  rw [hfg.mem_reachable_iff hr]
  refine forall_congr' fun hid => ?_
  rw [listSize?_congr (hfg.get?_eq ((mem_reachable f root id).1 hid).1)]

end Within

end Formulary.Forest
