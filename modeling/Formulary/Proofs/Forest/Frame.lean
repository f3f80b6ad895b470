/-
What the operations on a forest keep. Growing and cutting back touch the end of a forest only, and
a cursor moves only where it is set, so a node stays what it is for as long as it is there.
-/
import Formulary.Forest.Evaluation
import Formulary.Forest.Reach
import Mathlib.Tactic

namespace Formulary.Forest

/-! ## Two forests that agree -/

theorem ext {f g : Forest} (nodes : f.nodes = g.nodes) (cursors : f.cursors = g.cursors) : f = g := by
  cases f; cases g
  cases nodes; cases cursors
  rfl

/-- A forest is its nodes and the cursor of every place. -/
theorem ext_cursor {f g : Forest} (nodes : f.nodes = g.nodes) (cursor : ∀ id, f.cursor id = g.cursor id) :
    f = g := by
  refine ext nodes (Array.ext (by rw [f.aligned, g.aligned, nodes]) fun i hf hg => ?_)
  have h := cursor i
  simpa [Forest.cursor, Array.getD, hf, hg] using h

theorem get?_congr {f g : Forest} (h : f.nodes = g.nodes) (id : NodeId) : f.get? id = g.get? id := by
  unfold get?; rw [h]

theorem size_congr {f g : Forest} (h : f.nodes = g.nodes) : f.size = g.size := by
  unfold size; rw [h]

theorem get?_eq_some_lt {f : Forest} {id : NodeId} {node : Node} (h : f.get? id = some node) : id < f.size := by
  unfold get? at h
  exact (Array.getElem?_eq_some_iff.1 h).1

theorem exists_get? {f : Forest} {id : NodeId} (h : id < f.size) : ∃ node, f.get? id = some node :=
  ⟨_, Array.getElem?_eq_getElem h⟩

theorem get?_eq_none {f : Forest} {id : NodeId} (h : f.size ≤ id) : f.get? id = none :=
  Array.getElem?_eq_none h

theorem cursor_of_size_le {f : Forest} {id : NodeId} (h : f.size ≤ id) : f.cursor id = 0 := by
  unfold cursor
  rw [Array.getD_eq_getD_getElem?, Array.getElem?_eq_none (by rw [f.aligned]; exact h)]
  rfl

/-! ## Growing and cutting back -/

@[simp] theorem alloc_fst (f : Forest) (node : Node) : (f.alloc node).1 = f.size := rfl

@[simp] theorem nodes_alloc (f : Forest) (node : Node) : (f.alloc node).2.nodes = f.nodes.push node := rfl

@[simp] theorem size_alloc (f : Forest) (node : Node) : (f.alloc node).2.size = f.size + 1 := by
  simp [size]

theorem get?_alloc (f : Forest) (node : Node) (id : NodeId) :
    (f.alloc node).2.get? id = if id = f.size then some node else f.get? id := by
  unfold get? size
  rw [nodes_alloc, Array.getElem?_push]

theorem get?_alloc_self (f : Forest) (node : Node) : (f.alloc node).2.get? f.size = some node := by
  rw [get?_alloc, if_pos rfl]

theorem get?_alloc_of_some {f : Forest} {id : NodeId} {old : Node} (h : f.get? id = some old) (node : Node) :
    (f.alloc node).2.get? id = some old := by
  rw [get?_alloc, if_neg (Nat.ne_of_lt (get?_eq_some_lt h)), h]

@[simp] theorem cursor_alloc (f : Forest) (node : Node) (id : NodeId) :
    (f.alloc node).2.cursor id = f.cursor id := by
  have h : (f.alloc node).2.cursors = f.cursors.push 0 := rfl
  unfold cursor
  rw [h, Array.getD_eq_getD_getElem?, Array.getD_eq_getD_getElem?, Array.getElem?_push]
  split
  · rename_i hid
    rw [hid, Array.getElem?_eq_none (Nat.le_refl _)]
    rfl
  · rfl

theorem getElem?_shrink {α : Type} (xs : Array α) (size i : Nat) :
    (xs.shrink size)[i]? = if i < size then xs[i]? else none := by
  rw [← Array.getElem?_toList, Array.toList_shrink, List.getElem?_take, Array.getElem?_toList]

theorem get?_truncate (f : Forest) (size : Nat) (id : NodeId) :
    (f.truncate size).get? id = if id < size then f.get? id else none :=
  getElem?_shrink f.nodes size id

theorem cursor_truncate (f : Forest) {size : Nat} {id : NodeId} (h : id < size) :
    (f.truncate size).cursor id = f.cursor id := by
  have hc : (f.truncate size).cursors = f.cursors.shrink size := rfl
  unfold cursor
  rw [hc, Array.getD_eq_getD_getElem?, Array.getD_eq_getD_getElem?, getElem?_shrink, if_pos h]

/-- Cutting back to the size a forest has changes nothing. -/
theorem truncate_size (f : Forest) : f.truncate f.size = f := by
  refine ext ?_ ?_
  · show f.nodes.shrink f.nodes.size = f.nodes
    exact Array.toList_inj.1 (by rw [Array.toList_shrink, ← Array.length_toList, List.take_length])
  · show f.cursors.shrink f.nodes.size = f.cursors
    rw [← f.aligned]
    exact Array.toList_inj.1 (by rw [Array.toList_shrink, ← Array.length_toList, List.take_length])

/-- Every node of one forest stands in another, at the same place. -/
def Within (f g : Forest) : Prop :=
  ∀ id node, f.get? id = some node → g.get? id = some node

namespace Within

variable {f g h : Forest}

theorem refl (f : Forest) : f.Within f :=
  fun _ _ hn => hn

theorem trans (hfg : f.Within g) (hgh : g.Within h) : f.Within h :=
  fun id node hn => hgh id node (hfg id node hn)

theorem of_nodes (hn : f.nodes = g.nodes) : f.Within g :=
  fun id _ hf => get?_congr hn id ▸ hf

theorem size_le (hfg : f.Within g) : f.size ≤ g.size := by
  by_contra hlt
  obtain ⟨node, hn⟩ := exists_get? (Nat.lt_of_not_le hlt)
  exact Nat.lt_irrefl _ (get?_eq_some_lt (hfg _ node hn))

/-- Below the size of the smaller forest the larger one has no other nodes. -/
theorem get?_eq (hfg : f.Within g) {id : NodeId} (hid : id < f.size) : g.get? id = f.get? id := by
  obtain ⟨node, hn⟩ := exists_get? hid
  rw [hn, hfg id node hn]

end Within

/-- One forest extends another: its first nodes are those of the other, with the cursors they have
there, and no cursor of a new node has been moved. -/
structure Extends (f g : Forest) : Prop where
  nodes : ∀ {id : NodeId} {node : Node}, f.get? id = some node → g.get? id = some node
  cursor : ∀ id, g.cursor id = f.cursor id

namespace Extends

theorem refl (f : Forest) : f.Extends f :=
  ⟨fun h => h, fun _ => rfl⟩

theorem trans {f g h : Forest} (hfg : f.Extends g) (hgh : g.Extends h) : f.Extends h :=
  ⟨fun hn => hgh.nodes (hfg.nodes hn), fun id => (hgh.cursor id).trans (hfg.cursor id)⟩

theorem alloc (f : Forest) (node : Node) : f.Extends (f.alloc node).2 :=
  ⟨fun hn => get?_alloc_of_some hn node, cursor_alloc f node⟩

theorem within {f g : Forest} (h : f.Extends g) : f.Within g :=
  fun _ _ hn => h.nodes hn

theorem size_le {f g : Forest} (h : f.Extends g) : f.size ≤ g.size :=
  h.within.size_le

/-- Below the size it had, the extended forest has the nodes there were. -/
theorem get?_eq {f g : Forest} (h : f.Extends g) {id : NodeId} (hid : id < f.size) : g.get? id = f.get? id :=
  h.within.get?_eq hid

end Extends

theorem nodes_ext {f g : Forest} (h : ∀ id, f.get? id = g.get? id) : f.nodes = g.nodes :=
  Array.ext_getElem? h

/-- Cutting an extended forest back gives the nodes there were before, also when cursors have
moved meanwhile. -/
theorem nodes_truncate_of_extends {f g h : Forest} (hfg : f.Extends g) (hgh : h.nodes = g.nodes) :
    (h.truncate f.size).nodes = f.nodes := by
  refine nodes_ext fun id => ?_
  rw [get?_truncate, get?_congr hgh]
  by_cases hid : id < f.size
  · rw [if_pos hid, hfg.get?_eq hid]
  · rw [if_neg hid, get?_eq_none (Nat.le_of_not_lt hid)]

/-! ## Moving cursors -/

@[simp] theorem size_setCursor (f : Forest) (id : NodeId) (cursor : Nat) :
    (f.setCursor id cursor).size = f.size := rfl

theorem cursor_setCursor_ne {f : Forest} {id other : NodeId} (h : other ≠ id) (cursor : Nat) :
    (f.setCursor id cursor).cursor other = f.cursor other := by
  unfold Forest.cursor setCursor
  simp only [Array.getD_eq_getD_getElem?, Array.getElem?_setIfInBounds]
  rw [if_neg (Ne.symm h)]

theorem cursor_setCursor {f : Forest} {id : NodeId} (h : id < f.size) (cursor : Nat) (other : NodeId) :
    (f.setCursor id cursor).cursor other = if other = id then cursor else f.cursor other := by
  by_cases same : other = id
  · subst same
    unfold Forest.cursor setCursor
    simp only [Array.getD_eq_getD_getElem?, Array.getElem?_setIfInBounds, if_true]
    rw [if_pos (by rw [f.aligned]; exact h)]
    rfl
  · rw [if_neg same, cursor_setCursor_ne same]

end Formulary.Forest
