/-
The references of a forest as a graph: a node refers to its children, and a variable to the tree it
was bound to. A place is grounded when everything reached from it is live and no way leads back to
where it began. Exactly the grounded places have a full tree, and its height is at most the number
of nodes, since each step down leaves one node less to be reached.
-/
import Formulary.Proofs.Forest.FullTree

namespace Formulary.Forest

open Relation

/-- An evaluation goes on from one place to another. -/
def Leads (f : Forest) (a b : NodeId) : Prop :=
  ∃ node, f.get? a = some node ∧ b ∈ node.references

/-- An evaluation comes from one place to another, after any number of steps. -/
def Reaches (f : Forest) : NodeId → NodeId → Prop :=
  ReflTransGen f.Leads

/-- Everything reached from the place is live, and no way leads back. -/
structure Grounded (f : Forest) (id : NodeId) : Prop where
  live : ∀ place, f.Reaches id place → place < f.size
  acyclic : ∀ place, f.Reaches id place → ¬ TransGen f.Leads place place

theorem Leads.congr {f g : Forest} (h : f.nodes = g.nodes) {a b : NodeId} (hab : f.Leads a b) : g.Leads a b := by
  obtain ⟨node, hn, hb⟩ := hab
  exact ⟨node, by rw [← get?_congr h]; exact hn, hb⟩

theorem Reaches.congr {f g : Forest} (h : f.nodes = g.nodes) {a b : NodeId} (hab : f.Reaches a b) : g.Reaches a b :=
  ReflTransGen.mono (fun _ _ hl => Leads.congr h hl) a b hab

theorem Grounded.step {f : Forest} {a b : NodeId} (h : f.Grounded a) (hab : f.Leads a b) : f.Grounded b :=
  ⟨fun place hp => h.live place (.head hab hp), fun place hp => h.acyclic place (.head hab hp)⟩

/-- From a place whose references are all live nothing new comes in reach when a forest grows. -/
theorem Within.reaches_iff {f g : Forest} (hfg : f.Within g) {root place : NodeId} (hr : f.Grounded root) :
    g.Reaches root place ↔ f.Reaches root place := by
  constructor
  · intro hreach
    induction hreach with
    | refl => exact .refl
    | @tail last _ _ hl ih =>
      -- the way has been in the smaller forest so far, so the node it goes on from is there too
      obtain ⟨node, hn, hnext⟩ := hl
      rw [hfg.get?_eq (hr.live last ih)] at hn
      exact ih.tail ⟨node, hn, hnext⟩
  · refine ReflTransGen.mono ?_ root place
    rintro a b ⟨node, hn, hb⟩
    exact ⟨node, hfg a node hn, hb⟩

/-! ## From grounded places to full trees -/

section Reach

open Classical

/-- The live places reached from a place. -/
noncomputable def reach (f : Forest) (id : NodeId) : Finset NodeId :=
  {place ∈ Finset.range f.size | f.Reaches id place}

theorem mem_reach {f : Forest} {id place : NodeId} (h : f.Grounded id) : place ∈ f.reach id ↔ f.Reaches id place := by
  unfold reach
  rw [Finset.mem_filter, Finset.mem_range]
  constructor
  · exact fun hp => hp.2
  · exact fun hp => ⟨h.live place hp, hp⟩

/-- A step down reaches fewer places: the one it leaves is not among them. -/
theorem card_reach_lt {f : Forest} {a b : NodeId} (h : f.Grounded a) (hab : f.Leads a b) :
    (f.reach b).card < (f.reach a).card := by
  apply Finset.card_lt_card
  constructor
  · intro place hp
    rw [mem_reach (h.step hab)] at hp
    exact (mem_reach h).2 (.head hab hp)
  · intro hsub
    have ha : a ∈ f.reach b := hsub ((mem_reach h).2 .refl)
    rw [mem_reach (h.step hab)] at ha
    exact h.acyclic a .refl (TransGen.head' hab ha)

theorem card_reach_le (f : Forest) (id : NodeId) : (f.reach id).card ≤ f.size := by
  unfold reach
  exact (Finset.card_filter_le _ _).trans (Finset.card_range f.size).le

end Reach

theorem exists_forall₂ {α β : Type} {R : α → β → Prop} {P : β → Prop} :
    ∀ {xs : List α}, (∀ x ∈ xs, ∃ y, R x y ∧ P y) → ∃ ys, List.Forall₂ R xs ys ∧ ∀ y ∈ ys, P y
  | [], _ => ⟨[], .nil, by simp⟩
  | x :: xs, h => by
    obtain ⟨y, hy, hp⟩ := h x (List.mem_cons_self ..)
    obtain ⟨ys, hys, hps⟩ := exists_forall₂ fun x hx => h x (List.mem_cons_of_mem _ hx)
    exact ⟨y :: ys, .cons hy hys, by simpa using ⟨hp, hps⟩⟩

/-- A place whose references all have full trees below a height has one just above it. -/
theorem exists_unfolds_of_references {f : Forest} {id : NodeId} {node : Node} {n : Nat} (hn : f.get? id = some node)
    (h : ∀ next ∈ node.references, ∃ t, f.Unfolds next t ∧ t.height ≤ n) :
    ∃ t, f.Unfolds id t ∧ t.height ≤ n + 1 := by
  rcases node with ⟨text, (x | ⟨name, target⟩ | items) | ⟨op, lhs, rhs⟩ | ⟨g, params⟩⟩
  · exact ⟨.number x, .number hn, by simp [FullTree.height]⟩
  · obtain ⟨t, ht, hh⟩ := h target (by simp [Node.references])
    exact ⟨.reference t, .reference hn ht, by simpa [FullTree.height] using hh⟩
  · exact ⟨.list id items, .list hn, by simp [FullTree.height]⟩
  · obtain ⟨l, hl, hlh⟩ := h lhs (by simp [Node.references, Node.children])
    obtain ⟨r, hr, hrh⟩ := h rhs (by simp [Node.references, Node.children])
    exact ⟨.binary op l r, .binary hn hl hr, by simp [FullTree.height, hlh, hrh]⟩
  · obtain ⟨ts, hts, hh⟩ := exists_forall₂ (R := f.Unfolds) (P := fun t => t.height ≤ n)
      fun p (hp : p ∈ params) => h p (by simpa [Node.references, Node.children] using hp)
    exact ⟨.call g ts, .call hn hts, by simpa [FullTree.height] using FullTree.heightAll_le.2 hh⟩

theorem Grounded.exists_unfolds_card {f : Forest} {id : NodeId} (h : f.Grounded id) :
    ∃ t, f.Unfolds id t ∧ t.height ≤ (f.reach id).card := by
  induction hc : (f.reach id).card using Nat.strong_induction_on generalizing id with
  | _ c ih =>
    obtain ⟨node, hn⟩ := exists_get? (h.live id .refl)
    have hpos : 0 < c := hc ▸ Finset.card_pos.2 ⟨id, (mem_reach h).2 .refl⟩
    have hrefs : ∀ next ∈ node.references, ∃ t, f.Unfolds next t ∧ t.height ≤ c - 1 := by
      intro next hnext
      have hl : f.Leads id next := ⟨node, hn, hnext⟩
      have hlt := card_reach_lt h hl
      obtain ⟨t, ht, hh⟩ := ih _ (hc ▸ hlt) (h.step hl) rfl
      exact ⟨t, ht, by omega⟩
    obtain ⟨t, ht, hh⟩ := exists_unfolds_of_references hn hrefs
    exact ⟨t, ht, by omega⟩

/-- A grounded place has a full tree, no higher than the forest has nodes. -/
theorem Grounded.exists_unfolds {f : Forest} {id : NodeId} (h : f.Grounded id) :
    ∃ t, f.Unfolds id t ∧ t.height ≤ f.size := by
  obtain ⟨t, ht, hh⟩ := h.exists_unfolds_card
  exact ⟨t, ht, hh.trans (card_reach_le f id)⟩

/-- Every node refers to earlier nodes only. -/
def Descends (f : Forest) : Prop :=
  ∀ id node, f.get? id = some node → ∀ next ∈ node.references, next < id

theorem Descends.congr {f g : Forest} (hn : f.nodes = g.nodes) (h : f.Descends) : g.Descends :=
  fun id node hg => h id node (by rw [get?_congr hn]; exact hg)

/-- Where references go to earlier nodes only, every live place is grounded. -/
theorem Descends.grounded {f : Forest} (h : f.Descends) {id : NodeId} (hid : id < f.size) : f.Grounded id := by
  have hlt : ∀ {a b}, f.Leads a b → b < a := fun {a b} ⟨node, hn, hb⟩ => h a node hn b hb
  have htrans : ∀ {a b}, TransGen f.Leads a b → b < a := by
    intro a b hab
    induction hab with
    | single hl => exact hlt hl
    | tail _ hl ih => exact (hlt hl).trans ih
  constructor
  · intro place hp
    rcases reflTransGen_iff_eq_or_transGen.1 hp with rfl | hp
    · exact hid
    · exact (htrans hp).trans hid
  · exact fun place _ hcycle => Nat.lt_irrefl _ (htrans hcycle)

end Formulary.Forest
