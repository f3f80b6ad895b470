/-
Putting atoms together, whatever atoms they are. The forest only grows; the trees on the stack lie
side by side behind what was there before; and when a root comes out, its tree is everything that
was added, from the first new node to the last.
-/
import Formulary.Infix.Assembly
import Formulary.Proofs.Forest.Layout

namespace Formulary

open Infix

/-! ## What a forest has to do with atoms -/

/-- The tree a variable atom stands for. -/
def Infix.Atom.target? (a : Atom) : Option NodeId :=
  match a.meaning with
  | .operand (.variable _ target) => some target
  | _ => none

/-- The tree a variable node stands for. -/
def Node.target? (node : Node) : Option NodeId :=
  match node.content with
  | .leaf (.variable _ target) => some target
  | _ => none

/-- An evaluation goes on from a node to its target and to its children. -/
theorem Node.mem_references {node : Node} {next : NodeId} :
    next ∈ node.references ↔ node.target? = some next ∨ next ∈ node.children := by
  rcases node with ⟨text, (x | ⟨name, target⟩ | items) | ⟨op, lhs, rhs⟩ | ⟨g, params⟩⟩ <;>
    simp [references, children, target?, eq_comm]

/-- A function node has as many children as its function has parameters. -/
def Node.Applied (node : Node) : Prop :=
  ∀ g params, node.content = .call g params → params.length = g.arity

/-- Whether the atom is punctuation, for which no node is made. -/
def Infix.Atom.isMark (a : Atom) : Bool :=
  match a.meaning with
  | .mark _ => true
  | _ => false

/-- How many trees the node of an atom takes for its children. -/
def Infix.Atom.arity (a : Atom) : Nat :=
  match a.meaning with
  | .operator _ => 2
  | .builtin f => f.arity
  | _ => 0

/-- The atom that a node is made for. -/
def Node.atom (node : Node) : Atom where
  text := node.text
  meaning :=
    match node.content with
    | .leaf operand => .operand operand
    | .binary op _ _ => .operator op
    | .call g _ => .builtin g

theorem Node.target?_atom (node : Node) : node.atom.target? = node.target? := by
  rcases node with ⟨text, (_ | _ | _) | _ | _⟩ <;> rfl

theorem Node.applied_of_length {node : Node} (h : node.children.length = node.atom.arity) : node.Applied := by
  rcases node with ⟨text, content⟩
  rintro g params rfl
  exact h

namespace Forest

/-- What assembling atoms makes of a forest: it grows, the new variables stand for what atoms stand
for, and the new functions have all their parameters. -/
structure Grown (f : Forest) (atoms : List Atom) (g : Forest) : Prop extends f.Extends g where
  targets : ∀ {id : NodeId} {node : Node} {target : NodeId}, f.size ≤ id → g.get? id = some node →
    node.target? = some target → ∃ a ∈ atoms, a.target? = some target
  applied : ∀ {id : NodeId} {node : Node}, f.size ≤ id → g.get? id = some node → node.Applied

namespace Grown

theorem refl (f : Forest) (atoms : List Atom) : f.Grown atoms f where
  toExtends := .refl f
  targets hle hn := absurd (get?_eq_some_lt hn) (Nat.not_lt_of_le hle)
  applied hle hn := absurd (get?_eq_some_lt hn) (Nat.not_lt_of_le hle)

/-- One more atom: a node for it first, then what the other atoms make. -/
theorem cons {f g : Forest} {a : Atom} {atoms : List Atom} {node : Node} (h : (f.alloc node).2.Grown atoms g)
    (ht : ∀ target, node.target? = some target → a.target? = some target) (ha : node.Applied) :
    f.Grown (a :: atoms) g where
  toExtends := (Extends.alloc f node).trans h.toExtends
  targets {id other target} hle hn hother := by
    rcases Nat.lt_or_eq_of_le hle with hlt | rfl
    · obtain ⟨b, hb, hbt⟩ := h.targets (by rw [size_alloc]; exact hlt) hn hother
      exact ⟨b, List.mem_cons_of_mem _ hb, hbt⟩
    · rw [h.nodes (get?_alloc_self f node)] at hn
      cases hn
      exact ⟨a, List.mem_cons_self .., ht target hother⟩
  applied {id other} hle hn := by
    rcases Nat.lt_or_eq_of_le hle with hlt | rfl
    · exact h.applied (by rw [size_alloc]; exact hlt) hn
    · rw [h.nodes (get?_alloc_self f node)] at hn
      cases hn
      exact ha

theorem weaken {f g : Forest} {atoms more : List Atom} (h : f.Grown atoms g) (hm : ∀ a ∈ atoms, a ∈ more) :
    f.Grown more g where
  toExtends := h.toExtends
  targets hle hn ht := by
    obtain ⟨a, ha, hat⟩ := h.targets hle hn ht
    exact ⟨a, hm a ha, hat⟩
  applied := h.applied

end Grown

/-! ## Assembling -/

/-- What becomes of an atom that is no mark: a node over the topmost trees, as many as it takes, or
a failure if there are fewer. -/
theorem assemble_cons (f : Forest) (roots : List NodeId) {a : Atom} (rest : List Atom) (ha : a.isMark = false) :
    (a.arity ≤ roots.length ∧ ∃ node : Node, node.atom = a ∧ node.children = (roots.take a.arity).reverse ∧
      f.assemble roots (a :: rest) = (f.alloc node).2.assemble (f.size :: roots.drop a.arity) rest) ∨
    roots.length < a.arity ∧ f.assemble roots (a :: rest) = (none, f) := by
  rcases a with ⟨text, operand | op | g | m⟩
  · exact .inl ⟨Nat.zero_le _, ⟨text, .leaf operand⟩, rfl, rfl, rfl⟩
  · match roots with
    | rhs :: lhs :: others => exact .inl ⟨by simp [Infix.Atom.arity], ⟨text, .binary op lhs rhs⟩, rfl, rfl, rfl⟩
    | [] | [_] => exact .inr ⟨by simp [Infix.Atom.arity], rfl⟩
  · simp only [assemble]
    rcases Nat.lt_or_ge roots.length g.arity with hlt | hle
    · rw [if_neg (by simp [hlt])]
      exact .inr ⟨hlt, rfl⟩
    · rw [if_pos (by simp [hle])]
      exact .inl ⟨hle, ⟨text, .call g (roots.take g.arity).reverse⟩, rfl, rfl, rfl⟩
  · cases ha

/-- Marks are passed over. -/
theorem assemble_mark (f : Forest) (roots : List NodeId) {a : Atom} (rest : List Atom) (ha : a.isMark = true) :
    f.assemble roots (a :: rest) = f.assemble roots rest := by
  rcases a with ⟨text, _ | _ | _ | m⟩
  case mark => rfl
  all_goals cases ha

/-- The nodes that are added are those of the first atoms, marks left aside, and of all of them if
a root comes out. -/
theorem nodes_assemble (atoms : List Atom) (f : Forest) (roots : List NodeId) :
    ∃ added : List Node, (f.assemble roots atoms).2.nodes.toList = f.nodes.toList ++ added ∧
      added.map Node.atom <+: atoms.filter (!·.isMark) ∧
      ∀ root, (f.assemble roots atoms).1 = some root → added.map Node.atom = atoms.filter (!·.isMark) := by
  induction atoms generalizing f roots with
  | nil =>
    refine ⟨[], ?_, List.nil_prefix, fun _ _ => rfl⟩
    unfold assemble
    split <;> rw [List.append_nil]
  | cons a rest ih =>
    cases ha : a.isMark with
    | true =>
      rw [assemble_mark f roots rest ha, List.filter_cons_of_neg (by simp [ha])]
      exact ih f roots
    | false =>
      simp only [List.filter_cons, ha, Bool.not_false, if_true]
      rcases assemble_cons f roots rest ha with ⟨-, node, rfl, -, heq⟩ | ⟨-, heq⟩
      · obtain ⟨added, hnodes, hfirst, hall⟩ := ih (f.alloc node).2 (f.size :: roots.drop node.atom.arity)
        rw [heq]
        refine ⟨node :: added, ?_, ?_, fun root hroot => ?_⟩
        · rw [hnodes, nodes_alloc, Array.toList_push, List.append_assoc, List.singleton_append]
        · exact List.cons_prefix_cons.2 ⟨rfl, hfirst⟩
        · rw [List.map_cons, hall root hroot]
      · rw [heq]
        exact ⟨[], (List.append_nil _).symm, List.nil_prefix, fun root hroot => by cases hroot⟩

/-- Assembling lets a forest grow, also when it fails. -/
theorem grown_assemble (atoms : List Atom) (f : Forest) (roots : List NodeId) :
    f.Grown atoms (f.assemble roots atoms).2 := by
  induction atoms generalizing f roots with
  | nil =>
    unfold assemble
    split <;> exact .refl f []
  | cons a rest ih =>
    cases ha : a.isMark with
    | true =>
      rw [assemble_mark f roots rest ha]
      exact (ih f roots).weaken fun b hb => List.mem_cons_of_mem _ hb
    | false =>
      rcases assemble_cons f roots rest ha with ⟨hle, node, rfl, hchildren, heq⟩ | ⟨-, heq⟩
      · rw [heq]
        refine (ih ..).cons (fun target ht => by rwa [node.target?_atom]) (Node.applied_of_length ?_)
        rw [hchildren, List.length_reverse, List.length_take, Nat.min_eq_left hle]
      · rw [heq]
        exact .refl f _

/-- A new root over the last trees of a row takes their place. -/
theorem spans_alloc {f : Forest} {lo : Nat} {roots : List Nat} (under : List Nat) {node : Node}
    (h : f.Spans lo (roots.reverse ++ under) f.size) (hc : node.children = under) :
    (f.alloc node).2.Spans lo (f.size :: roots).reverse (f.alloc node).2.size := by
  obtain ⟨mid, hr, hu⟩ := h.split
  have keep := (Extends.alloc f node)
  rw [List.reverse_cons, size_alloc]
  refine (hr.transfer fun id node' _ hn => keep.nodes hn).append ?_
  refine Spans.singleton_iff.2 ⟨rfl, node, get?_alloc_self f node, ?_⟩
  rw [hc]
  exact hu.transfer fun id node' _ hn => keep.nodes hn

/-- The trees on the stack lie side by side, and so does the tree they come to. -/
theorem spans_assemble (atoms : List Atom) {f : Forest} {lo : Nat} {roots : List NodeId} {root : NodeId}
    (hs : f.Spans lo roots.reverse f.size) (h : (f.assemble roots atoms).1 = some root) :
    (f.assemble roots atoms).2.Spans lo [root] (f.assemble roots atoms).2.size := by
  induction atoms generalizing f roots with
  | nil =>
    unfold assemble at h ⊢
    split at h
    · cases h
      exact hs
    · cases h
  | cons a rest ih =>
    cases ha : a.isMark with
    | true =>
      rw [assemble_mark f roots rest ha] at h ⊢
      exact ih hs h
    | false =>
      rcases assemble_cons f roots rest ha with ⟨-, node, -, hchildren, heq⟩ | ⟨-, heq⟩
      · -- the new node goes over the trees that it takes as children
        rw [heq] at h ⊢
        refine ih (spans_alloc (roots.take a.arity).reverse ?_ hchildren) h
        rwa [← List.reverse_append, List.take_append_drop]
      · rw [heq] at h
        cases h

/-- The tree of assembled atoms: everything from the first new node on. -/
theorem spans_finish {y : Yard} {f g : Forest} {root : NodeId} (h : y.finish f = (some root, g)) :
    g.Spans f.size [root] g.size := by
  unfold Yard.finish at h
  split at h
  · have hr : (f.assemble [] y.atoms).1 = some root := by rw [h]
    have hs := spans_assemble y.atoms (.nil f.size) hr
    rwa [h] at hs
  · cases h

theorem grown_finish {y : Yard} {f g : Forest} {root? : Option NodeId} (h : y.finish f = (root?, g)) :
    f.Grown y.atoms g := by
  unfold Yard.finish at h
  split at h
  · have := grown_assemble y.atoms f []
    rwa [h] at this
  · cases h
    exact .refl ..

/-- Every new node is made for one of the atoms. -/
theorem atom_mem_of_finish {y : Yard} {f g : Forest} {root? : Option NodeId} (h : y.finish f = (root?, g))
    {id : NodeId} {node : Node} (hle : f.size ≤ id) (hn : g.get? id = some node) : node.atom ∈ y.atoms := by
  unfold Yard.finish at h
  split at h
  · obtain ⟨added, hnodes, hfirst, -⟩ := nodes_assemble y.atoms f []
    rw [h] at hnodes
    rw [get?, ← Array.getElem?_toList, hnodes, List.getElem?_append_right (by rwa [Array.length_toList])] at hn
    have hmem := List.mem_map_of_mem (f := Node.atom) (List.mem_of_getElem? hn)
    exact List.mem_of_mem_filter (hfirst.subset hmem)
  · cases h
    exact absurd (get?_eq_some_lt hn) (Nat.not_lt_of_le hle)

/-- Assembling does not look at cursors. -/
theorem assemble_congr (atoms : List Atom) {f g : Forest} (hn : f.nodes = g.nodes) (roots : List NodeId) :
    (f.assemble roots atoms).1 = (g.assemble roots atoms).1 ∧
      (f.assemble roots atoms).2.nodes = (g.assemble roots atoms).2.nodes := by
  induction atoms generalizing f g roots with
  | nil =>
    unfold assemble
    split <;> exact ⟨rfl, hn⟩
  | cons a rest ih =>
    have more : ∀ node, (f.alloc node).2.nodes = (g.alloc node).2.nodes := fun node => by
      rw [nodes_alloc, nodes_alloc, hn]
    rcases a with ⟨text, operand | op | h | m⟩ <;> simp only [assemble, alloc_fst, size_congr hn]
    · exact ih (more _) _
    · split
      · exact ih (more _) _
      · exact ⟨rfl, hn⟩
    · split
      · exact ih (more _) _
      · exact ⟨rfl, hn⟩
    · exact ih hn roots

theorem finish_congr (y : Yard) {f g : Forest} (hn : f.nodes = g.nodes) :
    (y.finish f).1 = (y.finish g).1 ∧ (y.finish f).2.nodes = (y.finish g).2.nodes := by
  unfold Yard.finish
  split
  · exact assemble_congr y.atoms hn []
  · exact ⟨rfl, hn⟩

/-- Assembling keeps to earlier nodes, as long as the variables stand for such. -/
theorem descends_finish {y : Yard} {f g : Forest} {root : NodeId} (hf : f.Descends)
    (ht : ∀ a ∈ y.atoms, ∀ target, a.target? = some target → target < f.size) (h : y.finish f = (some root, g)) :
    g.Descends := by
  have hg := grown_finish h
  have hs := spans_finish h
  intro id node hn next hnext
  by_cases hid : id < f.size
  · exact hf id node (by rw [← hg.get?_eq hid]; exact hn) next hnext
  · have hle := Nat.le_of_not_lt hid
    rcases Node.mem_references.1 hnext with htarget | hchild
    · obtain ⟨a, ha, hat⟩ := hg.targets hle hn htarget
      exact Nat.lt_of_lt_of_le (ht a ha next hat) hle
    · exact hs.children_lt hn hle (get?_eq_some_lt hn) next hchild

/-- From among the nodes there were before, a new root reaches only those that one of its variables
reaches. -/
theorem reaches_finish {y : Yard} {f g : Forest} {root place : NodeId} (hf : f.Descends)
    (ht : ∀ a ∈ y.atoms, ∀ target, a.target? = some target → target < f.size) (h : y.finish f = (some root, g))
    (hp : place < f.size) (hr : g.Reaches root place) :
    ∃ a ∈ y.atoms, ∃ target, a.target? = some target ∧ f.Reaches target place := by
  have hg := grown_finish h
  have hs := spans_finish h
  -- behind the old end the way leads to children there, until a variable takes it back
  have onward : ∀ id, g.Reaches id place → f.size ≤ id →
      ∃ a ∈ y.atoms, ∃ target, a.target? = some target ∧ f.Reaches target place := by
    intro id hreach
    induction hreach using Relation.ReflTransGen.head_induction_on with
    | refl => exact fun hle => absurd hp (Nat.not_lt_of_le hle)
    | @head id next hl hrest ih =>
      intro hle
      obtain ⟨node, hn, hnext⟩ := hl
      rcases Node.mem_references.1 hnext with htarget | hchild
      · obtain ⟨a, ha, hat⟩ := hg.targets hle hn htarget
        have grounded := hf.grounded (ht a ha next hat)
        exact ⟨a, ha, next, hat, (hg.toExtends.within.reaches_iff grounded).1 hrest⟩
      · exact ih (hs.le_children hn hle (get?_eq_some_lt hn) next hchild)
  exact onward root hr hs.root_bounds.1

end Forest

end Formulary
