/-
Reverse Polish order. Assembling accepts atoms exactly when each finds as many operands as it takes
and one is left at the end. Nothing of them is lost then: there is a node for each, and the tree
that comes out has them in post-order. Every tree comes out of its own post-order again.
-/
import Formulary.Proofs.Infix.Assembly
import Formulary.Proofs.Infix.Tree

namespace Formulary

open Infix

/-! ## What makes atoms postfix -/

namespace Infix

/-- By how many operands there are more behind the atoms than before them: each takes what it needs
and leaves one. -/
def surplus (atoms : List Atom) : Int :=
  (atoms.map fun a => 1 - (a.arity : Int)).sum

theorem surplus_cons (a : Atom) (atoms : List Atom) : surplus (a :: atoms) = 1 - (a.arity : Int) + surplus atoms :=
  List.sum_cons

/-- Behind so many given operands the atoms are in reverse Polish order: each has the operands it
takes before it, and exactly one is left at the end. -/
structure ReversePolish (given : Nat) (atoms : List Atom) : Prop where
  supplied : ∀ before a after, atoms = before ++ a :: after → (a.arity : Int) ≤ given + surplus before
  single : given + surplus atoms = 1

theorem reversePolish_nil {given : Nat} : ReversePolish given [] ↔ given = 1 := by
  constructor
  · intro h
    have single := h.single
    simpa [surplus] using single
  · rintro rfl
    exact ⟨fun before a after h => by simp at h, rfl⟩

theorem reversePolish_cons {given : Nat} {a : Atom} {rest : List Atom} :
    ReversePolish given (a :: rest) ↔ a.arity ≤ given ∧ ReversePolish (given - a.arity + 1) rest := by
  constructor
  · intro h
    have here : a.arity ≤ given := by simpa [surplus] using h.supplied [] a rest rfl
    refine ⟨here, fun before b after hrest => ?_, ?_⟩
    · have there := h.supplied (a :: before) b after (by rw [hrest, List.cons_append])
      rw [surplus_cons] at there
      omega
    · have single := h.single
      rw [surplus_cons] at single
      omega
  · rintro ⟨here, h⟩
    refine ⟨fun before b after hq => ?_, ?_⟩
    · cases before with
      | nil =>
        cases hq
        simpa [surplus] using here
      | cons c before =>
        obtain ⟨rfl, hrest⟩ := List.cons.inj hq
        have there := h.supplied before b after hrest
        rw [surplus_cons]
        omega
    · have single := h.single
      rw [surplus_cons]
      omega

end Infix

namespace Forest

/-! ## What is accepted -/

/-- With the trees on the stack as the given operands, a root comes out of reverse Polish order and
of nothing else. -/
theorem exists_root_assemble {atoms : List Atom} (ha : ∀ a ∈ atoms, a.isMark = false) (f : Forest)
    (roots : List NodeId) : (∃ root, (f.assemble roots atoms).1 = some root) ↔ ReversePolish roots.length atoms := by
  induction atoms generalizing f roots with
  | nil =>
    rw [reversePolish_nil, List.length_eq_one_iff]
    unfold assemble
    split <;> simp_all
  | cons a rest ih =>
    rw [reversePolish_cons]
    rcases assemble_cons f roots rest (ha a (List.mem_cons_self ..)) with ⟨hle, node, -, -, heq⟩ | ⟨hlt, heq⟩
    · rw [heq, ih fun b hb => ha b (List.mem_cons_of_mem _ hb), List.length_cons, List.length_drop]
      exact (and_iff_right hle).symm
    · rw [heq]
      constructor
      · rintro ⟨root, h⟩
        cases h
      · rintro ⟨hle, -⟩
        exact absurd hlt (Nat.not_lt_of_le hle)

/-! ## From atoms to a tree -/

/-- Over the trees of the children of a node stands a tree that has the atom of the node last. -/
theorem exists_stands {f : Forest} {id : NodeId} {node : Node} (hn : f.get? id = some node) {ts : List Tree}
    (hts : List.Forall₂ f.Stands node.children ts) (happlied : ∀ t ∈ ts, t.Applied)
    (hlen : ts.length = node.atom.arity) :
    ∃ t, f.Stands id t ∧ t.Applied ∧ t.atoms = Tree.atomsAll ts ++ [node.atom] := by
  rcases node with ⟨text, operand | ⟨op, lhs, rhs⟩ | ⟨g, params⟩⟩
  · cases hts
    exact ⟨.leaf text operand, .leaf hn, .leaf text operand, rfl⟩
  · obtain ⟨l, r, rfl⟩ := List.length_eq_two.1 hlen
    obtain _ | ⟨hl, _ | ⟨hr, -⟩⟩ := hts
    refine ⟨.binary text op l r, .binary hn hl hr, .binary (happlied l (by simp)) (happlied r (by simp)), ?_⟩
    simp [Tree.atoms, Tree.atomsAll, Node.atom]
  · exact ⟨.call text g ts, .call hn hts, .call hlen happlied, rfl⟩

/-- The trees on the stack become parts of the tree that comes out, and their atoms the first of its
atoms. -/
theorem stands_assemble {atoms : List Atom} (ha : ∀ a ∈ atoms, a.isMark = false) {f g : Forest}
    {roots : List NodeId} {ts : List Tree} {root : NodeId} (hr : List.Forall₂ f.Stands roots ts)
    (happlied : ∀ t ∈ ts, t.Applied) (h : f.assemble roots atoms = (some root, g)) :
    ∃ t, g.Stands root t ∧ t.Applied ∧ t.atoms = Tree.atomsAll ts.reverse ++ atoms := by
  induction atoms generalizing f roots ts with
  | nil =>
    unfold assemble at h
    split at h
    · cases h
      obtain ⟨t, rest, ht, hrest, rfl⟩ := List.forall₂_cons_left_iff.1 hr
      cases hrest
      exact ⟨t, ht, happlied t (List.mem_singleton_self t), by simp [Tree.atomsAll]⟩
    · cases h
  | cons a rest ih =>
    obtain ⟨ha, hrest⟩ := List.forall_mem_cons.1 ha
    rcases assemble_cons f roots rest ha with ⟨hle, node, rfl, hchildren, heq⟩ | ⟨-, heq⟩
    · rw [heq] at h
      have keep := Extends.alloc f node
      -- the node takes the topmost trees, in the order in which they came
      have parts : List.Forall₂ (f.alloc node).2.Stands node.children (ts.take node.atom.arity).reverse := by
        rw [hchildren]
        exact List.rel_reverse ((List.forall₂_take _ hr).imp fun _ _ ht => ht.extends keep)
      have hlen : (ts.take node.atom.arity).reverse.length = node.atom.arity := by
        rw [List.length_reverse, List.length_take, ← hr.length_eq, Nat.min_eq_left hle]
      obtain ⟨top, stands, applied, htop⟩ := exists_stands (get?_alloc_self f node) parts
        (fun t ht => happlied t (List.mem_of_mem_take (List.mem_reverse.1 ht))) hlen
      have others := (List.forall₂_drop node.atom.arity hr).imp fun _ _ ht => ht.extends keep
      obtain ⟨whole, hwhole, hwa, hatoms⟩ := ih hrest (.cons stands others)
        (List.forall_mem_cons.2 ⟨applied, fun t ht => happlied t (List.mem_of_mem_drop ht)⟩) h
      refine ⟨whole, hwhole, hwa, ?_⟩
      have split : ts.reverse = (ts.drop node.atom.arity).reverse ++ (ts.take node.atom.arity).reverse := by
        rw [← List.reverse_append, List.take_append_drop]
      rw [hatoms, split, List.reverse_cons, Tree.atomsAll_append, Tree.atomsAll_append, Tree.atomsAll,
        Tree.atomsAll, htop]
      simp
    · rw [heq] at h
      cases h

/-! ## The correspondence -/

/-- What assembling makes of atoms without losing any: behind the nodes that were there, which stay
as they are, one for each atom in turn; the last of them is the root, and its tree has the atoms in
post-order. -/
structure Assembles (f : Forest) (atoms : List Atom) (root : NodeId) (g : Forest) : Prop where
  nodes : ∃ added : List Node, g.nodes.toList = f.nodes.toList ++ added ∧ added.map Node.atom = atoms
  cursor : ∀ id, g.cursor id = f.cursor id
  last : root + 1 = f.size + atoms.length
  tree : ∃ t : Tree, g.Stands root t ∧ t.Applied ∧ t.atoms = atoms

theorem assembles_of_root {atoms : List Atom} (ha : ∀ a ∈ atoms, a.isMark = false) {f g : Forest} {root : NodeId}
    (h : f.assemble [] atoms = (some root, g)) : f.Assembles atoms root g := by
  have hroot : (f.assemble [] atoms).1 = some root := by rw [h]
  obtain ⟨added, hnodes, -, hall⟩ := nodes_assemble atoms f []
  have hadded := hall root hroot
  rw [List.filter_eq_self.2 fun a hmem => by simp [ha a hmem]] at hadded
  have hs := spans_assemble atoms (.nil f.size) hroot
  have grown := grown_assemble atoms f []
  rw [h] at hnodes hs grown
  obtain ⟨hsize, -⟩ := Spans.singleton_iff.1 hs
  refine ⟨⟨added, hnodes, hadded⟩, grown.cursor, ?_, stands_assemble ha .nil (List.forall_mem_nil _) h⟩
  have hlen := congrArg List.length hnodes
  rw [List.length_append, Array.length_toList, Array.length_toList] at hlen
  rw [← hsize, ← hadded, List.length_map]
  exact hlen

/-- A root comes out of atoms exactly if they are in reverse Polish order, and then none of them is
lost. Conversely the atoms of a tree make that tree. -/
theorem assemble_reversePolish (f : Forest) {atoms : List Atom} (ha : ∀ a ∈ atoms, a.isMark = false) :
    ((∃ root, (f.assemble [] atoms).1 = some root) ↔ ReversePolish 0 atoms) ∧
      (∀ root g, f.assemble [] atoms = (some root, g) → f.Assembles atoms root g) ∧
      ∀ t : Tree, t.Applied → ∃ root g, f.assemble [] t.atoms = (some root, g) ∧ g.Stands root t := by
  refine ⟨exists_root_assemble ha f [], fun root g h => assembles_of_root ha h, fun t ht => ?_⟩
  have planted := assemble_atoms ht f [] []
  rw [List.append_nil] at planted
  exact ⟨_, _, planted, stands_plant t f⟩

/-- The tree of `log(8, [2]) + PI`. -/
def logarithmPlusPi : Tree :=
  .binary "+" .plus (.call "log" .log [.leaf "8" (.number 8), .leaf "" (.list #[.number 2])]) (.call "PI" .pi [])

theorem assemble_logarithmPlusPi :
    (∀ a ∈ logarithmPlusPi.atoms, a.isMark = false) ∧ ReversePolish 0 logarithmPlusPi.atoms ∧
    (∃ root g, Forest.empty.assemble [] logarithmPlusPi.atoms = (some root, g) ∧
      Forest.empty.Assembles logarithmPlusPi.atoms root g) ∧
    logarithmPlusPi.Applied ∧ ∃ root g, Forest.empty.assemble [] logarithmPlusPi.atoms = (some root, g) ∧
      g.Stands root logarithmPlusPi := by
  have hatoms : logarithmPlusPi.atoms = [⟨"8", .operand (.number 8)⟩, ⟨"", .operand (.list #[.number 2])⟩,
      ⟨"log", .builtin .log⟩, ⟨"PI", .builtin .pi⟩, ⟨"+", .operator .plus⟩] := rfl
  have hmarks : ∀ a ∈ logarithmPlusPi.atoms, a.isMark = false := by simp [hatoms, Infix.Atom.isMark]
  have hpolish : ReversePolish 0 logarithmPlusPi.atoms := by
    simp [hatoms, reversePolish_cons, reversePolish_nil, Infix.Atom.arity, Builtin.arity]
  have happlied : logarithmPlusPi.Applied :=
    .binary (.call rfl (by simp [Tree.Applied.leaf])) (.call rfl (List.forall_mem_nil _))
  obtain ⟨haccepts, hassembles, hplants⟩ := assemble_reversePolish .empty hmarks
  obtain ⟨root, hroot⟩ := haccepts.2 hpolish
  exact ⟨hmarks, hpolish, ⟨root, _, Prod.ext hroot rfl, hassembles root _ (Prod.ext hroot rfl)⟩, happlied,
    hplants _ happlied⟩

end Forest

end Formulary
