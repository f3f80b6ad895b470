/-
Trees apart from any forest. A tree has a row of atoms in reverse Polish order, and assembling that
row plants the tree: its nodes are added to the forest, the children before their parents, and it
then stands under the last of them. At most one tree stands under a place.
-/
import Formulary.Proofs.Forest.FullTree
import Formulary.Infix.Assembly

namespace Formulary

open Infix

/-- The tree of a formula: operands, and operators and functions over other trees. -/
inductive Tree where
  | leaf (text : String) (operand : Operand)
  | binary (text : String) (op : Operator) (lhs rhs : Tree)
  | call (text : String) (f : Builtin) (params : List Tree)

/-- An operator as the atom that is read for it. -/
def Operator.atom (op : Operator) : Atom :=
  ⟨op.symbol, .operator op⟩

/-- A function as the atom that is read for it. -/
def Builtin.atom (f : Builtin) : Atom :=
  ⟨f.symbol, .builtin f⟩

namespace Tree

@[elab_as_elim]
theorem induct {motive : Tree → Prop} (leaf : ∀ text operand, motive (.leaf text operand))
    (binary : ∀ text op l r, motive l → motive r → motive (.binary text op l r))
    (call : ∀ text f params, (∀ t ∈ params, motive t) → motive (.call text f params)) : ∀ t, motive t
  | .leaf text operand => leaf text operand
  | .binary text op l r => binary text op l r (induct leaf binary call l) (induct leaf binary call r)
  | .call text f params => call text f params fun t _ => induct leaf binary call t

mutual

/-- The atoms of a tree in reverse Polish order: those of its parts from left to right, and the topmost
one last. -/
def atoms : Tree → List Atom
  | leaf text operand => [⟨text, .operand operand⟩]
  | binary text op l r => l.atoms ++ (r.atoms ++ [⟨text, .operator op⟩])
  | call text f params => atomsAll params ++ [⟨text, .builtin f⟩]

/-- The atoms of trees, one after the other. -/
def atomsAll : List Tree → List Atom
  | [] => []
  | t :: ts => t.atoms ++ atomsAll ts

end

mutual

/-- Adds the nodes of a tree to a forest and tells the place of its root. -/
def plant : Tree → Forest → NodeId × Forest
  | leaf text operand, f => f.alloc ⟨text, .leaf operand⟩
  | binary text op l r, f =>
    let lhs := l.plant f
    let rhs := r.plant lhs.2
    rhs.2.alloc ⟨text, .binary op lhs.1 rhs.1⟩
  | call text g params, f =>
    let roots := plantAll params f
    roots.2.alloc ⟨text, .call g roots.1⟩

/-- Adds the nodes of trees, from left to right. -/
def plantAll : List Tree → Forest → List NodeId × Forest
  | [], f => ([], f)
  | t :: ts, f =>
    let root := t.plant f
    let roots := plantAll ts root.2
    (root.1 :: roots.1, roots.2)

end

theorem atomsAll_append (ts us : List Tree) : atomsAll (ts ++ us) = atomsAll ts ++ atomsAll us := by
  induction ts with
  | nil => rfl
  | cons t ts ih => rw [List.cons_append, atomsAll, ih, atomsAll, List.append_assoc]

/-- Every function has all its parameters. -/
inductive Applied : Tree → Prop
  | leaf (text : String) (operand : Operand) : Applied (.leaf text operand)
  | binary {text : String} {op : Operator} {l r : Tree} : l.Applied → r.Applied → Applied (.binary text op l r)
  | call {text : String} {f : Builtin} {params : List Tree} : params.length = f.arity →
      (∀ t ∈ params, t.Applied) → Applied (.call text f params)

end Tree

namespace Forest

/-! ## The tree under a place -/

/-- A tree stands under a place. -/
inductive Stands (f : Forest) : NodeId → Tree → Prop
  | leaf {id : NodeId} {text : String} {operand : Operand} : f.get? id = some ⟨text, .leaf operand⟩ →
      Stands f id (.leaf text operand)
  | binary {id lhs rhs : NodeId} {text : String} {op : Operator} {l r : Tree} :
      f.get? id = some ⟨text, .binary op lhs rhs⟩ → Stands f lhs l → Stands f rhs r →
      Stands f id (.binary text op l r)
  | call {id : NodeId} {text : String} {g : Builtin} {params : List NodeId} {ts : List Tree} :
      f.get? id = some ⟨text, .call g params⟩ → List.Forall₂ (Stands f) params ts →
      Stands f id (.call text g ts)

theorem Stands.unique {f : Forest} {id : NodeId} {t u : Tree} (ht : f.Stands id t) (hu : f.Stands id u) : t = u := by
  induction t using Tree.induct generalizing id u with
  | leaf text operand =>
    cases ht with
    | leaf h => cases hu <;> simp_all
  | binary text op l r ihl ihr =>
    cases ht with
    | binary h hl hr =>
      cases hu with
      | binary h' hl' hr' =>
        simp only [h, Option.some.injEq, Node.mk.injEq, Content.binary.injEq] at h'
        obtain ⟨rfl, rfl, rfl, rfl⟩ := h'
        rw [ihl hl hl', ihr hr hr']
      | _ h' => simp [h] at h'
  | call text g ts ih =>
    cases ht with
    | call h hts =>
      cases hu with
      | call h' hus =>
        simp only [h, Option.some.injEq, Node.mk.injEq, Content.call.injEq] at h'
        obtain ⟨rfl, rfl, rfl⟩ := h'
        rw [forall₂_eq_of_mem (R := f.Stands) (fun t ht _ _ => ih t ht) hts hus]
      | _ h' => simp [h] at h'

/-- Trees stay where they are while a forest grows. -/
theorem Stands.extends {f g : Forest} (hfg : f.Extends g) {id : NodeId} {t : Tree} (h : f.Stands id t) :
    g.Stands id t := by
  induction t using Tree.induct generalizing id with
  | leaf text operand => cases h with | leaf h => exact .leaf (hfg.nodes h)
  | binary text op l r ihl ihr => cases h with | binary h hl hr => exact .binary (hfg.nodes h) (ihl hl) (ihr hr)
  | call text g ts ih =>
    cases h with
    | call h hts =>
      apply Stands.call (hfg.nodes h)
      clear h
      induction hts with
      | nil => exact .nil
      | cons h1 _ ihs =>
        exact .cons (ih _ (List.mem_cons_self ..) h1) (ihs fun t ht => ih t (List.mem_cons_of_mem _ ht))

/-! ## Planting -/

theorem extends_plantAll {ts : List Tree} (h : ∀ t ∈ ts, ∀ f : Forest, f.Extends (t.plant f).2) (f : Forest) :
    f.Extends (Tree.plantAll ts f).2 := by
  induction ts generalizing f with
  | nil => exact .refl f
  | cons t ts ih =>
    exact (h t (List.mem_cons_self ..) f).trans (ih (fun u hu => h u (List.mem_cons_of_mem _ hu)) _)

theorem extends_plant (t : Tree) (f : Forest) : f.Extends (t.plant f).2 := by
  induction t using Tree.induct generalizing f with
  | leaf text operand => exact .alloc f _
  | binary text op l r ihl ihr => exact ((ihl f).trans (ihr _)).trans (.alloc _ _)
  | call text g params ih => exact (extends_plantAll ih f).trans (.alloc _ _)

/-- The root of a planted tree lies behind what was there. -/
theorem size_le_plant (t : Tree) (f : Forest) : f.size ≤ (t.plant f).1 := by
  cases t with
  | leaf text operand => exact Nat.le_refl _
  | binary text op l r => exact ((extends_plant l f).trans (extends_plant r _)).size_le
  | call text g params => exact (extends_plantAll (fun u _ => extends_plant u) f).size_le

theorem stands_plantAll {ts : List Tree} (h : ∀ t ∈ ts, ∀ f : Forest, (t.plant f).2.Stands (t.plant f).1 t)
    (f : Forest) :
    List.Forall₂ (Tree.plantAll ts f).2.Stands (Tree.plantAll ts f).1 ts := by
  induction ts generalizing f with
  | nil => exact .nil
  | cons t ts ih =>
    have grown : (t.plant f).2.Extends (Tree.plantAll ts (t.plant f).2).2 :=
      extends_plantAll (fun u _ => extends_plant u) _
    exact .cons ((h t (List.mem_cons_self ..) f).extends grown) (ih (fun u hu => h u (List.mem_cons_of_mem _ hu)) _)

/-- A planted tree stands under its root. -/
theorem stands_plant (t : Tree) (f : Forest) : (t.plant f).2.Stands (t.plant f).1 t := by
  induction t using Tree.induct generalizing f with
  | leaf text operand => exact .leaf (get?_alloc_self f _)
  | binary text op l r ihl ihr =>
    refine .binary (get?_alloc_self _ _) ?_ ?_
    · exact (ihl f).extends ((extends_plant r _).trans (.alloc _ _))
    · exact (ihr _).extends (.alloc _ _)
  | call text g params ih =>
    refine .call (get?_alloc_self _ _) ?_
    exact (stands_plantAll ih f).imp fun _ _ h => h.extends (.alloc _ _)

/-! ## Assembling the atoms of a tree -/

theorem assemble_atomsAll {ts : List Tree} (h : ∀ t ∈ ts, ∀ (f : Forest) (roots : List NodeId) (rest : List Atom),
      f.assemble roots (t.atoms ++ rest) = (t.plant f).2.assemble ((t.plant f).1 :: roots) rest)
    (f : Forest) (roots : List NodeId) (rest : List Atom) :
    f.assemble roots (Tree.atomsAll ts ++ rest) =
      (Tree.plantAll ts f).2.assemble ((Tree.plantAll ts f).1.reverse ++ roots) rest := by
  induction ts generalizing f roots with
  | nil => rfl
  | cons t ts ih =>
    rw [Tree.atomsAll, List.append_assoc, h t (List.mem_cons_self ..), ih fun u hu => h u (List.mem_cons_of_mem _ hu)]
    simp [Tree.plantAll]

theorem length_plantAll (ts : List Tree) (f : Forest) : (Tree.plantAll ts f).1.length = ts.length := by
  induction ts generalizing f with
  | nil => rfl
  | cons t ts ih => simp only [Tree.plantAll, List.length_cons, ih]

/-- Assembling the atoms of a tree plants it. -/
theorem assemble_atoms {t : Tree} (h : t.Applied) (f : Forest) (roots : List NodeId) (rest : List Atom) :
    f.assemble roots (t.atoms ++ rest) = (t.plant f).2.assemble ((t.plant f).1 :: roots) rest := by
  induction h generalizing f roots rest with
  | leaf text operand => rfl
  | binary _ _ ihl ihr =>
    rw [Tree.atoms, List.append_assoc, ihl, List.append_assoc, ihr]
    rfl
  | @call text g params hlen _ ih =>
    rw [Tree.atoms, List.append_assoc, assemble_atomsAll ih]
    have hids : (Tree.plantAll params f).1.reverse.length = g.arity := by
      rw [List.length_reverse, length_plantAll, hlen]
    have htake : ((Tree.plantAll params f).1.reverse ++ roots).take g.arity = (Tree.plantAll params f).1.reverse := by
      rw [← hids, List.take_left]
    have hdrop : ((Tree.plantAll params f).1.reverse ++ roots).drop g.arity = roots := by
      rw [← hids, List.drop_left]
    simp only [List.singleton_append, assemble, htake, hdrop, List.reverse_reverse]
    rw [if_pos (by rw [length_plantAll, hlen])]
    rfl

/-- A yard with the atoms of a tree and no parenthesis open is finished by planting that tree. -/
theorem finish_atoms {t : Tree} (h : t.Applied) {y : Yard} (ha : y.atoms = t.atoms) (hd : y.depth = 0) (f : Forest) :
    y.finish f = (some (t.plant f).1, (t.plant f).2) := by
  have assembled := assemble_atoms h f [] []
  rw [List.append_nil] at assembled
  rw [Yard.finish, if_pos hd, ha, assembled]
  rfl

end Forest

end Formulary
