/-
Trees written out in full: in the place of every variable stands the tree it refers to, so that the
value of a tree can be said by recursion on the tree, handing the read cursors on from part to part.
Every place from which all references are live and lead nowhere back has exactly one full tree, and
that tree is no higher than the forest has nodes.
-/
import Formulary.Proofs.Forest.Frame

namespace Formulary

/-- A tree with the trees of its variables written out. A list remembers its place in the forest,
where its cursor is. -/
inductive FullTree where
  | number (x : Float)
  | reference (target : FullTree)
  | list (id : NodeId) (items : Array Value)
  | binary (op : Operator) (lhs rhs : FullTree)
  | call (f : Builtin) (params : List FullTree)

namespace FullTree

@[elab_as_elim]
theorem induct {motive : FullTree → Prop} (number : ∀ x, motive (.number x))
    (reference : ∀ t, motive t → motive (.reference t))
    (list : ∀ id items, motive (.list id items))
    (binary : ∀ op l r, motive l → motive r → motive (.binary op l r))
    (call : ∀ f params, (∀ t ∈ params, motive t) → motive (.call f params)) : ∀ t, motive t
  | .number x => number x
  | .reference t => reference t (induct number reference list binary call t)
  | .list id items => list id items
  | .binary op l r =>
    binary op l r (induct number reference list binary call l) (induct number reference list binary call r)
  | .call f params => call f params fun t _ => induct number reference list binary call t

/-! ## The value of a full tree -/

/-- The item that the next read of a list yields: the one at the cursor, or the first one when the
cursor is past the last. -/
def nextItem (size cursor : Nat) : Nat :=
  if cursor < size then cursor else 0

mutual

/-- The value of a tree and the forest with the cursors as they are left. Both sides of an operator
count, the left one first, and parameters count from left to right. -/
def value : FullTree → Forest → Value × Forest
  | number x, f => (.number x, f)
  | reference t, f => t.value f
  | list id items, f =>
    let i := nextItem items.size (f.cursor id)
    match items[i]? with
    | none => (.undefined, f)
    | some v => (v, f.setCursor id (i + 1))
  | binary op l r, f =>
    let a := l.value f
    let b := r.value a.2
    (op.apply a.1 b.1, b.2)
  | call g params, f =>
    let args := values params f
    (g.apply args.1, args.2)

/-- The values of trees from left to right. -/
def values : List FullTree → Forest → List Value × Forest
  | [], f => ([], f)
  | t :: ts, f =>
    let v := t.value f
    let vs := values ts v.2
    (v.1 :: vs.1, vs.2)

end

mutual

/-- The places of the lists of a tree, in the order in which they are read. -/
def lists : FullTree → List NodeId
  | number _ => []
  | reference t => t.lists
  | list id _ => [id]
  | binary _ l r => l.lists ++ r.lists
  | call _ params => listsAll params

/-- The places of the lists of trees, from left to right. -/
def listsAll : List FullTree → List NodeId
  | [] => []
  | t :: ts => t.lists ++ listsAll ts

end

mutual

/-- The number of nodes on the longest way down. -/
def height : FullTree → Nat
  | number _ => 1
  | reference t => t.height + 1
  | list _ _ => 1
  | binary _ l r => max l.height r.height + 1
  | call _ params => heightAll params + 1

/-- The greatest height of trees. -/
def heightAll : List FullTree → Nat
  | [] => 0
  | t :: ts => max t.height (heightAll ts)

end

theorem heightAll_le {ts : List FullTree} {n : Nat} : heightAll ts ≤ n ↔ ∀ t ∈ ts, t.height ≤ n := by
  induction ts with
  | nil => simp [heightAll]
  | cons t ts ih => simp [heightAll, ih]

theorem height_pos (t : FullTree) : 0 < t.height := by
  cases t <;> simp [height]

theorem nodes_values_of {ts : List FullTree} (h : ∀ t ∈ ts, ∀ f, (t.value f).2.nodes = f.nodes) (f : Forest) :
    (values ts f).2.nodes = f.nodes := by
  induction ts generalizing f with
  | nil => rfl
  | cons t ts ih =>
    simp only [values]
    rw [ih (fun u hu => h u (List.mem_cons_of_mem _ hu)), h t (List.mem_cons_self ..)]

/-- Evaluating moves cursors and nothing else. -/
theorem nodes_value (t : FullTree) (f : Forest) : (t.value f).2.nodes = f.nodes := by
  induction t using induct generalizing f with
  | number x => rfl
  | reference t ih => exact ih f
  | list id items =>
    simp only [value]
    split <;> rfl
  | binary op l r ihl ihr =>
    simp only [value]
    rw [ihr, ihl]
  | call g params ih =>
    simp only [value]
    exact nodes_values_of ih f

theorem length_values (ts : List FullTree) (f : Forest) : (values ts f).1.length = ts.length := by
  induction ts generalizing f with
  | nil => rfl
  | cons t ts ih => simp only [values, List.length_cons, ih]

end FullTree

namespace Forest

/-! ## Writing trees out -/

/-- The full tree at a place. -/
inductive Unfolds (f : Forest) : NodeId → FullTree → Prop
  | number {id : NodeId} {text : String} {x : Float} :
      f.get? id = some ⟨text, .leaf (.number x)⟩ → Unfolds f id (.number x)
  | reference {id target : NodeId} {text name : String} {t : FullTree} :
      f.get? id = some ⟨text, .leaf (.variable name target)⟩ → Unfolds f target t →
      Unfolds f id (.reference t)
  | list {id : NodeId} {text : String} {items : Array Value} :
      f.get? id = some ⟨text, .leaf (.list items)⟩ → Unfolds f id (.list id items)
  | binary {id lhs rhs : NodeId} {text : String} {op : Operator} {l r : FullTree} :
      f.get? id = some ⟨text, .binary op lhs rhs⟩ → Unfolds f lhs l → Unfolds f rhs r →
      Unfolds f id (.binary op l r)
  | call {id : NodeId} {text : String} {g : Builtin} {params : List NodeId} {ts : List FullTree} :
      f.get? id = some ⟨text, .call g params⟩ → List.Forall₂ (Unfolds f) params ts →
      Unfolds f id (.call g ts)

/-- A row is determined by another one as soon as each of its members is. -/
theorem forall₂_eq_of_mem {α β : Type} {R : α → β → Prop} {xs : List α} {ys zs : List β}
    (h : ∀ y ∈ ys, ∀ x z, R x y → R x z → y = z) (hy : List.Forall₂ R xs ys) (hz : List.Forall₂ R xs zs) : ys = zs := by
  induction hy generalizing zs with
  | nil => cases hz; rfl
  | cons h1 _ ih =>
    cases hz with
    | cons h2 hz =>
      rw [h _ (List.mem_cons_self ..) _ _ h1 h2, ih (fun y hy => h y (List.mem_cons_of_mem _ hy)) hz]

/-- A place has at most one full tree. -/
theorem Unfolds.unique {f : Forest} {id : NodeId} {t u : FullTree} (ht : f.Unfolds id t) (hu : f.Unfolds id u) :
    t = u := by
  -- both unfold the one node there is at the place, so they agree in kind, and below by induction
  induction t using FullTree.induct generalizing id u with
  | number x =>
    cases ht with
    | number h => cases hu <;> simp_all
  | reference t ih =>
    cases ht with
    | reference h ht =>
      cases hu with
      | reference h' hu =>
        rw [h] at h'
        cases h'
        rw [ih ht hu]
      | _ h' => simp [h] at h'
  | list id' items =>
    cases ht with
    | list h => cases hu <;> simp_all
  | binary op l r ihl ihr =>
    cases ht with
    | binary h hl hr =>
      cases hu with
      | binary h' hl' hr' =>
        rw [h] at h'
        cases h'
        rw [ihl hl hl', ihr hr hr']
      | _ h' => simp [h] at h'
  | call g ts ih =>
    cases ht with
    | call h hts =>
      cases hu with
      | call h' hus =>
        rw [h] at h'
        cases h'
        rw [forall₂_eq_of_mem (R := f.Unfolds) (fun t ht _ _ => ih t ht) hts hus]
      | _ h' => simp [h] at h'

/-- Which tree stands at a place depends on the nodes there are, and on no others. -/
theorem Unfolds.mono {f g : Forest} (hn : ∀ id node, f.get? id = some node → g.get? id = some node) {id : NodeId}
    {t : FullTree} (h : f.Unfolds id t) : g.Unfolds id t := by
  induction t using FullTree.induct generalizing id with
  | number x => cases h with | number h => exact .number (hn _ _ h)
  | reference t ih => cases h with | reference h ht => exact .reference (hn _ _ h) (ih ht)
  | list id' items => cases h with | list h => exact .list (hn _ _ h)
  | binary op l r ihl ihr =>
    cases h with | binary h hl hr => exact .binary (hn _ _ h) (ihl hl) (ihr hr)
  | call g ts ih =>
    cases h with
    | call h hts =>
      apply Unfolds.call (hn _ _ h)
      clear h
      induction hts with
      | nil => exact .nil
      | cons h1 _ ihs =>
        exact .cons (ih _ (List.mem_cons_self ..) h1) (ihs fun t ht => ih t (List.mem_cons_of_mem _ ht))

/-- Nor does it depend on cursors. -/
theorem Unfolds.congr {f g : Forest} (hn : f.nodes = g.nodes) {id : NodeId} {t : FullTree} (h : f.Unfolds id t) :
    g.Unfolds id t :=
  h.mono fun _ _ hf => get?_congr hn _ ▸ hf

end Forest

end Formulary
