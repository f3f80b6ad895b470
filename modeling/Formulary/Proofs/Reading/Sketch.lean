/-
What of a tree is written in the text of its formula. The sketch of a tree leaves out where its
variables lead and what the items of its lists come to, and keeps all the rest. A phrase comes to trees
of one and the same sketch, whatever its names are bound to and over whatever forest.
-/
import Formulary.Proofs.Reading.Building

namespace Formulary

/-! ## Sketches -/

/-- An operand without what a text does not tell: a variable leads nowhere, and of a list only the
number of items is kept. -/
def Operand.sketch : Operand → Operand
  | .number x => .number x
  | .variable name _ => .variable name 0
  | .list items => .list (Array.replicate items.size .undefined)

namespace Tree

mutual

/-- A tree without what a text does not tell. -/
def sketch : Tree → Tree
  | leaf text operand => leaf text operand.sketch
  | binary text op l r => binary text op l.sketch r.sketch
  | call text f params => call text f (sketchAll params)

/-- The sketches of trees in turn. -/
def sketchAll : List Tree → List Tree
  | [] => []
  | t :: ts => t.sketch :: sketchAll ts

end

theorem sketchAll_eq_map (ts : List Tree) : sketchAll ts = ts.map sketch := by
  induction ts with
  | nil => rfl
  | cons t ts ih => rw [sketchAll, ih, List.map_cons]

end Tree

/-- Operators group sketches as they group trees. -/
theorem Groups.sketch {ops : List Operator} {ts : List Tree} {t : Tree} (h : Groups ops ts t) :
    Groups ops (ts.map Tree.sketch) t.sketch := by
  induction h with
  | single t => exact .single t.sketch
  | binary _ _ hleft hright ihl ihr =>
    rw [List.map_append]
    exact .binary ihl ihr hleft hright

theorem Groups.sketch_eq {ops ops' : List Operator} {ts ts' : List Tree} {t t' : Tree} (h : Groups ops ts t)
    (h' : Groups ops' ts' t') (same : (ops, ts.map Tree.sketch) = (ops', ts'.map Tree.sketch)) :
    t.sketch = t'.sketch := by
  obtain ⟨rfl, hts⟩ := Prod.mk.inj same
  exact h.sketch.unique (hts ▸ h'.sketch)

namespace Reading

/-- The sketch of what a phrase comes to; of items only their number is kept. -/
def Made.sketch : {k : Kind} → Made k → Made k
  | .primary, t => Tree.sketch t
  | .expression, (ops, ts) => (ops, ts.map Tree.sketch)
  | .arguments, ts => List.map Tree.sketch ts
  | .items, vs => List.map (fun _ => Value.undefined) vs

/-- A phrase has one sketch. -/
theorem Phrase.Builds.sketch_eq {b b' : Bindings} {k : Kind} {p : Phrase k} {f f' g g' : Forest} {m m' : Made k}
    (h : p.Builds b f m g) (h' : p.Builds b' f' m' g') : Made.sketch m = Made.sketch m' := by
  induction h generalizing f' g' with
  | number text => cases h'; rfl
  | name _ => cases h'; rfl
  | group _ hg ih =>
    cases h' with
    | group hb' hg' => exact hg.sketch_eq hg' (ih hb')
  | constant c => cases h'; rfl
  | call c _ ih =>
    cases h' with
    | call _ hb' =>
      have same := ih hb'
      simp only [Made.sketch] at same ⊢
      rw [Tree.sketch, Tree.sketch, Tree.sketchAll_eq_map, Tree.sketchAll_eq_map, same]
  | list _ ih =>
    cases h' with
    | list hb' =>
      have same := congrArg List.length (ih hb')
      simp only [Made.sketch, List.length_map] at same
      simp only [Made.sketch, Tree.sketch, Operand.sketch, List.size_toArray, same]
  | single _ ih =>
    cases h' with
    | single hb' => exact congrArg (fun t => ([], [t])) (ih hb')
  | chain op _ _ ih ih' =>
    cases h' with
    | chain _ hb' hr' =>
      obtain ⟨hops, hts⟩ := Prod.mk.inj (ih' hr')
      have first := ih hb'
      simp only [Made.sketch] at first ⊢
      rw [hops, List.map_cons, List.map_cons, hts, first]
  | argument _ hg ih =>
    cases h' with
    | argument hb' hg' => exact congrArg ([·]) (hg.sketch_eq hg' (ih hb'))
  | comma _ hg _ ih ih' =>
    cases h' with
    | comma hb' hg' hr' => exact congrArg₂ List.cons (hg.sketch_eq hg' (ih hb')) (ih' hr')
  | item => cases h'; rfl
  | more _ _ _ _ ih' =>
    cases h' with
    | more _ _ hr' => exact congrArg (List.cons Value.undefined) (ih' hr')

end Reading

end Formulary
