/-
The lines of an outline, told by recursion over the tree. The stack of places still to be drawn comes to
the same lines, for all places that wait on it.
-/
import Formulary.Forest.Outline
import Mathlib.Tactic

namespace Formulary.Forest

/-- The lines of the tree at a place, which stands `depth` levels deep and goes down at most `height`
nodes. -/
def outlineLines (f : Forest) : (height depth : Nat) → NodeId → List String
  | 0, _, _ => []
  | height + 1, depth, id =>
    match f.get? id with
    | none => []
    | some node =>
      ("".pushn depthMark depth ++ node.label) ::
        node.children.flatMap (f.outlineLines height (depth + 1))

/-- The lines of a place that waits. -/
def Pending.lines (f : Forest) (p : Pending) : List String :=
  f.outlineLines p.height p.depth p.id

theorem flatMap_pushPending (f : Forest) (height depth : Nat) (ids : List NodeId) (pending : List Pending) :
    (pushPending height depth ids pending).flatMap (Pending.lines f) =
      ids.flatMap (f.outlineLines height depth) ++ pending.flatMap (Pending.lines f) := by
  rw [pushPending_eq, List.flatMap_append, List.flatMap_map]
  rfl

/-- Drawing adds the lines of all places that wait, the one on top first. -/
theorem drawFrom_eq (f : Forest) (lines : Array String) (pending : List Pending) :
    (f.drawFrom lines pending).toList = lines.toList ++ pending.flatMap (Pending.lines f) := by
  fun_induction drawFrom f lines pending with
  | case1 lines => simp
  | case2 lines depth id rest ih => simpa [Pending.lines, outlineLines] using ih
  | case3 lines depth id rest height h ih => simpa [Pending.lines, outlineLines, h] using ih
  | case4 lines depth id rest height node h line ih =>
    rw [ih, flatMap_pushPending]
    simp [Pending.lines, outlineLines, h, line]

theorem outline_eq (f : Forest) (id : NodeId) :
    f.outline id = String.intercalate "\n" (f.outlineLines f.size 0 id) := by
  rw [outline, drawFrom_eq]
  simp [Pending.lines]

end Formulary.Forest
