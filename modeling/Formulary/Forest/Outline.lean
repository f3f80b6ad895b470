/-
Trees as indented outlines: one line a node, the children below their parent and one mark further
in. The places still to be drawn wait on a stack, so the depth of a tree is bounded by nothing but
memory. The tree a variable stands for is not part of the outline.
-/
import Formulary.Forest.Basic

namespace Formulary.Forest

/-- The mark repeated once per level of depth. -/
def depthMark : Char := '·'

/-- A place still to be drawn. It carries the number of nodes its path may still go down. -/
structure Pending where
  height : Nat
  depth : Nat
  id : NodeId
  deriving Repr

/-- Puts places of one depth on the stack, the last one first, so that the first is on top. -/
def pushPending (height depth : Nat) (ids : List NodeId) (pending : List Pending) : List Pending :=
  ids.reverse.foldl (fun pending id => ⟨height, depth, id⟩ :: pending) pending

theorem pushPending_eq (height depth : Nat) (ids : List NodeId) (pending : List Pending) :
    pushPending height depth ids pending = ids.map (fun id => ⟨height, depth, id⟩) ++ pending := by
  rw [pushPending, List.foldl_reverse]
  induction ids with
  | nil => rfl
  | cons id ids ih => rw [List.foldr_cons, ih, List.map_cons, List.cons_append]

/-! ## Drawing -/

/-- The number of places that are taken from the stack for a place and all below it. -/
def drawCost (f : Forest) : (height : Nat) → NodeId → Nat
  | 0, _ => 1
  | height + 1, id =>
    match f.get? id with
    | none => 1
    | some node => 1 + node.children.foldr (fun child cost => f.drawCost height child + cost) 0

/-- The number of places that are taken from the stack until it is empty. -/
def pendingCost (f : Forest) (pending : List Pending) : Nat :=
  pending.foldr (fun p cost => f.drawCost p.height p.id + cost) 0

theorem pendingCost_cons (f : Forest) (p : Pending) (pending : List Pending) :
    f.pendingCost (p :: pending) = f.drawCost p.height p.id + f.pendingCost pending :=
  rfl

theorem pendingCost_pushPending (f : Forest) (height depth : Nat) (ids : List NodeId) (pending : List Pending) :
    f.pendingCost (pushPending height depth ids pending) =
      ids.foldr (fun id cost => f.drawCost height id + cost) 0 + f.pendingCost pending := by
  rw [pushPending_eq]
  induction ids with
  | nil => exact (Nat.zero_add _).symm
  | cons id ids ih =>
    rw [List.map_cons, List.cons_append, pendingCost_cons, ih, List.foldr_cons, Nat.add_assoc]

theorem drawCost_pos (f : Forest) (height : Nat) (id : NodeId) : 0 < f.drawCost height id := by
  cases height with
  | zero => exact Nat.zero_lt_one
  | succ height =>
    rw [drawCost]
    split
    · exact Nat.zero_lt_one
    · omega

/-- Draws the place on top of the stack and puts its children there instead, until none is left. -/
def drawFrom (f : Forest) (lines : Array String) : List Pending → Array String
  | [] => lines
  | ⟨0, _, _⟩ :: rest => drawFrom f lines rest
  | ⟨height + 1, depth, id⟩ :: rest =>
    match h : f.get? id with
    | none => drawFrom f lines rest
    | some node =>
      let line := "".pushn depthMark depth ++ node.label
      drawFrom f (lines.push line) (pushPending height (depth + 1) node.children rest)
termination_by pending => f.pendingCost pending
decreasing_by
  · rw [pendingCost_cons]
    exact Nat.lt_add_of_pos_left (drawCost_pos f _ _)
  · rw [pendingCost_cons]
    exact Nat.lt_add_of_pos_left (drawCost_pos f _ _)
  · simp only [pendingCost_pushPending, pendingCost_cons, drawCost, h]
    omega

/-- The outline of the tree at a place. No path through trees that do not lead back to themselves
goes down more nodes than there are. -/
def outline (f : Forest) (id : NodeId) : String :=
  String.intercalate "\n" (f.drawFrom #[] [⟨f.size, 0, id⟩]).toList

end Formulary.Forest
