/-
The nodes that an evaluation can come to, and the lists among them. Every node is visited once, so
shared trees cost nothing extra and variables that lead back to themselves do no harm.
-/
import Formulary.Forest.Basic

namespace Formulary.Forest

/-- Goes on from the places in `waiting`. The row `done` says of every node whether it has been
visited, and a place without a node counts as done. Each round visits one node, so as many rounds
as there are nodes suffice. -/
def explore (f : Forest) : (rounds : Nat) → (waiting : List NodeId) → (done : Array Bool) →
    (visited : List NodeId) → List NodeId
  | 0, _, _, visited => visited
  | rounds + 1, waiting, done, visited =>
    match waiting.dropWhile fun id => done.getD id true with
    | [] => visited
    | id :: rest =>
      let next := match f.get? id with
        | none => rest
        | some node => node.references ++ rest
      explore f rounds next (done.setIfInBounds id true) (id :: visited)

/-- The places reached from `root` through children and variables, each of them once. -/
def reachable (f : Forest) (root : NodeId) : List NodeId :=
  f.explore f.size [root] (Array.replicate f.size false) []

/-- The number of items of the list at a place; none if there is no list. -/
def listSize? (f : Forest) (id : NodeId) : Option Nat :=
  match f.get? id with
  | some ⟨_, .leaf (.list items)⟩ => some items.size
  | _ => none

/-- Puts the cursors of all lists reached from `root` on their first items, and tells the length
of the longest one; zero if there is none. -/
def rewindLists (f : Forest) (root : NodeId) : Nat × Forest :=
  (f.reachable root).foldl
    (fun (longest, f) id =>
      match f.listSize? id with
      | none => (longest, f)
      | some size => (max longest size, f.setCursor id 0))
    (0, f)

end Formulary.Forest
