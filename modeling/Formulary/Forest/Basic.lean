/-
The trees of all formulas, in one forest: a row of nodes that grows at its end and can be cut back,
in which a node names its children and the tree a variable stands for by their places. What a node
means never changes; beside the nodes stand the read cursors of the lists, which move whenever a
tree is evaluated.
-/
import Formulary.Series
import Formulary.Operator
import Formulary.Builtin

namespace Formulary

/-- The place of a node in its forest. -/
abbrev NodeId := Nat

/-- What stands at a leaf: a number, a name with the tree it was bound to when it was read, or
the items of a list. -/
inductive Operand where
  | number (x : Float)
  | variable (name : String) (target : NodeId)
  | list (items : Array Value)
  deriving Repr

/-- A leaf, or an operator or function over other nodes of the forest. -/
inductive Content where
  | leaf (operand : Operand)
  | binary (op : Operator) (lhs rhs : NodeId)
  | call (f : Builtin) (params : List NodeId)
  deriving Repr

/-- A node: the text it was read from and what it means. -/
structure Node where
  text : String
  content : Content
  deriving Repr

namespace Node

/-- The nodes directly below, in the order of the formula. A variable has none. -/
def children (node : Node) : List NodeId :=
  match node.content with
  | .leaf _ => []
  | .binary _ lhs rhs => [lhs, rhs]
  | .call _ params => params

/-- The nodes that an evaluation goes on to: the children, and for a variable its target. -/
def references (node : Node) : List NodeId :=
  match node.content with
  | .leaf (.variable _ target) => [target]
  | _ => node.children

/-- What an outline shows for the node: the items of a list, otherwise the text. -/
def label (node : Node) : String :=
  match node.content with
  | .leaf (.list items) => Value.listText items.toList
  | _ => node.text

end Node

/-- Nodes in the order in which they were added, each with a cursor. Only the cursors of list
nodes are ever moved. -/
structure Forest where
  nodes : Array Node := #[]
  cursors : Array Nat := #[]
  aligned : cursors.size = nodes.size := by rfl

namespace Forest

/-- The forest without nodes. -/
def empty : Forest := {}

instance : Inhabited Forest := ⟨empty⟩

/-- The number of nodes. -/
def size (f : Forest) : Nat :=
  f.nodes.size

/-- The node at a place, if there is one. -/
def get? (f : Forest) (id : NodeId) : Option Node :=
  f.nodes[id]?

/-- The cursor at a place. -/
def cursor (f : Forest) (id : NodeId) : Nat :=
  f.cursors.getD id 0

/-- Adds a node at the end and tells its place. -/
def alloc (f : Forest) (node : Node) : NodeId × Forest :=
  (f.size, {
    nodes := f.nodes.push node
    cursors := f.cursors.push 0
    aligned := by rw [Array.size_push, Array.size_push, f.aligned] })

/-- Cuts the forest back to its first `size` nodes. -/
def truncate (f : Forest) (size : Nat) : Forest where
  nodes := f.nodes.shrink size
  cursors := f.cursors.shrink size
  aligned := by rw [Array.size_shrink, Array.size_shrink, f.aligned]

/-- Moves the cursor at a place. -/
def setCursor (f : Forest) (id : NodeId) (cursor : Nat) : Forest :=
  { f with
    cursors := f.cursors.setIfInBounds id cursor
    aligned := by rw [Array.size_setIfInBounds, f.aligned] }

/-- Reads the next item of the list at a place and steps its cursor. An empty list yields no
value and stays where it is. -/
def readItem (f : Forest) (id : NodeId) (items : Array Value) : Value × Forest :=
  match Series.nextIndex? items.size (f.cursor id) with
  | none => (.undefined, f)
  | some i => (items.getD i .undefined, f.setCursor id (i + 1))

@[simp] theorem nodes_setCursor (f : Forest) (id : NodeId) (cursor : Nat) :
    (f.setCursor id cursor).nodes = f.nodes := rfl

@[simp] theorem nodes_readItem (f : Forest) (id : NodeId) (items : Array Value) :
    (f.readItem id items).2.nodes = f.nodes := by
  unfold readItem
  split <;> rfl

end Forest

end Formulary
