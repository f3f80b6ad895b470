/-
The values of trees. An evaluation keeps the work still to do as a list of tasks and the values
computed so far as a stack, so the depth of a tree is bounded by nothing but memory. Both sides of
an operator are always evaluated, the left one first, and parameters from left to right: the order
decides which list item is read when.
-/
import Formulary.Forest.Basic

namespace Formulary.Forest

/-- Work still to be done. A visit carries the number of nodes its path may still go down, so that
a variable which leads back to itself comes to an end. -/
inductive Task where
  | visit (height : Nat) (id : NodeId)
  | binary (op : Operator)
  | call (f : Builtin) (count : Nat)
  deriving Repr

/-! ## One visit -/

/-- What a visit leads to: values for the stack, tasks that take its place, and the forest with
the cursor of the list that was read. -/
structure Visit where
  values : List Value
  tasks : List Task
  forest : Forest

/-- What a node leads to. A number and the next item of a list are values; a variable hands on to
its target; an operator or function needs its children first and then combines their values. -/
def expand (f : Forest) (height : Nat) (id : NodeId) (node : Node) : Visit :=
  match node.content with
  | .leaf (.number x) => ⟨[.number x], [], f⟩
  | .leaf (.variable _ target) => ⟨[], [.visit height target], f⟩
  | .leaf (.list items) =>
    let (value, f) := f.readItem id items
    ⟨[value], [], f⟩
  | .binary op lhs rhs => ⟨[], [.visit height lhs, .visit height rhs, .binary op], f⟩
  | .call g params => ⟨[], params.map (.visit height) ++ [.call g params.length], f⟩

/-- Visits a node. Where there is none, or no height left, there is no value. -/
def visit (f : Forest) (height : Nat) (id : NodeId) : Visit :=
  match height, f.get? id with
  | height + 1, some node => f.expand height id node
  | _, _ => ⟨[.undefined], [], f⟩

/-- The number of steps that a visit and all that it leads to take. -/
def visitCost (nodes : Array Node) (height : Nat) (id : NodeId) : Nat :=
  match height, nodes[id]? with
  | height + 1, some node =>
    2 + node.references.foldr (fun next steps => visitCost nodes height next + steps) 0
  | _, _ => 1

/-- The number of steps that a task takes. -/
def Task.cost (nodes : Array Node) : Task → Nat
  | visit height id => visitCost nodes height id
  | _ => 1

/-- The number of steps that tasks take together. -/
def cost (nodes : Array Node) : List Task → Nat
  | [] => 0
  | task :: rest => task.cost nodes + cost nodes rest

theorem cost_append (nodes : Array Node) (tasks rest : List Task) :
    cost nodes (tasks ++ rest) = cost nodes tasks + cost nodes rest := by
  induction tasks with
  | nil => rw [List.nil_append, cost, Nat.zero_add]
  | cons task tasks ih => rw [List.cons_append, cost, cost, ih, Nat.add_assoc]

theorem cost_visits (nodes : Array Node) (height : Nat) (ids : List NodeId) :
    cost nodes (ids.map (.visit height)) =
      ids.foldr (fun next steps => visitCost nodes height next + steps) 0 := by
  induction ids with
  | nil => rfl
  | cons id ids ih => rw [List.map_cons, cost, ih, List.foldr_cons, Task.cost]

/-- A node takes one step more than the tasks it leads to. -/
theorem cost_expand_lt (f : Forest) (height : Nat) (id : NodeId) (node : Node) :
    cost f.nodes (f.expand height id node).tasks <
      2 + node.references.foldr (fun next steps => visitCost f.nodes height next + steps) 0 := by
  unfold expand
  rcases node with ⟨text, (x | ⟨name, target⟩ | items) | ⟨op, lhs, rhs⟩ | ⟨g, params⟩⟩
  · exact Nat.lt_of_lt_of_le Nat.zero_lt_two (Nat.le_add_right 2 _)
  · exact Nat.lt_add_of_pos_left Nat.zero_lt_two
  · exact Nat.lt_of_lt_of_le Nat.zero_lt_two (Nat.le_add_right 2 _)
  · simp only [cost, Task.cost, Node.references, Node.children, List.foldr_cons, List.foldr_nil]
    omega
  · simp only [cost_append, cost_visits, cost, Task.cost, Node.references, Node.children]
    omega

/-- A visit takes one step more than the tasks it leads to. -/
theorem cost_visit_lt (f : Forest) (height : Nat) (id : NodeId) :
    cost f.nodes (f.visit height id).tasks < visitCost f.nodes height id := by
  unfold visit visitCost get?
  split
  · exact cost_expand_lt f _ id _
  · exact Nat.zero_lt_one

theorem nodes_expand (f : Forest) (height : Nat) (id : NodeId) (node : Node) :
    (f.expand height id node).forest.nodes = f.nodes := by
  unfold expand
  split
  · rfl
  · rfl
  · exact nodes_readItem f id _
  · rfl
  · rfl

theorem nodes_visit (f : Forest) (height : Nat) (id : NodeId) :
    (f.visit height id).forest.nodes = f.nodes := by
  unfold visit
  split
  · exact nodes_expand f _ id _
  · rfl

/-! ## Working tasks off -/

/-- Works the tasks off one by one. An operator takes its right and then its left operand from the
stack of values, a function as many values as it has parameters. -/
def run (f : Forest) (values : List Value) : List Task → Value × Forest
  | [] => (values.headD .undefined, f)
  | .visit height id :: rest =>
    let v := f.visit height id
    run v.forest (v.values ++ values) (v.tasks ++ rest)
  | .binary op :: rest =>
    let rhs := values.headD .undefined
    let lhs := values.tail.headD .undefined
    run f (op.apply lhs rhs :: values.tail.tail) rest
  | .call g count :: rest =>
    let params := (values.take count).reverse
    run f (g.apply params :: values.drop count) rest
termination_by tasks => cost f.nodes tasks
decreasing_by
  · have := cost_visit_lt f height id
    rw [nodes_visit, cost_append, cost, Task.cost]
    omega
  · simp only [cost, Task.cost]
    omega
  · simp only [cost, Task.cost]
    omega

/-- Evaluates the tree at a place once. No path through trees that do not lead back to themselves
goes down more nodes than there are. -/
def evaluate (f : Forest) (id : NodeId) : Value × Forest :=
  f.run [] [.visit f.size id]

/-- Evaluates a number of times and adds the values to those already there. -/
def evaluateMore (id : NodeId) : (times : Nat) → Array Value → Forest → Array Value × Forest
  | 0, values, f => (values, f)
  | times + 1, values, f =>
    let (value, f) := f.evaluate id
    evaluateMore id times (values.push value) f

/-- Evaluates the tree at a place `width` times, but at least once. -/
def broadcast (f : Forest) (id : NodeId) (width : Nat) : Array Value × Forest :=
  evaluateMore id (max width 1) #[] f

end Formulary.Forest
