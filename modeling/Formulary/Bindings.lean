/-
The names a session knows, each bound to the root of a tree. A name stands for its tree and not
for a value: the tree is evaluated anew whenever the name is used.
-/
import Formulary.Forest.Basic

namespace Formulary

/-- Names with the roots they are bound to, no name twice. -/
structure Bindings where
  entries : List (String × NodeId) := []
  distinct : entries.Pairwise (·.1 ≠ ·.1) := by exact .nil

namespace Bindings

/-- No names at all. -/
def empty : Bindings := {}

instance : Inhabited Bindings := ⟨empty⟩

/-- Binds a name, in place of what it was bound to before. -/
def bind (b : Bindings) (name : String) (root : NodeId) : Bindings where
  entries := (name, root) :: b.entries.filter (·.1 ≠ name)
  distinct := by
    refine List.pairwise_cons.mpr ⟨fun entry h same => ?_, b.distinct.filter _⟩
    have other := (List.mem_filter.mp h).2
    exact of_decide_eq_true other same.symm

/-- The root a name is bound to. -/
def lookup (b : Bindings) (name : String) : Option NodeId :=
  b.entries.lookup name

/-- Whether a name is bound. -/
def contains (b : Bindings) (name : String) : Bool :=
  (b.lookup name).isSome

/-- The number of bound names. -/
def size (b : Bindings) : Nat :=
  b.entries.length

/-- The bound names with their roots, in the order of the names' characters. -/
def sorted (b : Bindings) : List (String × NodeId) :=
  b.entries.mergeSort fun x y => decide (x.1 ≤ y.1)

/-- The bound names in the order of their characters. -/
def names (b : Bindings) : List String :=
  b.sorted.map (·.1)

end Bindings

end Formulary
