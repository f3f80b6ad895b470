/-
Atoms in reverse Polish order put together to a tree. Operands become leaves on a stack of trees;
an operator takes the two topmost trees and a function as many as it has parameters.
-/
import Formulary.Infix.Yard

namespace Formulary

open Infix

/-- Takes the atoms in turn, with the roots of the trees made so far, the latest first. Fails when
an operator or function lacks operands, or when the atoms do not make exactly one tree; the nodes
added until then stay in the forest. -/
def Forest.assemble (f : Forest) (roots : List NodeId) : List Atom → Option NodeId × Forest
  | [] =>
    match roots with
    | [root] => (some root, f)
    | _ => (none, f)
  | a :: rest =>
    match a.meaning with
    | .operand operand =>
      let (id, f) := f.alloc ⟨a.text, .leaf operand⟩
      f.assemble (id :: roots) rest
    | .operator op =>
      match roots with
      | rhs :: lhs :: others =>
        let (id, f) := f.alloc ⟨a.text, .binary op lhs rhs⟩
        f.assemble (id :: others) rest
      | _ => (none, f)
    | .builtin g =>
      let params := (roots.take g.arity).reverse
      if params.length = g.arity then
        let (id, f) := f.alloc ⟨a.text, .call g params⟩
        f.assemble (id :: roots.drop g.arity) rest
      else
        (none, f)
    | .mark _ => f.assemble roots rest

/-- Puts the tree of a formula together; there is none while a parenthesis is open. -/
def Infix.Yard.finish (y : Yard) (f : Forest) : Option NodeId × Forest :=
  if y.depth = 0 then f.assemble [] y.atoms else (none, f)

end Formulary
