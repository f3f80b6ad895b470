/-
From the order in which formulas are written to reverse Polish order. Operands go out at once;
operators and functions wait until something that binds less comes along, and an opening
parenthesis shields what waits below it until it is closed.
-/
import Formulary.Infix.Atom

namespace Formulary.Infix

/-- The atoms gone out, the atoms waiting with the latest first, and the number of parentheses
that are open. -/
structure Yard where
  output : Array Atom := #[]
  waiting : List Atom := []
  depth : Nat := 0

/-- Whether a waiting atom goes out before the incoming operator joins the waiting ones: if it
binds more strongly, or as strongly and the incoming operator groups to the left. -/
def goesBefore (incoming : Operator) (waiting : Atom) : Bool :=
  match waiting.precedence? with
  | none => false
  | some strength =>
    match incoming.side with
    | .left => decide (incoming.precedence ≤ strength)
    | .right => decide (incoming.precedence < strength)

namespace Yard

/-- Lets waiting atoms go out as long as they satisfy the test. -/
def release (y : Yard) (test : Atom → Bool) : Yard :=
  { y with
    output := (y.waiting.takeWhile test).foldl Array.push y.output
    waiting := y.waiting.dropWhile test }

/-- Lets an atom wait. -/
def hold (y : Yard) (a : Atom) : Yard :=
  { y with waiting := a :: y.waiting }

/-- Takes the next atom of the formula. A comma or closing parenthesis ends what was begun since
the last opening one, and the closing one takes that away with it. -/
def push (y : Yard) (a : Atom) : Yard :=
  match a.meaning with
  | .operand _ => { y with output := y.output.push a }
  | .builtin _ => y.hold a
  | .operator op => (y.release (goesBefore op)).hold a
  | .mark .comma => y.release (!·.isOpening)
  | .mark .opening => { y.hold a with depth := y.depth + 1 }
  | .mark .closing =>
    let ended := y.release (!·.isOpening)
    { ended with waiting := ended.waiting.tail, depth := y.depth - 1 }

/-- Everything in reverse Polish order: what has gone out, then what is still waiting. -/
def atoms (y : Yard) : List Atom :=
  y.output.toList ++ y.waiting

end Yard

end Formulary.Infix
