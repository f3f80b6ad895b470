/-
The operators of formulas: fifteen symbols with a precedence, a side on which equal precedence
groups, and a rule for two values.

  11  ^                  groups to the right; all others group to the left
  10  *  /  %
   9  +  -
   8  >  <  >=  <=
   7  ==  !=  IS
   6  AND
   5  OR
-/
import Formulary.Value
import Formulary.Number.Remainder

namespace Formulary

/-- The side on which operators of equal precedence group. -/
inductive Side where
  | left
  | right
  deriving DecidableEq, Repr

/-- A two-place operator. -/
inductive Operator where
  | power
  | times
  | quotient
  | remainder
  | plus
  | minus
  | greater
  | less
  | atLeast
  | atMost
  | equal
  | unequal
  | identical
  | both
  | either
  deriving DecidableEq, Repr

namespace Operator

/-- Every operator, by falling precedence. -/
def all : List Operator :=
  [power, times, quotient, remainder, plus, minus, greater, less, atLeast, atMost, equal, unequal,
    identical, both, either]

/-- How the operator is written. -/
def symbol : Operator → String
  | power => "^"
  | times => "*"
  | quotient => "/"
  | remainder => "%"
  | plus => "+"
  | minus => "-"
  | greater => ">"
  | less => "<"
  | atLeast => ">="
  | atMost => "<="
  | equal => "=="
  | unequal => "!="
  | identical => "IS"
  | both => "AND"
  | either => "OR"

/-- The strength with which the operator binds. -/
def precedence : Operator → Nat
  | power => 11
  | times | quotient | remainder => 10
  | plus | minus => 9
  | greater | less | atLeast | atMost => 8
  | equal | unequal | identical => 7
  | both => 6
  | either => 5

/-- The side on which the operator groups with its equals. -/
def side : Operator → Side
  | power => .right
  | _ => .left

/-- The operator with a given symbol. -/
def ofSymbol? (symbol : String) : Option Operator :=
  all.find? fun op => op.symbol == symbol

/-- The rule of the operator. `AND` and `OR` yield one of their operands as it is. -/
def apply (op : Operator) (lhs rhs : Value) : Value :=
  match op with
  | power => .number (lhs.asNumber ^ rhs.asNumber)
  | times => .number (lhs.asNumber * rhs.asNumber)
  | quotient => .number (lhs.asNumber / rhs.asNumber)
  | remainder => .number (Number.remainder lhs.asNumber rhs.asNumber)
  | plus => .number (lhs.asNumber + rhs.asNumber)
  | minus => .number (lhs.asNumber - rhs.asNumber)
  | greater => .boolean (decide (rhs.asNumber < lhs.asNumber))
  | less => .boolean (decide (lhs.asNumber < rhs.asNumber))
  | atLeast => .boolean (decide (rhs.asNumber ≤ lhs.asNumber))
  | atMost => .boolean (decide (lhs.asNumber ≤ rhs.asNumber))
  | equal | identical => .boolean (lhs.looselyEqual rhs)
  | unequal => .boolean (!lhs.looselyEqual rhs)
  | both => if lhs.isTruthy then rhs else lhs
  | either => if lhs.isTruthy then lhs else rhs

end Operator

end Formulary
