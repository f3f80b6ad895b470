/-
The atoms of a formula: what is left of its text once names are resolved and lists are computed.
Operands, operators and functions become nodes; the marks only steer the conversion from the
order of the formula to reverse Polish order.
-/
import Formulary.Forest.Basic

namespace Formulary.Infix

/-- The punctuation between operands and operators. -/
inductive Mark where
  | comma
  | opening
  | closing
  deriving DecidableEq, Repr

/-- How a mark is written. -/
def Mark.symbol : Mark → String
  | comma => ","
  | opening => "("
  | closing => ")"

/-- What an atom means. -/
inductive Meaning where
  | operand (operand : Operand)
  | operator (op : Operator)
  | builtin (f : Builtin)
  | mark (mark : Mark)
  deriving Repr

/-- The text read for an atom and what it means. -/
structure Atom where
  text : String
  meaning : Meaning
  deriving Repr

namespace Atom

/-- Whether the atom is a number, a variable or a list. -/
def isOperand (a : Atom) : Bool :=
  match a.meaning with
  | .operand _ => true
  | _ => false

/-- Whether the atom is an opening parenthesis. -/
def isOpening (a : Atom) : Bool :=
  match a.meaning with
  | .mark .opening => true
  | _ => false

/-- The strength with which a waiting atom binds; operands and marks have none. -/
def precedence? (a : Atom) : Option Nat :=
  match a.meaning with
  | .operator op => some op.precedence
  | .builtin _ => some Builtin.precedence
  | _ => none

/-- The atom as it is shown: a number by its text or else its digits, a list by its items, all
others by name or symbol. -/
def display (a : Atom) : String :=
  match a.meaning with
  | .operand (.number x) => if a.text.isEmpty then Number.text x else a.text
  | .operand (.variable name _) => name
  | .operand (.list items) => Value.listText items.toList
  | .operator op => op.symbol
  | .builtin f => f.symbol
  | .mark m => m.symbol

end Atom

end Formulary.Infix
