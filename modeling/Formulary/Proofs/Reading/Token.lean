/-
The tokens of a formula: its text cut up and sorted, before names are looked up and lists are
computed. An item of a list is a formula of its own, whose tokens stand between those of the list.
-/
import Formulary.Infix.Atom

namespace Formulary.Reading

/-- What a token is. -/
inductive TokenKind where
  | number
  | variable
  | operator (op : Operator)
  | builtin (f : Builtin)
  | mark (mark : Infix.Mark)
  /-- A list begins, and with it its first item. -/
  | listStart
  /-- An item of the innermost list is complete. -/
  | itemEnd
  /-- The innermost list is complete. -/
  | listEnd
  deriving DecidableEq, Repr

/-- The text gathered for a token and what it is. -/
structure Token where
  text : String
  kind : TokenKind
  deriving DecidableEq, Repr

end Formulary.Reading
