/-
Why a formula cannot be read: the cause, the text read up to that point and the character found
there.
-/
import Formulary.Text.Cursor

namespace Formulary

/-- What is wrong with a formula. -/
inductive Fault where
  | missingDigits
  | missingFraction
  | expectedOperator
  | expectedComma
  | expectedOpeningParenthesis
  | expectedClosingParenthesis
  | expectedClosingBracket
  | expectedExpression
  | undefinedVariable (name : String)
  | nestingTooDeep (limit : Nat)
  deriving DecidableEq, Repr

/-- The wording of a fault. -/
def Fault.message : Fault → String
  | missingDigits => "Expected one or more integers."
  | missingFraction => "Expected one or more integers after decimal point."
  | expectedOperator => "Expected operator."
  | expectedComma => "Expected comma."
  | expectedOpeningParenthesis => "Expected opening parenthesis."
  | expectedClosingParenthesis => "Expected closing parenthesis."
  | expectedClosingBracket => "Expected closing square bracket."
  | expectedExpression => "Expected expression."
  | undefinedVariable name => "Variable " ++ name ++ " is not defined."
  | nestingTooDeep limit => "Expression nested deeper than " ++ toString limit ++ " levels."

/-- A fault and its place in the text. -/
structure ReadError where
  fault : Fault
  parsed : String
  found : Option Char
  deriving DecidableEq, Repr

namespace ReadError

/-- The character found as text; empty at the end of the formula. -/
def foundText (e : ReadError) : String :=
  match e.found with
  | none => ""
  | some c => String.singleton c

/-- The whole message. -/
def message (e : ReadError) : String :=
  e.fault.message ++ " Parsed \"" ++ e.parsed ++ "\". Got \"" ++ e.foundText ++ "\""

end ReadError

/-- The error of a fault at the cursor. -/
def Text.Cursor.error (c : Text.Cursor) (fault : Fault) : ReadError where
  fault := fault
  parsed := c.consumed
  found := c.current

end Formulary
