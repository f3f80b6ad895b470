/-
The values of formulas: numbers and truth values. A truth value counts as one or zero wherever a
number is asked for, and everything but `false`, zero and an undefined number counts as true.
-/
import Formulary.Number.Decimal

namespace Formulary

/-- A scalar result. -/
inductive Value where
  | number (x : Float)
  | boolean (b : Bool)
  deriving Repr

namespace Value

/-- The result of a formula that has no value, such as the next item of an empty list. -/
def undefined : Value := .number Number.undefined

instance : Inhabited Value := ⟨undefined⟩

/-- The numeric view; truth values are one and zero. -/
def asNumber : Value → Float
  | .number x => x
  | .boolean b => if b then 1.0 else 0.0

/-- Whether the value counts as true. -/
def isTruthy : Value → Bool
  | .number x => x != 0.0 && !x.isNaN
  | .boolean b => b

/-- The equality of formulas: two truth values are compared as such, all else as numbers. -/
def looselyEqual : Value → Value → Bool
  | .boolean a, .boolean b => a == b
  | v, w => v.asNumber == w.asNumber

/-- Equal in kind and in value. An undefined number differs from itself, and both zeros agree. -/
def same : Value → Value → Bool
  | .number x, .number y => x == y
  | .boolean a, .boolean b => a == b
  | _, _ => false

/-- The text of a value. Zero is written without a sign. -/
def text : Value → String
  | .number x => if x == 0.0 then "0" else Number.text x
  | .boolean b => if b then "true" else "false"

/-- The text of several values, in square brackets and separated by commas. -/
def listText (items : List Value) : String :=
  "[" ++ String.intercalate ", " (items.map text) ++ "]"

end Value

end Formulary
