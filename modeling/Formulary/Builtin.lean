/-
The functions of formulas: seven names with a number of parameters and a rule. While it waits for
its parameters a function binds tighter than every operator.
-/
import Formulary.Value

namespace Formulary

/-- A function that formulas can call. -/
inductive Builtin where
  | pi
  | euler
  | sqrt
  | log
  | ln
  | sin
  | cos
  deriving DecidableEq, Repr

namespace Builtin

/-- Every function. -/
def all : List Builtin :=
  [pi, euler, sqrt, log, ln, sin, cos]

/-- How the function is written. -/
def symbol : Builtin → String
  | pi => "PI"
  | euler => "E"
  | sqrt => "sqrt"
  | log => "log"
  | ln => "ln"
  | sin => "sin"
  | cos => "cos"

/-- The number of parameters. A function without any is written without parentheses. -/
def arity : Builtin → Nat
  | pi | euler => 0
  | sqrt | ln | sin | cos => 1
  | log => 2

/-- The strength with which every function binds. -/
def precedence : Nat := 12

/-- The function with a given name. -/
def ofSymbol? (symbol : String) : Option Builtin :=
  all.find? fun f => f.symbol == symbol

/-- The logarithm of `x` to a base; a base that does not count as true leaves the natural
logarithm as it is. -/
def logarithm (x base : Value) : Float :=
  x.asNumber.log / if base.isTruthy then base.asNumber.log else 1.0

/-- The rule of the function, for as many values as it has parameters. -/
def apply : Builtin → List Value → Value
  | pi, [] => .number (Float.ofBits 0x400921fb54442d18)
  | euler, [] => .number (Float.ofBits 0x4005bf0a8b145769)
  | sqrt, [v] => .number v.asNumber.sqrt
  | log, [v, base] => .number (logarithm v base)
  | ln, [v] => .number v.asNumber.log
  | sin, [v] => .number v.asNumber.sin
  | cos, [v] => .number v.asNumber.cos
  | _, _ => .undefined

end Builtin

end Formulary
