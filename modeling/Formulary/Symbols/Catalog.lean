/-
The symbols that formulas can use, as prefix trees: one of the operators and one of the functions.
-/
import Formulary.Symbols.Trie
import Formulary.Operator
import Formulary.Builtin

namespace Formulary.Symbols

/-- The symbols of all operators. -/
def operators : Trie Operator :=
  Trie.ofList (Operator.all.map fun op => (op.symbol, op))

/-- The names of all functions. -/
def builtins : Trie Builtin :=
  Trie.ofList (Builtin.all.map fun f => (f.symbol, f))

/-- The operator at the head of a text, with the length of its symbol. -/
def operatorAt (policy : MatchPolicy) (text : List Char) : Option (Operator × Nat) :=
  operators.find text 0 policy

/-- The function at the head of a text, with the length of its name. -/
def builtinAt (policy : MatchPolicy) (text : List Char) : Option (Builtin × Nat) :=
  builtins.find text 0 policy

end Formulary.Symbols
