/-
What is built of tokens: they become atoms once their names are looked up and their lists are computed.
An item of a list is put together and evaluated as soon as it is complete, and its tree is taken out of
the forest again; meanwhile the formula around the list rests.
-/
import Formulary.Proofs.Reading.Token
import Formulary.Infix.Assembly
import Formulary.Forest.Evaluation
import Formulary.Forest.Reach
import Formulary.Bindings
import Formulary.Number.Numeral

namespace Formulary.Reading

open Infix

/-- A list that is not complete: the formula around it, the size of the forest when it began, and
the items computed so far. -/
structure OpenList where
  outer : Yard
  mark : Nat
  items : Array Value := #[]

/-- The forest, the formula or list item at hand, the open lists with the innermost first, and the
length of the longest list met. -/
structure Draft where
  forest : Forest
  yard : Yard := {}
  lists : List OpenList := []
  width : Nat := 0

namespace Draft

/-- Adds an atom to the formula or item at hand. -/
def add (d : Draft) (text : String) (meaning : Meaning) : Draft :=
  { d with yard := d.yard.push ⟨text, meaning⟩ }

/-- Adds a variable. Every list it reaches is rewound and counts for the width. -/
def addVariable (d : Draft) (name : String) (target : NodeId) : Draft :=
  let (longest, forest) := d.forest.rewindLists target
  { d with forest := forest, width := max d.width longest }.add name
    (.operand (.variable name target))

/-- Begins a list. -/
def beginList (d : Draft) : Draft :=
  { d with yard := {}, lists := { outer := d.yard, mark := d.forest.size } :: d.lists }

/-- Completes an item of the innermost list: its value is kept, its tree is not. -/
def endItem (d : Draft) : Option Draft :=
  match d.lists with
  | [] => none
  | list :: others =>
    match d.yard.finish d.forest with
    | (none, _) => none
    | (some root, forest) =>
      let (value, forest) := forest.evaluate root
      some { d with
        forest := forest.truncate list.mark
        yard := {}
        lists := { list with items := list.items.push value } :: others }

/-- Completes the innermost list and goes on with the formula around it. -/
def endList (d : Draft) (text : String) : Option Draft :=
  match d.lists with
  | [] => none
  | list :: others =>
    some ({ d with
      yard := list.outer
      lists := others
      width := max d.width list.items.size }.add text (.operand (.list list.items)))

/-- Takes the next token. Fails only on tokens that are none of a formula whose names are all
bound. -/
def take (bindings : Bindings) (d : Draft) (token : Token) : Option Draft :=
  match token.kind with
  | .number => some (d.add token.text (.operand (.number (Number.ofNumeral token.text))))
  | .variable => (bindings.lookup token.text).map (d.addVariable token.text)
  | .operator op => some (d.add token.text (.operator op))
  | .builtin f => some (d.add token.text (.builtin f))
  | .mark m => some (d.add token.text (.mark m))
  | .listStart => some d.beginList
  | .itemEnd => d.endItem
  | .listEnd => d.endList token.text

/-- Takes tokens in turn. -/
def takeAll (bindings : Bindings) : Draft → List Token → Option Draft
  | d, [] => some d
  | d, token :: rest =>
    match d.take bindings token with
    | none => none
    | some d => d.takeAll bindings rest

theorem takeAll_append {bindings : Bindings} (d : Draft) (tokens more : List Token) :
    d.takeAll bindings (tokens ++ more) = (d.takeAll bindings tokens).bind (·.takeAll bindings more) := by
  induction tokens generalizing d with
  | nil => rfl
  | cons token tokens ih =>
    rw [List.cons_append, takeAll, takeAll]
    cases d.take bindings token with
    | none => rfl
    | some d => exact ih d

end Draft

end Formulary.Reading
