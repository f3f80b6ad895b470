/-
A session takes formulas one after the other. Every tree it builds stays in its forest, so that
later formulas can refer to earlier ones by name, and its values can be asked for again and again:
each time every list of the formula goes on where it stopped.
-/
import Formulary.Reading.Driver
import Formulary.Forest.Outline
import Formulary.Event

namespace Formulary

open Reading

/-- The state of a session: beside the forest and the bound names, the roots of all trees in the
order in which they were built, and the root, the text and the width of the latest formula. -/
structure Session where
  options : Options := {}
  forest : Forest := .empty
  bindings : Bindings := .empty
  trees : Array NodeId := #[]
  root? : Option NodeId := none
  expression? : Option String := none
  width : Nat := 0

/-- What a session answers and what it reports meanwhile. -/
structure Answer (α : Type) where
  result : α
  events : List Event

namespace Session

/-- A session in which nothing has been read. -/
def new (options : Options) : Session :=
  { options := options }

/-- Refuses a formula: the forest is cut back to the size it had. -/
def refuse (s : Session) (text : String) (forest : Forest) (size : Nat) (error : ReadError) :
    Answer (Except ReadError Unit) × Session :=
  (⟨.error error, [.reading text, .refused error]⟩, { s with forest := forest.truncate size })

/-- Takes over a formula: its tree becomes the current one, and its name is bound to it. -/
def accept (s : Session) (text : String) (target : Option String) (root : NodeId)
    (forest : Forest) (width : Nat) : Answer (Except ReadError Unit) × Session :=
  let size := s.forest.size
  let trees := s.trees.push root
  let built : Event := .built trees.size (forest.size - size) width
  let s := { s with
    forest := forest, trees := trees, root? := some root, expression? := some text, width := width }
  match target with
  | none => (⟨.ok (), [.reading text, built]⟩, s)
  | some name =>
    (⟨.ok (), [.reading text, .bound name root, built]⟩,
      { s with bindings := s.bindings.bind name root })

/-- Reads a formula and builds its tree. A formula that cannot be read leaves no nodes and no
name. -/
def parse (s : Session) (text : String) : Answer (Except ReadError Unit) × Session :=
  match Driver.run s.options s.bindings s.forest text with
  | .error error d => s.refuse text d.forest s.forest.size error
  | .ok (target, root) d => s.accept text target root d.forest d.width

/-- The values of the current formula, one for each item of its longest list and at least one;
nothing before the first formula. -/
def values (s : Session) : Answer (Option (Array Value)) × Session :=
  match s.root? with
  | none => (⟨none, []⟩, s)
  | some root =>
    let width := max s.width 1
    let (values, forest) := s.forest.broadcast root width
    (⟨some values, [.evaluating root width]⟩, { s with forest := forest })

/-- The outline of the current tree; empty before the first formula. -/
def outline (s : Session) : String :=
  match s.root? with
  | none => ""
  | some root => s.forest.outline root

end Session

end Formulary
