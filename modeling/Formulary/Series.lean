/-
A fixed sequence of values with a read cursor that goes round: reading past the last item starts
again at the first. Evaluating a formula several times therefore walks its lists item by item.
-/
import Formulary.Value

namespace Formulary

/-- Items and the position of the next read. The position is the number of items just after the
last one was read; the step back to the first belongs to the next read. -/
structure Series where
  items : Array Value := #[]
  cursor : Nat := 0

namespace Series

/-- The item the next read yields, counted from the first; nothing for an empty series. -/
def nextIndex? (size cursor : Nat) : Option Nat :=
  if size = 0 then none else if cursor < size then some cursor else some 0

/-- Reads the item under the cursor and steps past it. Only an empty series has none. -/
def next (s : Series) : Option Value × Series :=
  match nextIndex? s.items.size s.cursor with
  | none => (none, s)
  | some i => (s.items[i]?, { s with cursor := i + 1 })

/-- Adds an item at the end. -/
def push (s : Series) (v : Value) : Series :=
  { s with items := s.items.push v }

/-- Puts the cursor back on the first item. -/
def rewind (s : Series) : Series :=
  { s with cursor := 0 }

/-- The number of items. -/
def size (s : Series) : Nat :=
  s.items.size

/-- The same items, compared one by one, and the same cursor. -/
def same (s t : Series) : Bool :=
  s.cursor == t.cursor && s.items.size == t.items.size &&
    (s.items.toList.zip t.items.toList).all fun p => p.1.same p.2

end Series

end Formulary
