/-
Reading a formula and building its tree, in one pass. A formula is an expression, or a name, a single
equals sign and an expression:

  expression  primary (OPERATOR primary)*
  primary     "(" expression ")"
              ["-"] DIGIT+ ["." DIGIT+]
              FUNCTION ["(" expression ("," expression)* ")"]
              NAME
              "[" expression ("," expression)* "]"

A function name is one that no further name character follows, a name has to be bound, and blanks
may stand before and after a primary. Behind a primary stands an operator, the end of the text or
what closes or continues the innermost bracket. What is read goes to a yard as it is met. An item of
a list is read into a yard of its own and evaluated as soon as it is complete, and its tree is taken
out of the forest again; meanwhile the yard around the list rests.
-/
import Formulary.Bindings
import Formulary.Forest.Evaluation
import Formulary.Forest.Reach
import Formulary.Infix.Assembly
import Formulary.Number.Numeral
import Formulary.Options
import Formulary.ReadError
import Formulary.Symbols.Catalog

namespace Formulary.Reading

open Text Infix Symbols

/-- A bracket that can be open: around an expression, the arguments of a function or a list. -/
inductive Bracket where
  | group
  | arguments
  | list
  deriving DecidableEq, Repr

/-- Whether the character at the cursor closes the bracket or separates its parts. -/
def Bracket.endsAt (bracket : Bracket) (c : Cursor) : Bool :=
  match bracket with
  | group => c.isAt ')'
  | arguments => c.isAt ')' || c.isAt ','
  | list => c.isAt ']' || c.isAt ','

/-- The name an assignment begins with, and the place behind the equals sign; without one, the
start of the text. -/
def target? (c : Cursor) : Option String × Cursor :=
  let named := c.skipBlanks.gatherWhile isNameChar
  let c := named.skipBlanks
  if !named.lexeme.isEmpty && c.isAt '=' && c.peek 1 != some '=' then
    let (name, c) := c.skip.takeLexeme
    (some name, c)
  else
    (none, c.rewind)

/-- The state of reading: the place in the text, the forest, the yard of the formula or list item at
hand, the yards that rest and the open brackets, each with the innermost first, and the length of the
longest list met. -/
structure Driver where
  cursor : Cursor
  forest : Forest
  yard : Yard := {}
  resting : List Yard := []
  brackets : List Bracket := []
  width : Nat := 0

/-- A step of the driver, which may fail; what it has done by then is kept. -/
abbrev Drive := EStateM ReadError Driver

namespace Driver

/-! ## Steps -/

/-- Fails at the cursor. -/
def fail {α : Type} (fault : Fault) : Drive α := fun d =>
  .error (d.cursor.error fault) d

/-- Fails at the cursor unless the condition holds there. -/
def require (condition : Cursor → Bool) (fault : Fault) : Drive Unit := fun d =>
  if condition d.cursor then .ok () d else .error (d.cursor.error fault) d

/-- What the cursor shows. -/
def look {α : Type} (view : Cursor → α) : Drive α := fun d =>
  .ok (view d.cursor) d

/-- Moves the cursor. -/
def move (step : Cursor → Cursor) : Drive Unit := fun d =>
  .ok () { d with cursor := step d.cursor }

/-- Pushes an atom onto the yard at hand, with the lexeme as its text. -/
def emit (meaning : Meaning) : Drive Unit := fun d =>
  let (text, cursor) := d.cursor.takeLexeme
  .ok () { d with cursor := cursor, yard := d.yard.push ⟨text, meaning⟩ }

/-- Opens a bracket, unless as many as allowed are open already. -/
def enter (limit : Nat) (bracket : Bracket) : Drive Unit := fun d =>
  if d.brackets.length < limit then
    .ok () { d with brackets := bracket :: d.brackets }
  else
    .error (d.cursor.error (.nestingTooDeep limit)) d

/-- Closes the innermost bracket. -/
def leave : Drive Unit := fun d =>
  .ok () { d with brackets := d.brackets.tail }

/-- Makes room for a list of some length. -/
def widen (length : Nat) : Drive Unit := fun d =>
  .ok () { d with width := max d.width length }

/-- Rewinds every list that a tree reaches and makes room for the longest of them. -/
def prime (target : NodeId) : Drive Unit := fun d =>
  let (longest, forest) := d.forest.rewindLists target
  .ok () { d with forest := forest, width := max d.width longest }

/-- Whether the expression ends at the cursor: with the text, or where the innermost bracket is
closed or continued. -/
def atEnd (d : Driver) : Bool :=
  !d.cursor.hasMore || d.brackets.head?.any (·.endsAt d.cursor)

/-! ## Primaries -/

/-- One or more digits. -/
def digits (fault : Fault) : Drive Unit := do
  require (·.isAtAny isDigit) fault
  move (·.gatherWhile isDigit)

/-- A numeral; a minus sign before it is part of it. -/
def numeral : Drive Unit := do
  if ← look (·.isAt '-') then
    move (·.gather 1)
  digits .missingDigits
  if ← look (·.isAt '.') then
    move (·.gather 1)
    digits .missingFraction
  emit (.operand (.number (Number.ofNumeral (← look (·.lexeme)))))

/-- A name that is bound. The lists of its tree are rewound. -/
def variableName (bindings : Bindings) : Drive Unit := do
  move (·.gatherWhile isNameChar)
  let name ← look (·.lexeme)
  match bindings.lookup name with
  | none => fail (.undefinedVariable name)
  | some target =>
    prime target
    emit (.operand (.variable name target))

/-- The mark at the cursor, which has to be the given character. -/
def expect (char : Char) (mark : Mark) (fault : Fault) : Drive Unit := do
  require (·.isAt char) fault
  move (·.gather 1)
  emit (.mark mark)

/-- An expression in parentheses. -/
def group (limit : Nat) (expression : Drive Unit) : Drive Unit := do
  enter limit .group
  move (·.gather 1)
  emit (.mark .opening)
  expression
  expect ')' .closing .expectedClosingParenthesis
  leave

/-- As many expressions as a function has parameters, separated by commas. -/
def arguments (expression : Drive Unit) : Nat → Drive Unit
  | 0 => pure ()
  | 1 => expression
  | count + 2 => do
    expression
    expect ',' .comma .expectedComma
    arguments expression (count + 1)

/-- A function and its arguments; the name has the given length. -/
def call (limit : Nat) (expression : Drive Unit) (f : Builtin) (length : Nat) : Drive Unit := do
  move (·.gather length)
  emit (.builtin f)
  if f.arity = 0 then
    pure ()
  else
    require (·.isAt '(') .expectedOpeningParenthesis
    enter limit .arguments
    move (·.gather 1)
    emit (.mark .opening)
    arguments expression f.arity
    expect ')' .closing .expectedClosingParenthesis
    leave

/-- Lets the yard at hand rest and takes a fresh one. -/
def pause (d : Driver) : Driver :=
  { d with yard := {}, resting := d.yard :: d.resting }

/-- Goes back to the yard that has rested last. -/
def resume (d : Driver) : Driver :=
  { d with yard := d.resting.headD {}, resting := d.resting.tail }

/-- The value of an item of a list, which is read as a formula of its own. Nothing of its tree stays
in the forest. -/
def item (expression : Drive Unit) : Drive Value := fun d =>
  let mark := d.forest.size
  match expression d.pause with
  | .error e d => .error e d.resume
  | .ok _ d =>
    match d.yard.finish d.forest with
    | (none, forest) => .error (d.cursor.error .expectedExpression) { d with forest := forest }.resume
    | (some root, forest) =>
      let (value, forest) := forest.evaluate root
      .ok value { d with forest := forest.truncate mark }.resume

/-- The values of the items of a list, behind those there are already. The text has room for at most
`count` more. -/
def items (expression : Drive Unit) : (count : Nat) → Array Value → Drive (Array Value)
  | 0, _ => fail .expectedExpression
  | count + 1, values => do
    move (·.skipBlanks)
    let value ← item expression
    let values := values.push value
    if ← look (·.isAt ',') then
      move (·.skip)
      items expression count values
    else
      pure values

/-- A list in brackets. -/
def listLiteral (limit : Nat) (expression : Drive Unit) (count : Nat) : Drive Unit := do
  enter limit .list
  move (·.skip)
  let values ← items expression count #[]
  require (·.isAt ']') .expectedClosingBracket
  move (·.skip)
  leave
  widen values.size
  emit (.operand (.list values))

/-- The function at the cursor, unless its name is only the beginning of a longer one. -/
def functionAt? (policy : MatchPolicy) (c : Cursor) : Option (Builtin × Nat) :=
  (builtinAt policy c.ahead).filter fun found => !c.isNameCharAt found.2

/-- A primary, whose parts are read as expressions by the given step. -/
def primary (options : Options) (bindings : Bindings) (expression : Drive Unit) (count : Nat) : Drive Unit := do
  move (·.skipBlanks)
  let c ← look id
  if c.isAt '(' then
    group options.maxNestingDepth expression
  else if c.isAtAny isDigit || c.isAt '-' then
    numeral
  else
    match functionAt? options.matchPolicy c with
    | some (f, length) => call options.maxNestingDepth expression f length
    | none =>
      if c.isAtAny isNameChar then
        variableName bindings
      else if c.isAt '[' then
        listLiteral options.maxNestingDepth expression count
      else
        fail .expectedExpression

/-! ## Formulas -/

/-- An expression. The bound exceeds the number of characters ahead and so never runs out: every
primary takes up at least one of them, and so does every bracket around one. -/
def expression (options : Options) (bindings : Bindings) : (bound : Nat) → Drive Unit
  | 0 => fail .expectedExpression
  | bound + 1 => do
    primary options bindings (expression options bindings bound) bound
    move (·.skipBlanks)
    if (← get).atEnd then
      pure ()
    else
      match operatorAt options.matchPolicy (← look (·.ahead)) with
      | none => fail .expectedOperator
      | some (op, length) =>
        move (·.gather length)
        emit (.operator op)
        expression options bindings bound

/-- The name that the formula assigns to, if any. -/
def assignmentTarget : Drive (Option String) := fun d =>
  let (target, cursor) := target? d.cursor
  .ok target { d with cursor := cursor }

/-- Puts the tree of the formula into the forest. -/
def finish : Drive NodeId := fun d =>
  match d.yard.finish d.forest with
  | (none, forest) => .error (d.cursor.error .expectedExpression) { d with forest := forest }
  | (some root, forest) => .ok root { d with forest := forest }

/-- A whole formula: the name that it assigns to and the root of its tree. -/
def formula (options : Options) (bindings : Bindings) (bound : Nat) : Drive (Option String × NodeId) := do
  let target ← assignmentTarget
  expression options bindings bound
  require (!·.hasMore) .expectedOperator
  let root ← finish
  pure (target, root)

/-- The driver before a text. -/
def start (forest : Forest) (text : String) : Driver :=
  { cursor := .ofText text, forest := forest }

/-- Reads a text. -/
def run (options : Options) (bindings : Bindings) (forest : Forest) (text : String) :
    EStateM.Result ReadError Driver (Option String × NodeId) :=
  let start := start forest text
  formula options bindings (start.cursor.ahead.length + 1) start

end Driver

end Formulary.Reading
