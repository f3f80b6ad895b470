/-
What of a formula is in its text. Apart from what is built of it, a formula is read as a row of tokens:
that depends on the text, the options and which names are bound, and on nothing else. The tokens read
before an error are kept.
-/
import Formulary.Reading.Driver
import Formulary.Proofs.Reading.Token

namespace Formulary.Reading

open Text Symbols

/-! ## Readers -/

/-- What a formula is read against: how symbols are matched, how deep brackets may nest, and which
names are bound. -/
structure Scope where
  policy : MatchPolicy
  nestingLimit : Nat
  binds : String → Bool

/-- What formulas are read against under some options and with some names bound. -/
def Scope.of (options : Options) (b : Bindings) : Scope where
  policy := options.matchPolicy
  nestingLimit := options.maxNestingDepth
  binds := b.contains

/-- The state of reading: the place in the text, the open brackets with the innermost first, and
the tokens read with the latest first. -/
structure State where
  cursor : Cursor
  brackets : List Bracket := []
  tokens : List Token := []
  deriving DecidableEq, Repr

/-- A step of reading, which may fail; the state survives a failure. -/
abbrev Reader := EStateM ReadError State

/-- Fails at the cursor. -/
def fail {α : Type} (fault : Fault) : Reader α := fun s =>
  .error (s.cursor.error fault) s

/-- Fails at the cursor unless the condition holds there. -/
def require (condition : Cursor → Bool) (fault : Fault) : Reader Unit := fun s =>
  if condition s.cursor then .ok () s else .error (s.cursor.error fault) s

/-- What the cursor shows. -/
def look {α : Type} (view : Cursor → α) : Reader α := fun s =>
  .ok (view s.cursor) s

/-- Moves the cursor. -/
def move (step : Cursor → Cursor) : Reader Unit := fun s =>
  .ok () { s with cursor := step s.cursor }

/-- Completes a token with the lexeme as its text. -/
def emit (kind : TokenKind) : Reader Unit := fun s =>
  let (text, cursor) := s.cursor.takeLexeme
  .ok () { s with cursor := cursor, tokens := ⟨text, kind⟩ :: s.tokens }

/-- Adds a token without text. -/
def note (kind : TokenKind) : Reader Unit := fun s =>
  .ok () { s with tokens := ⟨"", kind⟩ :: s.tokens }

/-- Opens a bracket, unless as many as allowed are open already. -/
def enter (limit : Nat) (bracket : Bracket) : Reader Unit := fun s =>
  if s.brackets.length < limit then
    .ok () { s with brackets := bracket :: s.brackets }
  else
    .error (s.cursor.error (.nestingTooDeep limit)) s

/-- Closes the innermost bracket. -/
def leave : Reader Unit := fun s =>
  .ok () { s with brackets := s.brackets.tail }

/-- Whether the expression ends at the cursor: with the text, or where the innermost bracket is
closed or continued. -/
def State.atEnd (s : State) : Bool :=
  !s.cursor.hasMore || s.brackets.head?.any (·.endsAt s.cursor)

/-! ## Primaries -/

/-- One or more digits. -/
def digits (fault : Fault) : Reader Unit := do
  require (·.isAtAny isDigit) fault
  move (·.gatherWhile isDigit)

/-- A numeral; a minus sign before it is part of it. -/
def numeral : Reader Unit := do
  if ← look (·.isAt '-') then
    move (·.gather 1)
  digits .missingDigits
  if ← look (·.isAt '.') then
    move (·.gather 1)
    digits .missingFraction
  emit .number

/-- A name that is bound. -/
def boundName (scope : Scope) : Reader Unit := do
  move (·.gatherWhile isNameChar)
  let name ← look (·.lexeme)
  require (fun _ => scope.binds name) (.undefinedVariable name)
  emit .variable

/-- The mark at the cursor, which has to be the given character. -/
def expect (char : Char) (mark : Infix.Mark) (fault : Fault) : Reader Unit := do
  require (·.isAt char) fault
  move (·.gather 1)
  emit (.mark mark)

/-- An expression in parentheses. -/
def group (scope : Scope) (expression : Reader Unit) : Reader Unit := do
  enter scope.nestingLimit .group
  move (·.gather 1)
  emit (.mark .opening)
  expression
  expect ')' .closing .expectedClosingParenthesis
  leave

/-- As many expressions as a function has parameters, separated by commas. -/
def arguments (expression : Reader Unit) : Nat → Reader Unit
  | 0 => pure ()
  | 1 => expression
  | count + 2 => do
    expression
    expect ',' .comma .expectedComma
    arguments expression (count + 1)

/-- A function and its arguments; the name has the given length. -/
def call (scope : Scope) (expression : Reader Unit) (f : Builtin) (length : Nat) :
    Reader Unit := do
  move (·.gather length)
  emit (.builtin f)
  if f.arity = 0 then
    pure ()
  else
    require (·.isAt '(') .expectedOpeningParenthesis
    enter scope.nestingLimit .arguments
    move (·.gather 1)
    emit (.mark .opening)
    arguments expression f.arity
    expect ')' .closing .expectedClosingParenthesis
    leave

/-- The items of a list, of which the text has room for at most `count`. -/
def listItems (expression : Reader Unit) : (count : Nat) → Reader Unit
  | 0 => fail .expectedExpression
  | count + 1 => do
    move (·.skipBlanks)
    expression
    note .itemEnd
    if ← look (·.isAt ',') then
      move (·.skip)
      listItems expression count

/-- A list in brackets. -/
def listLiteral (scope : Scope) (expression : Reader Unit) (count : Nat) : Reader Unit := do
  enter scope.nestingLimit .list
  move (·.skip)
  note .listStart
  listItems expression count
  require (·.isAt ']') .expectedClosingBracket
  move (·.skip)
  leave
  emit .listEnd

/-- The function at the cursor, unless its name is only the beginning of a longer one. -/
def functionAt? (scope : Scope) (c : Cursor) : Option (Builtin × Nat) :=
  (builtinAt scope.policy c.ahead).filter fun found => !c.isNameCharAt found.2

/-- A primary, whose parts are read as expressions by the given reader. -/
def primary (scope : Scope) (expression : Reader Unit) (count : Nat) : Reader Unit := do
  move (·.skipBlanks)
  let c ← look id
  if c.isAt '(' then
    group scope expression
  else if c.isAtAny isDigit || c.isAt '-' then
    numeral
  else
    match functionAt? scope c with
    | some (f, length) => call scope expression f length
    | none =>
      if c.isAtAny isNameChar then
        boundName scope
      else if c.isAt '[' then
        listLiteral scope expression count
      else
        fail .expectedExpression

/-! ## Formulas -/

/-- An expression. The bound exceeds the number of characters ahead and so never runs out: every
primary takes up at least one of them, and so does every bracket around one. -/
def expression (scope : Scope) : (bound : Nat) → Reader Unit
  | 0 => fail .expectedExpression
  | bound + 1 => do
    primary scope (expression scope bound) bound
    move (·.skipBlanks)
    if (← get).atEnd then
      pure ()
    else
      match operatorAt scope.policy (← look (·.ahead)) with
      | none => fail .expectedOperator
      | some (op, length) =>
        move (·.gather length)
        emit (.operator op)
        expression scope bound

/-- What came of reading a formula: the name to bind, the tokens in order, where the reading ended
and the error if there was one. -/
structure Transcript where
  target : Option String
  tokens : List Token
  stop : Cursor
  error? : Option ReadError
  deriving DecidableEq, Repr

/-- Reads a whole formula. -/
def read (scope : Scope) (text : String) : Transcript :=
  let start := Cursor.ofText text
  let (target, cursor) := target? start
  let formula : Reader Unit := do
    expression scope (start.ahead.length + 1)
    require (!·.hasMore) .expectedOperator
  match formula { cursor := cursor } with
  | .ok _ s => ⟨target, s.tokens.reverse, s.cursor, none⟩
  | .error e s => ⟨target, s.tokens.reverse, s.cursor, some e⟩

end Formulary.Reading
