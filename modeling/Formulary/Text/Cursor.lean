/-
A place in the text of a formula, with the characters of the token that is being read. Reading
either passes over characters or gathers them into the lexeme; the lexeme is taken when its token
is complete. Only one character is blank, and letters and digits are those of ASCII.
-/
namespace Formulary.Text

/-! ## Characters -/

/-- A digit of a numeral. -/
def isDigit (c : Char) : Bool :=
  c.isDigit

/-- A character of a name: a letter or an underscore. -/
def isNameChar (c : Char) : Bool :=
  c.isAlpha || c == '_'

/-- The blank, which may stand between tokens. -/
def isBlank (c : Char) : Bool :=
  c == ' '

/-! ## The cursor -/

/-- What has been read, newest first, what is still ahead, and the lexeme gathered so far. -/
structure Cursor where
  past : List Char := []
  ahead : List Char
  lexeme : String := ""
  deriving DecidableEq, Repr

namespace Cursor

/-- The start of a text. -/
def ofText (text : String) : Cursor :=
  { ahead := text.toList }

/-- The number of characters read. -/
def position (c : Cursor) : Nat :=
  c.past.length

/-- The text read so far. -/
def consumed (c : Cursor) : String :=
  String.ofList c.past.reverse

/-- The next character. -/
def current (c : Cursor) : Option Char :=
  c.ahead.head?

/-- The character a number of places after the next one. -/
def peek (c : Cursor) (offset : Nat) : Option Char :=
  c.ahead[offset]?

/-- Whether any text is ahead. -/
def hasMore (c : Cursor) : Bool :=
  !c.ahead.isEmpty

/-- Whether the next character is this one. -/
def isAt (c : Cursor) (char : Char) : Bool :=
  c.current == some char

/-- Whether the next character satisfies the test. -/
def isAtAny (c : Cursor) (test : Char → Bool) : Bool :=
  c.current.any test

/-- Whether the character at an offset can stand in a name. -/
def isNameCharAt (c : Cursor) (offset : Nat) : Bool :=
  (c.peek offset).any isNameChar

/-- Passes over one character, if there is one. -/
def skip (c : Cursor) : Cursor :=
  match c.ahead with
  | [] => c
  | x :: rest => { c with past := x :: c.past, ahead := rest }

/-- Passes over the blanks ahead. -/
def skipBlanks (c : Cursor) : Cursor :=
  { c with
    past := (c.ahead.takeWhile isBlank).reverse ++ c.past
    ahead := c.ahead.dropWhile isBlank }

/-- Gathers up to `count` characters into the lexeme. -/
def gather (c : Cursor) (count : Nat) : Cursor where
  past := (c.ahead.take count).reverse ++ c.past
  ahead := c.ahead.drop count
  lexeme := c.lexeme ++ String.ofList (c.ahead.take count)

/-- Gathers the characters ahead as long as they satisfy the test. -/
def gatherWhile (c : Cursor) (test : Char → Bool) : Cursor where
  past := (c.ahead.takeWhile test).reverse ++ c.past
  ahead := c.ahead.dropWhile test
  lexeme := c.lexeme ++ String.ofList (c.ahead.takeWhile test)

/-- Hands the lexeme over and begins a new one. -/
def takeLexeme (c : Cursor) : String × Cursor :=
  (c.lexeme, { c with lexeme := "" })

/-- Goes back to the start of the text and drops the lexeme. -/
def rewind (c : Cursor) : Cursor :=
  { ahead := c.past.reverse ++ c.ahead }

end Cursor

end Formulary.Text
