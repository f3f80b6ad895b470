/-
The lexemes of a JSON text. The text is taken character by character by a machine whose mode says
what has been begun: nothing, a string, an escape in it, a number or a word. A string is kept as
its pieces, so that whether its escapes make up a text is asked only of strings that are used.
-/
namespace Formulary.Json

/-- A piece of a string: a character, or the sixteen-bit unit of a `\u` escape. -/
inductive Piece where
  | char (c : Char)
  | codeUnit (n : Nat)
  deriving DecidableEq, Repr

/-- A smallest part of a JSON text. A number is kept as it is written. -/
inductive Lexeme where
  | openBrace
  | closeBrace
  | openBracket
  | closeBracket
  | colon
  | comma
  | null
  | true
  | false
  | number (written : List Char)
  | string (pieces : List Piece)
  deriving DecidableEq, Repr

/-! ## Numbers -/

/-- How far a number has come. -/
inductive Numeral where
  | sign
  | zero
  | whole
  | point
  | fraction
  | exponent
  | exponentSign
  | power
  deriving DecidableEq, Repr

namespace Numeral

/-- The number that begins with a character. -/
def start? (c : Char) : Option Numeral :=
  if c = '-' then some sign
  else if c = '0' then some zero
  else if c.isDigit then some whole
  else none

/-- The number after one more character, if that continues it. -/
def next? (n : Numeral) (c : Char) : Option Numeral :=
  match n with
  | sign => if c = '0' then some zero else if c.isDigit then some whole else none
  | zero => tail?
  | whole => if c.isDigit then some whole else tail?
  | point => if c.isDigit then some fraction else none
  | fraction => if c.isDigit then some fraction else exponent?
  | exponent =>
    if c.isDigit then some power
    else if c = '+' ∨ c = '-' then some exponentSign
    else none
  | exponentSign | power => if c.isDigit then some power else none
where
  /-- An exponent may follow. -/
  exponent? : Option Numeral := if c = 'e' ∨ c = 'E' then some exponent else none
  /-- A fraction or an exponent may follow. -/
  tail? : Option Numeral := if c = '.' then some point else exponent?

/-- Whether the number may end here. -/
def isComplete : Numeral → Bool
  | zero | whole | fraction | power => true
  | _ => false

end Numeral

/-! ## Escapes -/

/-- The character that a backslash and this one stand for. -/
def escaped? (c : Char) : Option Char :=
  match c with
  | '"' => some '"'
  | '\\' => some '\\'
  | '/' => some '/'
  | 'b' => some '\x08'
  | 'f' => some '\x0c'
  | 'n' => some '\n'
  | 'r' => some '\r'
  | 't' => some '\t'
  | _ => none

/-- The value of a hexadecimal digit. -/
def hexDigit? (c : Char) : Option Nat :=
  if c.isDigit then some (c.toNat - '0'.toNat)
  else if 'a' ≤ c ∧ c ≤ 'f' then some (c.toNat - 'a'.toNat + 10)
  else if 'A' ≤ c ∧ c ≤ 'F' then some (c.toNat - 'A'.toNat + 10)
  else none

/-! ## The machine -/

/-- What has been begun. Pieces and characters are kept with the latest first. -/
inductive Mode where
  | gap
  | string (pieces : List Piece)
  | escape (pieces : List Piece)
  /-- Within a `\u` escape: the digits still missing and the value so far. -/
  | codeUnit (pieces : List Piece) (missing : Nat) (value : Nat)
  | number (state : Numeral) (written : List Char)
  | word (rest : List Char) (lexeme : Lexeme)
  deriving DecidableEq, Repr

/-- White space between lexemes. -/
def isSpace (c : Char) : Bool :=
  c == ' ' || c == '\n' || c == '\t' || c == '\r'

/-- Begins a lexeme. -/
def begin? (c : Char) : Option (List Lexeme × Mode) :=
  match c with
  | '\x7b' => some ([.openBrace], .gap)
  | '\x7d' => some ([.closeBrace], .gap)
  | '[' => some ([.openBracket], .gap)
  | ']' => some ([.closeBracket], .gap)
  | ':' => some ([.colon], .gap)
  | ',' => some ([.comma], .gap)
  | '"' => some ([], .string [])
  | 'n' => some ([], .word ['u', 'l', 'l'] .null)
  | 't' => some ([], .word ['r', 'u', 'e'] .true)
  | 'f' => some ([], .word ['a', 'l', 's', 'e'] .false)
  | _ =>
    if isSpace c then some ([], .gap)
    else (Numeral.start? c).map fun n => ([], .number n [c])

/-- Takes one character: the lexemes that it completes, the latest first, and the mode behind
it. -/
def Mode.step (mode : Mode) (c : Char) : Option (List Lexeme × Mode) :=
  match mode with
  | gap => begin? c
  | string pieces =>
    if c = '"' then some ([.string pieces.reverse], gap)
    else if c = '\\' then some ([], escape pieces)
    else if c.toNat < 0x20 then none
    else some ([], string (.char c :: pieces))
  | escape pieces =>
    if c = 'u' then some ([], codeUnit pieces 4 0)
    else (escaped? c).map fun d => ([], string (.char d :: pieces))
  | codeUnit pieces missing value =>
    (hexDigit? c).map fun d =>
      let value := 16 * value + d
      if missing ≤ 1 then ([], string (.codeUnit value :: pieces))
      else ([], codeUnit pieces (missing - 1) value)
  | number state written =>
    match state.next? c with
    | some state => some ([], number state (c :: written))
    | none =>
      if state.isComplete then
        (begin? c).map fun begun => (begun.1 ++ [.number written.reverse], begun.2)
      else none
  | word rest lexeme =>
    match rest with
    | [] => none
    | [d] => if c = d then some ([lexeme], gap) else none
    | d :: rest => if c = d then some ([], word rest lexeme) else none

/-- What the end of the text completes. -/
def Mode.finish? : Mode → Option (List Lexeme)
  | gap => some []
  | number state written => if state.isComplete then some [.number written.reverse] else none
  | _ => none

/-- Takes a text from some mode on, with the lexemes before it, the latest first. -/
def lexFrom (mode : Mode) (done : List Lexeme) : List Char → Option (List Lexeme)
  | [] => mode.finish?.map fun last => (last ++ done).reverse
  | c :: rest =>
    match mode.step c with
    | none => none
    | some (lexemes, mode) => lexFrom mode (lexemes ++ done) rest

/-- The lexemes of a text; nothing if it has a part that is none. -/
def lex (text : List Char) : Option (List Lexeme) :=
  lexFrom .gap [] text

end Formulary.Json
