/-
The grammar of formulas, apart from any reader. A phrase is a piece of a formula as its parts make
it up; it has a row of tokens, a nesting depth and the names it uses. Which texts spell a phrase is
a relation between the phrase, a text that begins with it and the rest of that text.

  expression  primary (OPERATOR primary)*
  primary     "(" expression ")"  |  ["-"] DIGIT+ ["." DIGIT+]  |  FUNCTION ["(" arguments ")"]
              |  NAME  |  "[" items "]"

Blanks may stand before and after a primary and nowhere else.
-/
import Formulary.Proofs.Reading.Token
import Formulary.Proofs.Symbols.Catalog

namespace Formulary.Reading

open Text

/-! ## Phrases -/

/-- The kinds of phrases. -/
inductive Kind where
  | primary
  | expression
  | arguments
  | items

/-- A piece of a formula. Arguments and items are rows of expressions that are not empty. -/
inductive Phrase : Kind → Type where
  | number (text : List Char) : Phrase .primary
  | name (text : List Char) : Phrase .primary
  | group (inner : Phrase .expression) : Phrase .primary
  | constant (f : Builtin) : Phrase .primary
  | call (f : Builtin) (args : Phrase .arguments) : Phrase .primary
  | list (items : Phrase .items) : Phrase .primary
  | single (operand : Phrase .primary) : Phrase .expression
  | chain (operand : Phrase .primary) (op : Operator) (rest : Phrase .expression) : Phrase .expression
  | argument (last : Phrase .expression) : Phrase .arguments
  | comma (first : Phrase .expression) (rest : Phrase .arguments) : Phrase .arguments
  | item (last : Phrase .expression) : Phrase .items
  | more (first : Phrase .expression) (rest : Phrase .items) : Phrase .items

namespace Phrase

/-- The token of an opening parenthesis. -/
def opening : Token := ⟨"(", .mark .opening⟩

/-- The token of a closing parenthesis. -/
def closing : Token := ⟨")", .mark .closing⟩

/-- The token of a comma between arguments. -/
def between : Token := ⟨",", .mark .comma⟩

/-- The tokens of a phrase. -/
def tokens : {k : Kind} → Phrase k → List Token
  | _, number text => [⟨String.ofList text, .number⟩]
  | _, name text => [⟨String.ofList text, .variable⟩]
  | _, group inner => opening :: (inner.tokens ++ [closing])
  | _, constant f => [⟨f.symbol, .builtin f⟩]
  | _, call f args => ⟨f.symbol, .builtin f⟩ :: opening :: (args.tokens ++ [closing])
  | _, list items => ⟨"", .listStart⟩ :: (items.tokens ++ [⟨"", .listEnd⟩])
  | _, single operand => operand.tokens
  | _, chain operand op rest => operand.tokens ++ ⟨op.symbol, .operator op⟩ :: rest.tokens
  | _, argument last => last.tokens
  | _, comma first rest => first.tokens ++ between :: rest.tokens
  | _, item last => last.tokens ++ [⟨"", .itemEnd⟩]
  | _, more first rest => first.tokens ++ ⟨"", .itemEnd⟩ :: rest.tokens

/-- How many brackets are open at once at most. -/
def depth : {k : Kind} → Phrase k → Nat
  | _, number _ | _, name _ | _, constant _ => 0
  | _, group inner => inner.depth + 1
  | _, call _ args => args.depth + 1
  | _, list items => items.depth + 1
  | _, single operand => operand.depth
  | _, chain operand _ rest => max operand.depth rest.depth
  | _, argument last | _, item last => last.depth
  | _, comma first rest | _, more first rest => max first.depth rest.depth

/-- The names of a phrase. -/
def names : {k : Kind} → Phrase k → List String
  | _, number _ | _, constant _ => []
  | _, name text => [String.ofList text]
  | _, group inner => inner.names
  | _, call _ args => args.names
  | _, list items => items.names
  | _, single operand => operand.names
  | _, chain operand _ rest => operand.names ++ rest.names
  | _, argument last | _, item last => last.names
  | _, comma first rest | _, more first rest => first.names ++ rest.names

/-- The operators of a phrase. -/
def operators : {k : Kind} → Phrase k → List Operator
  | _, number _ | _, name _ | _, constant _ => []
  | _, group inner => inner.operators
  | _, call _ args => args.operators
  | _, list items => items.operators
  | _, single operand => operand.operators
  | _, chain operand op rest => operand.operators ++ op :: rest.operators
  | _, argument last | _, item last => last.operators
  | _, comma first rest | _, more first rest => first.operators ++ rest.operators

/-- The number of arguments. -/
def count : {k : Kind} → Phrase k → Nat
  | _, argument _ => 1
  | _, comma _ rest => rest.count + 1
  | _, _ => 0

/-- Every function has as many arguments as it takes. -/
def Applied : {k : Kind} → Phrase k → Prop
  | _, number _ | _, name _ => True
  | _, group inner => inner.Applied
  | _, constant f => f.arity = 0
  | _, call f args => args.count = f.arity ∧ args.Applied
  | _, list items => items.Applied
  | _, single operand => operand.Applied
  | _, chain operand _ rest => operand.Applied ∧ rest.Applied
  | _, argument last | _, item last => last.Applied
  | _, comma first rest | _, more first rest => first.Applied ∧ rest.Applied

/-- The operators of a phrase are those of its tokens. -/
theorem mem_operators {k : Kind} {p : Phrase k} {op : Operator} :
    op ∈ p.operators ↔ ∃ token ∈ p.tokens, token.kind = .operator op := by
  induction p with
  | number | name | constant => simp [operators, tokens]
  | group inner ih => simp [operators, tokens, opening, closing, ih]
  | call f args ih => simp [operators, tokens, opening, closing, ih]
  | list items ih => simp [operators, tokens, ih]
  | single operand ih => exact ih
  | chain operand o rest ih ih' => simp [operators, tokens, ih, ih', or_and_right, exists_or, eq_comm]
  | argument last ih => exact ih
  | comma first rest ih ih' => simp [operators, tokens, between, ih, ih', or_and_right, exists_or]
  | item last ih => simp [operators, tokens, ih]
  | more first rest ih ih' => simp [operators, tokens, ih, ih', or_and_right, exists_or]

end Phrase

/-! ## Spelling -/

/-- One or more digits. -/
def Digits (text : List Char) : Prop :=
  text ≠ [] ∧ ∀ c ∈ text, isDigit c = true

/-- Digits, with an optional sign before them and an optional fraction behind. -/
def Numeral (text : List Char) : Prop :=
  ∃ sign whole fraction, text = sign ++ (whole ++ fraction) ∧ (sign = [] ∨ sign = ['-']) ∧ Digits whole ∧
    (fraction = [] ∨ ∃ digits, fraction = '.' :: digits ∧ Digits digits)

theorem Digits.exists_cons {text : List Char} (h : Digits text) : ∃ c rest, text = c :: rest ∧ isDigit c = true := by
  obtain ⟨c, rest, rfl⟩ := List.exists_cons_of_ne_nil h.1
  exact ⟨c, rest, rfl, h.2 c (List.mem_cons_self ..)⟩

theorem numeral_digit {c : Char} (h : isDigit c = true) : Numeral [c] :=
  ⟨[], [c], [], rfl, .inl rfl, ⟨by simp, by simpa using h⟩, .inl rfl⟩

/-- One or more characters of a name that no further one follows. -/
def Word (text rest : List Char) : Prop :=
  text ≠ [] ∧ (∀ c ∈ text, isNameChar c = true) ∧ ∀ c, rest.head? = some c → isNameChar c = false

theorem Word.exists_cons {text rest : List Char} (h : Word text rest) :
    ∃ c more, text = c :: more ∧ isNameChar c = true := by
  obtain ⟨c, more, rfl⟩ := List.exists_cons_of_ne_nil h.1
  exact ⟨c, more, rfl, h.2.1 c (List.mem_cons_self ..)⟩

/-- A function's name is a word where no character of a name follows. -/
theorem word_symbol (f : Builtin) {c : Char} {rest : List Char} (hc : isNameChar c = false) :
    Word f.symbol.toList (c :: rest) := by
  refine ⟨f.symbol_ne_nil, f.symbol_nameChars, ?_⟩
  rintro _ ⟨⟩
  exact hc

/-- A number of blanks. -/
abbrev blanks (n : Nat) : List Char :=
  List.replicate n ' '

theorem blanks_append_blanks (m n : Nat) (rest : List Char) :
    blanks m ++ (blanks n ++ rest) = blanks (m + n) ++ rest := by
  rw [← List.append_assoc, List.replicate_append_replicate]

/-- A text begins with a phrase, and this is the rest of it. -/
inductive Phrase.Spells : {k : Kind} → Phrase k → List Char → List Char → Prop
  | number {text rest : List Char} : Numeral text → Spells (.number text) (text ++ rest) rest
  | name {text rest : List Char} : Word text rest → (∀ f : Builtin, f.symbol.toList ≠ text) →
      Spells (.name text) (text ++ rest) rest
  | group {inner : Phrase .expression} {text rest : List Char} :
      Spells inner text (')' :: rest) → Spells (.group inner) ('(' :: text) rest
  | constant {f : Builtin} {rest : List Char} : Word f.symbol.toList rest →
      Spells (.constant f) (f.symbol.toList ++ rest) rest
  | call {f : Builtin} {args : Phrase .arguments} {text rest : List Char} :
      Spells args text (')' :: rest) → Spells (.call f args) (f.symbol.toList ++ '(' :: text) rest
  | list {items : Phrase .items} {text rest : List Char} :
      Spells items text (']' :: rest) → Spells (.list items) ('[' :: text) rest
  | single {operand : Phrase .primary} {text rest : List Char} (before after : Nat) :
      Spells operand text (blanks after ++ rest) → Spells (.single operand) (blanks before ++ text) rest
  | chain {operand : Phrase .primary} {op : Operator} {more : Phrase .expression} {text next rest : List Char}
      (before after : Nat) : Spells operand text (blanks after ++ (op.symbol.toList ++ next)) →
      Spells more next rest → Spells (.chain operand op more) (blanks before ++ text) rest
  | argument {last : Phrase .expression} {text rest : List Char} :
      Spells last text rest → Spells (.argument last) text rest
  | comma {first : Phrase .expression} {more : Phrase .arguments} {text next rest : List Char} :
      Spells first text (',' :: next) → Spells more next rest → Spells (.comma first more) text rest
  | item {last : Phrase .expression} {text rest : List Char} :
      Spells last text rest → Spells (.item last) text rest
  | more {first : Phrase .expression} {others : Phrase .items} {text next rest : List Char} :
      Spells first text (',' :: next) → Spells others next rest → Spells (.more first others) text rest

/-! ## Formulas -/

/-- A formula: an expression, which may be assigned to a name. -/
structure Formula where
  target : Option (List Char)
  body : Phrase .expression

namespace Formula

/-- A text is a formula as a whole. Behind an assigned name stands a single equals sign. -/
inductive Spells : Formula → List Char → Prop
  | plain {body : Phrase .expression} {text : List Char} : body.Spells text [] → Spells ⟨none, body⟩ text
  | assign {name next : List Char} {body : Phrase .expression} (before after : Nat) :
      name ≠ [] → (∀ c ∈ name, isNameChar c = true) → next.head? ≠ some '=' → body.Spells next [] →
      Spells ⟨some name, body⟩ (blanks before ++ (name ++ (blanks after ++ '=' :: next)))

end Formula

/-! ## What spelling takes up -/

namespace Phrase

theorem Spells.length_lt {k : Kind} {p : Phrase k} {text rest : List Char} (h : p.Spells text rest) :
    rest.length < text.length := by
  induction h with
  | @number text rest hn =>
    obtain ⟨sign, whole, fraction, rfl, -, ⟨hne, -⟩, -⟩ := hn
    have := List.length_pos_of_ne_nil hne
    simp only [List.length_append]
    omega
  | @name text rest hw _ =>
    have := List.length_pos_of_ne_nil hw.1
    rw [List.length_append]
    omega
  | group _ ih => simp only [List.length_cons] at *; omega
  | @constant f rest hw =>
    have := List.length_pos_of_ne_nil hw.1
    rw [List.length_append]
    omega
  | call _ ih => simp only [List.length_cons, List.length_append] at *; omega
  | list _ ih => simp only [List.length_cons] at *; omega
  | single before after _ ih => simp only [List.length_append] at *; omega
  | chain before after _ _ ihp ihe => simp only [List.length_append] at *; omega
  | argument _ ih => exact ih
  | comma _ _ ihf ihr => simp only [List.length_cons] at *; omega
  | item _ ih => exact ih
  | more _ _ ihf ihr => simp only [List.length_cons] at *; omega

/-- Blanks before an expression are part of it. -/
theorem Spells.blanks_append {p : Phrase .expression} {text rest : List Char} (n : Nat) (h : p.Spells text rest) :
    p.Spells (blanks n ++ text) rest := by
  cases h with
  | single before after hp =>
    rw [blanks_append_blanks]
    exact .single _ after hp
  | chain before after hp he =>
    rw [blanks_append_blanks]
    exact .chain _ after hp he

/-- The shapes of primaries that their first character tells. -/
inductive Shape where
  | number
  | word
  | group
  | list

/-- The characters that a primary of a shape can begin with. -/
def Shape.Begins : Shape → Char → Prop
  | number, c => isDigit c = true ∨ c = '-'
  | word, c => isNameChar c = true
  | group, c => c = '('
  | list, c => c = '['

/-- The shape of a primary. -/
def shape : Phrase .primary → Shape
  | number _ => .number
  | name _ | constant _ | call _ _ => .word
  | group _ => .group
  | list _ => .list

/-- A primary begins as its shape does. -/
theorem Spells.shape_begins {p : Phrase .primary} {text rest : List Char} (h : p.Spells text rest) :
    ∃ c more, text = c :: more ∧ p.shape.Begins c := by
  have word : ∀ {w : List Char} (more : List Char), w ≠ [] → (∀ c ∈ w, isNameChar c = true) →
      ∃ c more', w ++ more = c :: more' ∧ isNameChar c = true := by
    intro w more hne hw
    obtain ⟨c, w, rfl⟩ := List.exists_cons_of_ne_nil hne
    exact ⟨c, w ++ more, rfl, hw c (List.mem_cons_self ..)⟩
  cases h with
  | number hn =>
    obtain ⟨sign, whole, fraction, rfl, hsign, hwhole, -⟩ := hn
    rcases hsign with rfl | rfl
    · obtain ⟨c, whole, rfl, hdigit⟩ := hwhole.exists_cons
      exact ⟨c, _, rfl, .inl hdigit⟩
    · exact ⟨'-', _, rfl, .inr rfl⟩
  | name hw _ => exact word _ hw.1 hw.2.1
  | group _ => exact ⟨'(', _, rfl, rfl⟩
  | constant hw => exact word _ hw.1 hw.2.1
  | @call f _ _ _ _ => exact word _ f.symbol_ne_nil f.symbol_nameChars
  | list _ => exact ⟨'[', _, rfl, rfl⟩

/-- The characters a primary can begin with. -/
def Begins (c : Char) : Prop :=
  isDigit c = true ∨ c = '-' ∨ isNameChar c = true ∨ c = '(' ∨ c = '['

theorem Spells.begins {p : Phrase .primary} {text rest : List Char} (h : p.Spells text rest) :
    ∃ c more, text = c :: more ∧ Begins c := by
  obtain ⟨c, more, rfl, hc⟩ := h.shape_begins
  refine ⟨c, more, rfl, ?_⟩
  cases hs : p.shape <;> rw [hs] at hc <;> simp only [Shape.Begins] at hc <;> simp [Begins, hc]
  exact hc.imp_right .inl

end Phrase

end Formulary.Reading
