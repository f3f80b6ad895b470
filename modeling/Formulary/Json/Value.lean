/-
JSON values. A text is read lexeme by lexeme with the unfinished containers on a stack, so that
values may nest as deep as they like.
-/
import Formulary.Json.Lexeme

namespace Formulary

/-- A JSON value, with the members of an object in the order in which they are written. -/
inductive Json where
  | null
  | bool (b : Bool)
  | number (written : List Char)
  | string (pieces : List Json.Piece)
  | array (items : List Json)
  | object (members : List (List Json.Piece × Json))
  deriving Repr

namespace Json

/-! ## Strings -/

/-- The text of a string. Two escapes that are the halves of a surrogate pair make one character,
and a half of a pair by itself makes none. -/
def decode : List Piece → Option (List Char)
  | [] => some []
  | .char c :: rest => (decode rest).map (c :: ·)
  | .codeUnit n :: rest =>
    if n < 0xd800 ∨ 0xdfff < n then
      (decode rest).map (Char.ofNat n :: ·)
    else
      match rest with
      | .codeUnit m :: rest =>
        if n < 0xdc00 ∧ 0xdc00 ≤ m ∧ m ≤ 0xdfff then
          (decode rest).map
            (Char.ofNat (0x10000 + (n - 0xd800) * 0x400 + (m - 0xdc00)) :: ·)
        else none
      | _ => none

/-! ## Values from lexemes -/

/-- A container that is not complete, with the latest part first. -/
inductive Unfinished where
  | array (items : List Json)
  | object (members : List (List Piece × Json))
  /-- An object whose latest member has a key and no value yet. -/
  | member (members : List (List Piece × Json)) (key : List Piece)

/-- What may come next. -/
inductive Awaiting where
  | value
  | itemOrEnd
  | key
  | keyOrEnd
  | colon
  | commaOrEnd
  /-- Nothing: the value is complete. -/
  | nothing (value : Json)

/-- The reading of a value: the unfinished containers, the innermost first, and what may come
next. -/
structure Progress where
  containers : List Unfinished := []
  awaiting : Awaiting := .value

namespace Progress

/-- Puts a complete value in its place. -/
def put (containers : List Unfinished) (value : Json) : Progress :=
  match containers with
  | .array items :: outer => ⟨.array (value :: items) :: outer, .commaOrEnd⟩
  | .member members key :: outer => ⟨.object ((key, value) :: members) :: outer, .commaOrEnd⟩
  | _ => ⟨[], .nothing value⟩

/-- Begins a value. -/
def begin? (containers : List Unfinished) (lexeme : Lexeme) : Option Progress :=
  match lexeme with
  | .null => some (put containers .null)
  | .true => some (put containers (.bool true))
  | .false => some (put containers (.bool false))
  | .number written => some (put containers (.number written))
  | .string pieces => some (put containers (.string pieces))
  | .openBracket => some ⟨.array [] :: containers, .itemOrEnd⟩
  | .openBrace => some ⟨.object [] :: containers, .keyOrEnd⟩
  | _ => none

/-- Completes the innermost container. -/
def close? (containers : List Unfinished) (lexeme : Lexeme) : Option Progress :=
  match containers, lexeme with
  | .array items :: outer, .closeBracket => some (put outer (.array items.reverse))
  | .object members :: outer, .closeBrace => some (put outer (.object members.reverse))
  | _, _ => none

/-- Gives the innermost object a key. -/
def key? (containers : List Unfinished) (lexeme : Lexeme) : Option Progress :=
  match containers, lexeme with
  | .object members :: outer, .string key => some ⟨.member members key :: outer, .colon⟩
  | _, _ => none

/-- What is awaited after a comma. -/
def afterComma? (containers : List Unfinished) : Option Progress :=
  match containers with
  | .array _ :: _ => some ⟨containers, .value⟩
  | .object _ :: _ => some ⟨containers, .key⟩
  | _ => none

/-- Takes one lexeme. -/
def step? (p : Progress) (lexeme : Lexeme) : Option Progress :=
  match p.awaiting with
  | .value => begin? p.containers lexeme
  | .itemOrEnd => close? p.containers lexeme <|> begin? p.containers lexeme
  | .key => key? p.containers lexeme
  | .keyOrEnd => close? p.containers lexeme <|> key? p.containers lexeme
  | .colon => if lexeme = .colon then some ⟨p.containers, .value⟩ else none
  | .commaOrEnd =>
    if lexeme = .comma then afterComma? p.containers else close? p.containers lexeme
  | .nothing _ => none

/-- Takes lexemes in turn. -/
def steps? : Progress → List Lexeme → Option Progress
  | p, [] => some p
  | p, lexeme :: rest =>
    match p.step? lexeme with
    | none => none
    | some p => p.steps? rest

/-- The value read, if it is complete. -/
def value? (p : Progress) : Option Json :=
  match p.awaiting with
  | .nothing value => some value
  | _ => none

end Progress

/-- The value that a text writes. -/
def ofText? (text : List Char) : Option Json :=
  (lex text).bind fun lexemes => (Progress.steps? {} lexemes).bind Progress.value?

end Json

end Formulary
