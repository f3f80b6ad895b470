/-
One codec of JSON texts. A record is written as an object of its fields. It is read from an object in which
a field may be missing, each field stands at most once and other members do not count, or from an array
of the fields in order, of which the last ones may be missing.
-/
import Formulary.Codec
import Formulary.Json.Value

namespace Formulary.Json

/-- A name without its underscores, with a capital behind each of them. -/
def joinWords (capital : Bool) : List Char → List Char
  | [] => []
  | c :: rest =>
    if c = '_' then joinWords true rest
    else (if capital then c.toUpper else c) :: joinWords false rest

/-- The key of a field: its name in camel case. -/
def key (name : String) : String :=
  String.ofList (decapitalize (joinWords true name.toList))

/-- The label of a choice, whose words begin with a capital each. -/
def label (name : String) : String :=
  String.ofList (decapitalize name.toList)

/-! ## Writing -/

/-- The text of what a field holds. -/
def datumText : Datum → String
  | .number n => toString n
  | .choice name => "\"" ++ label name ++ "\""

/-- The text of a field. -/
def memberText (slot : Field × Datum) : String :=
  "\"" ++ key slot.1.name ++ "\":" ++ datumText slot.2

/-- The texts of fields, with commas between them. -/
def membersText : List (Field × Datum) → String
  | [] => ""
  | [slot] => memberText slot
  | slot :: slots => memberText slot ++ "," ++ membersText slots

/-! ## Reading -/

/-- The number that digits write. -/
def ofDigits (digits : List Char) : Nat :=
  digits.foldl (fun n d => n * 10 + (d.toNat - '0'.toNat)) 0

/-- The choice with a given label. -/
def choice? (names : List String) (text : List Char) : Option Datum :=
  (names.find? fun name => (label name).toList = text).map .choice

/-- What a value gives a field. A number has digits only and is below the bound; a choice is a label, or
an object whose only key is the label and has no value. -/
def datum? (shape : Shape) (value : Json) : Option Datum :=
  match shape, value with
  | .number bound, .number written =>
    if written.all Char.isDigit ∧ ofDigits written < bound then some (.number (ofDigits written))
    else none
  | .choice names, .string pieces => (decode pieces).bind (choice? names)
  | .choice names, .object [(pieces, .null)] => (decode pieces).bind (choice? names)
  | _, _ => none

/-- Takes the members of an object in turn, with what the fields have been given so far. A field that
was given something before is refused, and so is a key that is no text. -/
def ofMembers? (record : List Field) :
    List (Option Datum) → List (List Piece × Json) → Option (List (Option Datum))
  | given, [] => some given
  | given, (name, value) :: members =>
    match decode name with
    | none => none
    | some name =>
      match record.findIdx? fun field => (key field.name).toList = name with
      | none => ofMembers? record given members
      | some i =>
        match record[i]?.bind fun field => datum? field.shape value, given[i]? with
        | some datum, some none => ofMembers? record (given.set i (some datum)) members
        | _, _ => none

/-- Takes the items of an array: each is what the next field holds. -/
def ofItems? : List Field → List Json → Option (List Datum)
  | record, [] => some (record.map Field.standard)
  | [], _ :: _ => none
  | field :: record, item :: items =>
    match datum? field.shape item with
    | none => none
    | some datum => (ofItems? record items).map (datum :: ·)

/-- What the fields hold that have been given some data. -/
def orStandard (record : List Field) (given : List (Option Datum)) : List Datum :=
  List.zipWith (fun field datum? => datum?.getD field.standard) record given

/-- The data of a JSON value. -/
def data? (record : List Field) : Json → Option (List Datum)
  | .object members => (ofMembers? record (record.map fun _ => none) members).map (orStandard record)
  | .array items => ofItems? record items
  | _ => none

/-- Writes objects and reads objects and arrays. -/
def codec : Codec where
  key := key
  label := label
  write record data := "\x7b" ++ membersText (record.zip data) ++ "\x7d"
  read? record text := (ofText? text.toList).bind (data? record)

end Formulary.Json
