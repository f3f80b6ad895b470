/-
What is relied on of a codec whose texts are JSON objects. Keys and labels are names in camel case, and a
record is written as an object of its fields. Reading is told member by member: an object of no members
gives every field its default, a member that is no field does not count, and a member that is a field
gives that field what its value stands for.
-/
import Formulary.Codec
import Formulary.Proofs.Json.Spelling
import Mathlib.Data.List.Forall2

namespace Formulary

open Json

/-- A word of a name: one or more small letters. -/
def IsWord (word : List Char) : Prop :=
  word ≠ [] ∧ ∀ c ∈ word, c.isLower = true

-- the letters of the word are gone through, and not all characters there are
instance (word : List Char) : Decidable (IsWord word) :=
  have : Decidable (∀ c ∈ word, c.isLower = true) := List.decidableBAll _ word
  inferInstanceAs (Decidable (_ ∧ _))

/-- What a field of some shape may hold. -/
inductive Shape.Holds : Shape → Datum → Prop
  | number {bound n : Nat} : n < bound → Holds (.number bound) (.number n)
  | choice {names : List String} {name : String} : name ∈ names → Holds (.choice names) (.choice name)

namespace Codec

variable (codec : Codec)

/-- A value that stands for what a field holds: digits for a number, and a string for a choice. -/
inductive Stands : Shape → Datum → Json → Prop
  | number {bound : Nat} {digits : List Char} : (∀ c ∈ digits, c.isDigit = true) →
      Nat.ofDigitChars 10 digits 0 < bound →
      Stands (.number bound) (.number (Nat.ofDigitChars 10 digits 0)) (.number digits)
  | choice {names : List String} {name : String} {pieces : List Piece} : name ∈ names →
      Denotes pieces (codec.label name).toList → Stands (.choice names) (.choice name) (.string pieces)

/-- A member that is a field and stands for what it holds. -/
structure Fills (field : Field) (datum : Datum) (member : List Piece × Json) : Prop where
  key : Denotes member.1 (codec.key field.name).toList
  value : codec.Stands field.shape datum member.2

/-- The fields of a record have keys of their own, the choices of a field have labels of their own, and
none of them needs an escape. -/
structure Distinct (record : List Field) : Prop where
  keys : (record.map fun field => codec.key field.name).Nodup
  labels : ∀ field ∈ record, ∀ names, field.shape = .choice names → (names.map codec.label).Nodup
  plainKey : ∀ field ∈ record, Plain (codec.key field.name).toList
  plainLabel : ∀ field ∈ record, ∀ names, field.shape = .choice names → ∀ name ∈ names,
    Plain (codec.label name).toList

/-- The rules that a codec of JSON objects follows. -/
structure Laws : Prop where
  /-- The words of a field's name are joined by underscores. -/
  key_words : ∀ words : List (List Char), words ≠ [] → (∀ word ∈ words, IsWord word) →
    codec.key (String.ofList (['_'].intercalate words)) = camelCase words
  /-- The words of a choice's name begin with a capital each. -/
  label_words : ∀ words : List (List Char), words ≠ [] → (∀ word ∈ words, IsWord word) →
    codec.label (String.ofList (words.map capitalize).flatten) = camelCase words
  /-- A record is written as an object of its fields, in their order. -/
  write_object : ∀ {record : List Field} {data : List Datum}, codec.Distinct record →
    List.Forall₂ (fun field datum => field.shape.Holds datum) record data →
    ∃ members, Spells (.element (.object members)) (codec.write record data).toList ∧
      List.Forall₂ (fun slot member => codec.Fills slot.1 slot.2 member) (record.zip data) members
  /-- Fields that are missing hold their defaults. -/
  read_empty : ∀ {record : List Field} {text : String}, Spells (.element (.object [])) text.toList →
    codec.read? record text = some (record.map Field.standard)
  /-- A member whose key is that of no field does not count. -/
  read_other : ∀ {record : List Field} {key : List Piece} {name : List Char} {value : Json}
    {members : List (List Piece × Json)} {text rest : String} {data : List Datum},
    Spells (.element (.object ((key, value) :: members))) text.toList →
    Spells (.element (.object members)) rest.toList →
    Denotes key name → (∀ field ∈ record, name ≠ (codec.key field.name).toList) →
    codec.read? record rest = some data → codec.read? record text = some data
  /-- A member that is a field gives it what its value stands for, if no other member is that field. -/
  read_field : ∀ {record : List Field} {i : Nat} {field : Field} {datum : Datum}
    {member : List Piece × Json} {members : List (List Piece × Json)} {text rest : String}
    {data : List Datum}, codec.Distinct record → record[i]? = some field →
    Spells (.element (.object (member :: members))) text.toList →
    Spells (.element (.object members)) rest.toList →
    codec.Fills field datum member →
    (∀ other ∈ members, ∃ name, Denotes other.1 name ∧ name ≠ (codec.key field.name).toList) →
    codec.read? record rest = some data → codec.read? record text = some (data.set i datum)

end Codec

end Formulary
