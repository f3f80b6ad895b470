/-
Records and codecs. A record is described by its fields, with the names that they are declared by, and a
codec is whatever writes and reads the records that are described to it. How it names a field in a text,
and the text itself, are its own matter.
-/
namespace Formulary

/-- What a field may hold: a natural number below a bound, or one of some choices by its name. -/
inductive Shape where
  | number (bound : Nat)
  | choice (names : List String)
  deriving DecidableEq, Repr

/-- What a field holds. -/
inductive Datum where
  | number (n : Nat)
  | choice (name : String)
  deriving DecidableEq, Repr

/-- A field of a record, with what it holds where nothing is given. -/
structure Field where
  name : String
  shape : Shape
  standard : Datum
  deriving DecidableEq, Repr

/-- Writes and reads records. The data are those of the fields in their order. -/
structure Codec where
  /-- The name of a field in a text. -/
  key : String → String
  /-- The name of a choice in a text. -/
  label : String → String
  write : List Field → List Datum → String
  read? : List Field → String → Option (List Datum)

/-! ## Names -/

/-- A word with its first letter made a capital. -/
def capitalize : List Char → List Char
  | [] => []
  | c :: word => c.toUpper :: word

/-- A word with its first letter made small. -/
def decapitalize : List Char → List Char
  | [] => []
  | c :: word => c.toLower :: word

/-- Words in camel case: each but the first begins with a capital, and nothing stands between them. -/
def camelCase (words : List (List Char)) : String :=
  String.ofList (decapitalize (words.map capitalize).flatten)

end Formulary
