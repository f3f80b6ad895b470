/-
The options of a session and their texts. The options are described as a record of two fields, each with
its default, and any codec writes and reads them.
-/
import Formulary.Codec
import Formulary.Symbols.Trie

namespace Formulary

open Symbols

/-- How symbols are matched when one begins another, and how many brackets may be open at once. -/
structure Options where
  matchPolicy : MatchPolicy := .longest
  maxNestingDepth : Nat := 256
  deriving DecidableEq, Repr

namespace Options

/-! ## As a record -/

/-- The name that a match policy is declared by. -/
def policyName : MatchPolicy → String
  | .firstAccepting => "FirstAccepting"
  | .longest => "Longest"

/-- The match policy of a name. -/
def policyOfName? (name : String) : Option MatchPolicy :=
  [MatchPolicy.firstAccepting, .longest].find? fun policy => policyName policy = name

/-- Every depth is below this bound, `2 ^ 64`. -/
def depthBound : Nat := 0x10000000000000000

/-- What the fields hold. -/
def data (o : Options) : List Datum :=
  [.choice (policyName o.matchPolicy), .number o.maxNestingDepth]

/-- The options whose fields hold some data. -/
def ofData? : List Datum → Option Options
  | [.choice name, .number depth] =>
    (policyOfName? name).map fun policy => { matchPolicy := policy, maxNestingDepth := depth }
  | _ => none

/-- The match policy as a field. -/
def policyField : Field where
  name := "match_policy"
  shape := .choice [policyName .firstAccepting, policyName .longest]
  standard := .choice (policyName ({} : Options).matchPolicy)

/-- The nesting depth as a field. -/
def depthField : Field where
  name := "max_nesting_depth"
  shape := .number depthBound
  standard := .number ({} : Options).maxNestingDepth

/-- The fields in their order. -/
def record : List Field :=
  [policyField, depthField]

/-! ## Texts -/

/-- The options as a text. -/
def text (codec : Codec) (o : Options) : String :=
  codec.write record o.data

/-- The options of a text. -/
def ofText? (codec : Codec) (text : String) : Option Options :=
  (codec.read? record text).bind ofData?

end Options

end Formulary
