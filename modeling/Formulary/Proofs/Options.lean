/-
Options and their texts, whatever codec of JSON objects writes and reads them. What is written is read
back, and an object may also be written by hand: its members in any order, other members between them, and
defaults for those that are missing.
-/
import Formulary.Options
import Formulary.Proofs.Json.Codec

namespace Formulary.Options

open Symbols Json

/-! ## Members of an object -/

/-- The name of a match policy in a text. -/
def policyLabel : MatchPolicy → String
  | .firstAccepting => "firstAccepting"
  | .longest => "longest"

/-- The policy and the depth that members give, each of which stands at most once among others. The
policy is a string that stands for its name, the depth a number of digits below the bound. -/
inductive Gives : List (List Piece × Json) → Option MatchPolicy → Option Nat → Prop
  | nil : Gives [] none none
  | policy {key name : List Piece} {policy : MatchPolicy} {members : List (List Piece × Json)}
      {depth? : Option Nat} : Denotes key "matchPolicy".toList → Denotes name (policyLabel policy).toList →
      Gives members none depth? → Gives ((key, .string name) :: members) (some policy) depth?
  | depth {key : List Piece} {digits : List Char} {members : List (List Piece × Json)}
      {policy? : Option MatchPolicy} : Denotes key "maxNestingDepth".toList →
      (∀ c ∈ digits, c.isDigit = true) → Nat.ofDigitChars 10 digits 0 < 2 ^ 64 → Gives members policy? none →
      Gives ((key, .number digits) :: members) policy? (some (Nat.ofDigitChars 10 digits 0))
  | other {key : List Piece} {name : List Char} {value : Json} {members : List (List Piece × Json)}
      {policy? : Option MatchPolicy} {depth? : Option Nat} : Denotes key name → name ≠ "matchPolicy".toList →
      name ≠ "maxNestingDepth".toList → Gives members policy? depth? → Gives ((key, value) :: members) policy? depth?

/-- Where no policy is given, no key is that of the policy, -/
theorem Gives.no_policy {members : List (List Piece × Json)} {depth? : Option Nat} (h : Gives members none depth?) :
    ∀ member ∈ members, ∃ name, Denotes member.1 name ∧ name ≠ "matchPolicy".toList := by
  generalize hp : (none : Option MatchPolicy) = policy? at h
  induction h with
  | nil => exact List.forall_mem_nil _
  | policy => cases hp
  | depth hk _ _ _ ih => exact List.forall_mem_cons.2 ⟨⟨_, hk, by decide⟩, ih hp⟩
  | other hk hpolicy _ _ ih => exact List.forall_mem_cons.2 ⟨⟨_, hk, hpolicy⟩, ih hp⟩

/-- and where no depth is given, none is that of the depth. -/
theorem Gives.no_depth {members : List (List Piece × Json)} {policy? : Option MatchPolicy}
    (h : Gives members policy? none) :
    ∀ member ∈ members, ∃ name, Denotes member.1 name ∧ name ≠ "maxNestingDepth".toList := by
  generalize hd : (none : Option Nat) = depth? at h
  induction h with
  | nil => exact List.forall_mem_nil _
  | policy hk _ _ ih => exact List.forall_mem_cons.2 ⟨⟨_, hk, by decide⟩, ih hd⟩
  | depth => cases hd
  | other hk _ hdepth _ ih => exact List.forall_mem_cons.2 ⟨⟨_, hk, hdepth⟩, ih hd⟩

/-! ## Any codec of JSON objects -/

theorem ofData?_data (o : Options) : ofData? o.data = some o := by
  obtain ⟨policy, depth⟩ := o
  cases policy <;> rfl

section Laws

variable {codec : Codec} (laws : codec.Laws)
include laws

theorem key_matchPolicy : codec.key "match_policy" = "matchPolicy" :=
  laws.key_words ["match".toList, "policy".toList] (by decide) (by decide)

theorem key_maxNestingDepth : codec.key "max_nesting_depth" = "maxNestingDepth" :=
  laws.key_words ["max".toList, "nesting".toList, "depth".toList] (by decide) (by decide)

theorem label_policyName (policy : MatchPolicy) : codec.label (policyName policy) = policyLabel policy := by
  cases policy with
  | firstAccepting =>
    exact laws.label_words ["first".toList, "accepting".toList] (by decide) (by decide)
  | longest => exact laws.label_words ["longest".toList] (by decide) (by decide)

theorem distinct_record : codec.Distinct record where
  keys := by
    simp [record, policyField, depthField, key_matchPolicy laws, key_maxNestingDepth laws]
  labels := by
    simp [record, policyField, depthField, label_policyName laws, policyLabel]
  plainKey := by
    simp only [record, policyField, depthField, List.forall_mem_cons, key_matchPolicy laws, key_maxNestingDepth laws]
    exact ⟨by decide, by decide, List.forall_mem_nil _⟩
  plainLabel := by
    have plain : ∀ policy, Plain (policyLabel policy).toList := fun policy => by cases policy <;> decide
    simp [record, policyField, depthField, label_policyName laws, plain]

/-- The options that members give. -/
theorem read?_of_gives {text : String} {members : List (List Piece × Json)} {policy? : Option MatchPolicy}
    {depth? : Option Nat} (hs : Spells (.element (.object members)) text.toList) (h : Gives members policy? depth?) :
    codec.read? record text =
      some (data { matchPolicy := policy?.getD .longest, maxNestingDepth := depth?.getD 256 }) := by
  have policyKey := key_matchPolicy laws
  have depthKey := key_maxNestingDepth laws
  induction h generalizing text with
  | nil => exact laws.read_empty hs
  | @policy key name policy members depth? hk hn hmembers ih =>
    obtain ⟨rest, hrest⟩ := hs.exists_tail
    have fills : codec.Fills policyField (.choice (policyName policy)) (key, .string name) :=
      ⟨by rwa [policyField, policyKey], .choice (by cases policy <;> decide) (by rwa [label_policyName laws])⟩
    exact laws.read_field (i := 0) (distinct_record laws) rfl hs hrest fills
      (by simpa only [policyField, policyKey] using hmembers.no_policy) (ih hrest)
  | @depth key digits members policy? hk hdigits hlt hmembers ih =>
    obtain ⟨rest, hrest⟩ := hs.exists_tail
    have fills : codec.Fills depthField (.number (Nat.ofDigitChars 10 digits 0)) (key, .number digits) :=
      ⟨by rwa [depthField, depthKey], .number hdigits hlt⟩
    exact laws.read_field (i := 1) (distinct_record laws) rfl hs hrest fills
      (by simpa only [depthField, depthKey] using hmembers.no_depth) (ih hrest)
  | @other key name value members policy? depth? hk hpolicy hdepth _ ih =>
    obtain ⟨rest, hrest⟩ := hs.exists_tail
    refine laws.read_other hs hrest hk ?_ (ih hrest)
    simp only [record, policyField, depthField, List.forall_mem_cons, policyKey, depthKey]
    exact ⟨hpolicy, hdepth, List.forall_mem_nil _⟩

/-- A text of an object gives the options that its members give. -/
theorem ofText?_of_gives {text : String} {members : List (List Piece × Json)} {policy? : Option MatchPolicy}
    {depth? : Option Nat} (hs : Spells (.element (.object members)) text.toList) (h : Gives members policy? depth?) :
    ofText? codec text = some { matchPolicy := policy?.getD .longest, maxNestingDepth := depth?.getD 256 } := by
  rw [ofText?, read?_of_gives laws hs h, Option.bind_some, ofData?_data]

/-- A member that fills the field of the policy gives the policy, -/
theorem gives_of_policy {policy : MatchPolicy} {member : List Piece × Json} {members : List (List Piece × Json)}
    {depth? : Option Nat} (h : codec.Fills policyField (.choice (policyName policy)) member)
    (hmembers : Gives members none depth?) : Gives (member :: members) (some policy) depth? := by
  obtain ⟨key, value⟩ := member
  obtain ⟨hk, hv⟩ := h
  rw [policyField, key_matchPolicy laws] at hk
  cases hv with
  | choice _ hn =>
    rw [label_policyName laws] at hn
    exact .policy hk hn hmembers

/-- and one that fills the field of the depth gives the depth. -/
theorem gives_of_depth {depth : Nat} {member : List Piece × Json} {members : List (List Piece × Json)}
    {policy? : Option MatchPolicy} (h : codec.Fills depthField (.number depth) member)
    (hmembers : Gives members policy? none) : Gives (member :: members) policy? (some depth) := by
  obtain ⟨key, value⟩ := member
  obtain ⟨hk, hv⟩ := h
  rw [depthField, key_maxNestingDepth laws] at hk
  cases hv with
  | number hdigits hlt => exact .depth hk hdigits hlt hmembers

/-- The text of options is that of an object whose members give them. -/
theorem exists_gives_text {o : Options} (h : o.maxNestingDepth < 2 ^ 64) :
    ∃ members, Spells (.element (.object members)) (text codec o).toList ∧
      Gives members (some o.matchPolicy) (some o.maxNestingDepth) := by
  have policyHolds : policyField.shape.Holds (.choice (policyName o.matchPolicy)) :=
    .choice (by cases o.matchPolicy <;> decide)
  have depthHolds : depthField.shape.Holds (.number o.maxNestingDepth) := .number h
  obtain ⟨members, written, filled⟩ :=
    laws.write_object (distinct_record laws) (.cons policyHolds (.cons depthHolds .nil))
  obtain _ | ⟨policyFills, _ | ⟨depthFills, ⟨⟩⟩⟩ := filled
  exact ⟨_, written, gives_of_policy laws policyFills (gives_of_depth laws depthFills .nil)⟩

end Laws

/-- What is written is read back as it was. And every text of an object is read in which the policy and
the depth stand at most once, spelled in whatever way, among any other members in any order and with any
white space; a field that is missing has its default. -/
theorem json_lossless {codec : Codec} (laws : codec.Laws) :
    (∀ o : Options, o.maxNestingDepth < 2 ^ 64 → ofText? codec (text codec o) = some o) ∧
    ∀ (text : String) (members : List (List Piece × Json)) (policy? : Option MatchPolicy) (depth? : Option Nat),
      Spells (.element (.object members)) text.toList → Gives members policy? depth? →
      ofText? codec text = some { matchPolicy := policy?.getD .longest, maxNestingDepth := depth?.getD 256 } := by
  refine ⟨fun o h => ?_, fun _ _ _ _ => ofText?_of_gives laws⟩
  obtain ⟨members, written, gives⟩ := exists_gives_text laws h
  exact ofText?_of_gives laws written gives

/-- A text with an escape in a key and another member. -/
def handwritten : String :=
  "\x7b \"\\u006daxNestingDepth\":7,\"more\":[\x7b\x7d,\"\\ud800\"]\x7d"

theorem json_lossless_handwritten :
    Json.codec.Laws ∧
    ofText? Json.codec (text Json.codec { matchPolicy := .firstAccepting, maxNestingDepth := 2 ^ 64 - 1 }) =
      some { matchPolicy := .firstAccepting, maxNestingDepth := 2 ^ 64 - 1 } ∧
    ofText? Json.codec handwritten = some { matchPolicy := .longest, maxNestingDepth := 7 } := by
  have blank : Space [' '] := by decide
  obtain ⟨zero, six, eight, thirteen⟩ : IsHex '0' 0 ∧ IsHex '6' 6 ∧ IsHex '8' 8 ∧ IsHex 'd' 13 := by decide
  have key : SpellsPieces (.codeUnit 'm'.toNat :: "axNestingDepth".toList.map .char) _ :=
    .cons (.codeUnit zero zero six thirteen) (spellsPieces_word (by decide))
  have half : SpellsPieces [.codeUnit 0xd800] _ :=
    .cons (.codeUnit thirteen eight zero zero) .nil
  have depth : Spells (.member (.codeUnit 'm'.toNat :: "axNestingDepth".toList.map .char, .number ['7'])) _ :=
    .member blank key space_nil (.bare (.number (whole_toDigits 7).isNumber))
  have more : Spells (.member ("more".toList.map .char, .array [.object [], .string [.codeUnit 0xd800]])) _ :=
    .bareMember (spellsPieces_word (by decide))
      (.array (.moreElements (.bare (.emptyObject space_nil)) (.lastElement (.bare (.string half)))))
  have spelled := Spells.bare (.object (.moreMembers depth (.lastMember more)))
  refine ⟨codec_laws, (json_lossless codec_laws).1 _ (by decide),
    (json_lossless codec_laws).2 handwritten _ none (some 7) spelled ?_⟩
  exact .depth (.unit (c := 'm') (by decide) (denotes_word _)) (by simp) (by decide)
    (.other (denotes_word _) (by decide) (by decide) .nil)

end Formulary.Options
