/-
JSON texts as they are written. The grammar is the usual one: a value between white space is an element,
arrays have elements and objects have members, with commas between them. Strings are spelled piece by
piece, and only where the escapes of a string make up a text does it stand for one.
-/
import Formulary.Json.Value

namespace Formulary.Json

/-! ## White space and numbers -/

/-- Any number of blanks, tabs and line ends. -/
def Space (text : List Char) : Prop :=
  ∀ c ∈ text, c ∈ [' ', '\t', '\n', '\r']

instance (text : List Char) : Decidable (Space text) :=
  List.decidableBAll _ text

/-- One or more digits. -/
def Digits (text : List Char) : Prop :=
  text ≠ [] ∧ ∀ c ∈ text, c.isDigit = true

/-- Zero, or digits of which the first is not zero. -/
def Whole (text : List Char) : Prop :=
  text = ['0'] ∨ Digits text ∧ text.head? ≠ some '0'

/-- Nothing, or a point and digits. -/
def Fraction (text : List Char) : Prop :=
  text = [] ∨ ∃ digits, text = '.' :: digits ∧ Digits digits

/-- Nothing, or a letter and digits, with an optional sign between them. -/
def Exponent (text : List Char) : Prop :=
  text = [] ∨ ∃ e sign digits, text = e :: (sign ++ digits) ∧ e ∈ ['e', 'E'] ∧ sign ∈ [[], ['+'], ['-']] ∧
    Digits digits

/-- A number as it is written. -/
def IsNumber (text : List Char) : Prop :=
  ∃ sign whole fraction exponent, text = sign ++ (whole ++ (fraction ++ exponent)) ∧ sign ∈ [[], ['-']] ∧
    Whole whole ∧ Fraction fraction ∧ Exponent exponent

theorem Whole.isNumber {text : List Char} (h : Whole text) : IsNumber text :=
  ⟨[], text, [], [], by simp, by simp, h, .inl rfl, .inl rfl⟩

/-- The decimal digits of a natural number are a whole number. -/
theorem whole_toDigits (n : Nat) : Whole (Nat.toDigits 10 n) := by
  have digits : ∀ n, Digits (Nat.toDigits 10 n) := fun n =>
    ⟨Nat.toDigits_ne_nil, fun c hc => Nat.isDigit_of_mem_toDigits (by decide) (by decide) hc⟩
  have front : ∀ n, 0 < n → (Nat.toDigits 10 n).head? ≠ some '0' := by
    intro n
    induction n using Nat.strongRecOn with
    | ind n ih =>
      intro hn
      rw [Nat.toDigits_eq_if (by decide)]
      split
      · rename_i hlt
        have : ∀ d < 10, 0 < d → [Nat.digitChar d].head? ≠ some '0' := by decide
        exact this n hlt hn
      · obtain ⟨d, rest, hd⟩ := List.exists_cons_of_ne_nil (Nat.toDigits_ne_nil (n := n / 10) (b := 10))
        have := ih (n / 10) (by omega) (by omega)
        rw [hd] at this ⊢
        exact this
  rcases Nat.eq_zero_or_pos n with rfl | hn
  · exact .inl rfl
  · exact .inr ⟨digits n, front n hn⟩

/-! ## Strings -/

/-- The characters behind a backslash, each with the one that both stand for. -/
def shortEscapes : List (Char × Char) :=
  [('"', '"'), ('\\', '\\'), ('/', '/'), ('b', '\x08'), ('f', '\x0c'), ('n', '\n'), ('r', '\r'), ('t', '\t')]

/-- A hexadecimal digit with its value; capital letters do as well. -/
def IsHex (c : Char) (value : Nat) : Prop :=
  (c, value) ∈ "0123456789abcdef".toList.zipIdx ∨ (c, value) ∈ "0123456789ABCDEF".toList.zipIdx

instance (c : Char) (value : Nat) : Decidable (IsHex c value) :=
  inferInstanceAs (Decidable (_ ∨ _))

/-- How a piece of a string is written. -/
inductive Piece.Spells : Piece → List Char → Prop
  | char {c : Char} : c ∉ ['"', '\\'] → 0x20 ≤ c.toNat → Spells (.char c) [c]
  | escape {c d : Char} : (c, d) ∈ shortEscapes → Spells (.char d) ['\\', c]
  | codeUnit {a b c d : Char} {i j k l : Nat} : IsHex a i → IsHex b j → IsHex c k → IsHex d l →
      Spells (.codeUnit (0x1000 * i + 0x100 * j + 0x10 * k + l)) ['\\', 'u', a, b, c, d]

/-- How pieces are written, one behind the other. -/
inductive SpellsPieces : List Piece → List Char → Prop
  | nil : SpellsPieces [] []
  | cons {piece : Piece} {pieces : List Piece} {text rest : List Char} :
      piece.Spells text → SpellsPieces pieces rest → SpellsPieces (piece :: pieces) (text ++ rest)

/-- The text that pieces stand for: a character stands for itself, and escapes stand for the characters
that have these sixteen-bit units. -/
inductive Denotes : List Piece → List Char → Prop
  | nil : Denotes [] []
  | char {c : Char} {pieces : List Piece} {text : List Char} :
      Denotes pieces text → Denotes (.char c :: pieces) (c :: text)
  | unit {c : Char} {pieces : List Piece} {text : List Char} : c.toNat < 0x10000 →
      Denotes pieces text → Denotes (.codeUnit c.toNat :: pieces) (c :: text)
  | pair {c : Char} {pieces : List Piece} {text : List Char} : 0x10000 ≤ c.toNat →
      Denotes pieces text →
        Denotes (.codeUnit (0xd800 + (c.toNat - 0x10000) / 0x400) ::
          .codeUnit (0xdc00 + (c.toNat - 0x10000) % 0x400) :: pieces) (c :: text)

/-- Characters that need no escape. -/
def Plain (word : List Char) : Prop :=
  ∀ c ∈ word, c ∉ ['"', '\\'] ∧ 0x20 ≤ c.toNat

instance (word : List Char) : Decidable (Plain word) :=
  List.decidableBAll _ word

/-- A word that needs no escape is written as it is. -/
theorem spellsPieces_word {word : List Char} (h : Plain word) :
    SpellsPieces (word.map .char) word := by
  induction word with
  | nil => exact .nil
  | cons c word ih =>
    obtain ⟨hc, hrest⟩ := List.forall_mem_cons.1 h
    exact .cons (.char hc.1 hc.2) (ih hrest)

theorem denotes_word (word : List Char) : Denotes (word.map .char) word := by
  induction word with
  | nil => exact .nil
  | cons c word ih => exact .char ih

/-- The text that pieces stand for is what they are decoded to. -/
theorem Denotes.decode_eq {pieces : List Piece} {text : List Char} (h : Denotes pieces text) :
    decode pieces = some text := by
  induction h with
  | nil => rfl
  | char _ ih => rw [decode, ih, Option.map_some]
  | @unit c _ _ hc _ ih =>
    have valid : c.toNat < 0xd800 ∨ 0xdfff < c.toNat := by
      rcases c.valid with h | h
      · exact .inl h
      · exact .inr h.1
    rw [decode.eq_def]
    simp only [if_pos valid, ih, Option.map_some, Char.ofNat_toNat]
  | @pair c _ _ hc _ ih =>
    have bound : c.toNat < 0x110000 := by
      rcases c.valid with h | h
      · exact Nat.lt_trans h (by decide)
      · exact h.2
    rw [decode, if_neg (by omega), if_pos (by omega), ih, Option.map_some]
    have whole : 0x10000 + (0xd800 + (c.toNat - 0x10000) / 0x400 - 0xd800) * 0x400 +
        (0xdc00 + (c.toNat - 0x10000) % 0x400 - 0xdc00) = c.toNat := by
      omega
    rw [whole, Char.ofNat_toNat]

/-! ## Values -/

/-- A part of a JSON text. An element has white space around its value. -/
inductive Part where
  | value (v : Json)
  | element (v : Json)
  | elements (vs : List Json)
  | member (m : List Piece × Json)
  | members (ms : List (List Piece × Json))

/-- How a part is written. The text of a value as a whole is an element. -/
inductive Spells : Part → List Char → Prop
  | null : Spells (.value .null) ['n', 'u', 'l', 'l']
  | true : Spells (.value (.bool true)) ['t', 'r', 'u', 'e']
  | false : Spells (.value (.bool false)) ['f', 'a', 'l', 's', 'e']
  | number {text : List Char} : IsNumber text → Spells (.value (.number text)) text
  | string {pieces : List Piece} {text : List Char} : SpellsPieces pieces text →
      Spells (.value (.string pieces)) ('"' :: (text ++ ['"']))
  | emptyArray {space : List Char} : Space space → Spells (.value (.array [])) ('[' :: (space ++ [']']))
  | array {vs : List Json} {text : List Char} : Spells (.elements vs) text →
      Spells (.value (.array vs)) ('[' :: (text ++ [']']))
  | emptyObject {space : List Char} : Space space →
      Spells (.value (.object [])) ('\x7b' :: (space ++ ['\x7d']))
  | object {ms : List (List Piece × Json)} {text : List Char} : Spells (.members ms) text →
      Spells (.value (.object ms)) ('\x7b' :: (text ++ ['\x7d']))
  | element {v : Json} {before text after : List Char} : Space before → Spells (.value v) text → Space after →
      Spells (.element v) (before ++ (text ++ after))
  | lastElement {v : Json} {text : List Char} : Spells (.element v) text → Spells (.elements [v]) text
  | moreElements {v : Json} {vs : List Json} {text rest : List Char} : Spells (.element v) text →
      Spells (.elements vs) rest → Spells (.elements (v :: vs)) (text ++ ',' :: rest)
  | member {key : List Piece} {v : Json} {before name after text : List Char} : Space before →
      SpellsPieces key name → Space after → Spells (.element v) text →
      Spells (.member (key, v)) (before ++ '"' :: (name ++ '"' :: (after ++ ':' :: text)))
  | lastMember {m : List Piece × Json} {text : List Char} : Spells (.member m) text → Spells (.members [m]) text
  | moreMembers {m : List Piece × Json} {ms : List (List Piece × Json)} {text rest : List Char} :
      Spells (.member m) text → Spells (.members ms) rest → Spells (.members (m :: ms)) (text ++ ',' :: rest)

theorem space_nil : Space [] :=
  List.forall_mem_nil _

/-- There need not be white space around a value, -/
theorem Spells.bare {v : Json} {text : List Char} (h : Spells (.value v) text) : Spells (.element v) text := by
  simpa using Spells.element space_nil h space_nil

/-- nor around a key. -/
theorem Spells.bareMember {key : List Piece} {v : Json} {name text : List Char} (hk : SpellsPieces key name)
    (h : Spells (.value v) text) : Spells (.member (key, v)) ('"' :: (name ++ '"' :: ':' :: text)) :=
  .member space_nil hk space_nil h.bare

/-- An object without its first member is written by some text as well. -/
theorem Spells.exists_tail {m : List Piece × Json} {ms : List (List Piece × Json)} {text : List Char}
    (h : Spells (.element (.object (m :: ms))) text) :
    ∃ rest : String, Spells (.element (.object ms)) rest.toList := by
  cases h with
  | element _ written _ =>
    cases written with
    | object hms =>
      cases hms with
      | lastMember _ => exact ⟨"\x7b\x7d", .bare (.emptyObject space_nil)⟩
      | @moreMembers _ _ _ rest _ hrest =>
        refine ⟨String.ofList ('\x7b' :: (rest ++ ['\x7d'])), ?_⟩
        rw [String.toList_ofList]
        exact .bare (.object hrest)

end Formulary.Json
