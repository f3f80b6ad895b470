/-
The text that is read for an atom. A number is a numeral and has the value of that numeral, a variable
is a word that is no function's name, a list has no text and at least one item, and everything else
is its symbol. Whatever a phrase comes to is made of such atoms, since no character is gathered for an
atom that is not part of it.
-/
import Formulary.Proofs.Reading.Building

namespace Formulary

open Text Infix Reading

/-! ## Lexical atoms -/

/-- A word that can name a variable: letters and underscores, at least one, and no function's name. -/
def IsName (name : String) : Prop :=
  name ≠ "" ∧ (∀ c ∈ name.toList, isNameChar c = true) ∧ ∀ f : Builtin, f.symbol ≠ name

/-- An operand is what its text says. A list has no text, and some item. -/
def Operand.Lexical (text : String) : Operand → Prop
  | .number x => Numeral text.toList ∧ x = Number.ofNumeral text
  | .variable name _ => text = name ∧ IsName name
  | .list items => text = "" ∧ 0 < items.size

/-- An atom is what its text says. -/
def Infix.Atom.Lexical (a : Atom) : Prop :=
  match a.meaning with
  | .operand operand => operand.Lexical a.text
  | .operator op => a.text = op.symbol
  | .builtin f => a.text = f.symbol
  | .mark m => a.text = m.symbol

namespace Tree

/-- All atoms of a tree are what their texts say. -/
def Lexical (t : Tree) : Prop :=
  ∀ a ∈ t.atoms, a.Lexical

theorem mem_atomsAll {ts : List Tree} {a : Atom} : a ∈ atomsAll ts ↔ ∃ t ∈ ts, a ∈ t.atoms := by
  induction ts with
  | nil => simp [atomsAll]
  | cons t ts ih => simp [atomsAll, ih]

theorem lexical_leaf {text : String} {operand : Operand} (h : operand.Lexical text) : (leaf text operand).Lexical := by
  intro a ha
  rw [List.mem_singleton.1 ha]
  exact h

theorem lexical_call (f : Builtin) {ts : List Tree} (h : ∀ t ∈ ts, t.Lexical) :
    (call f.symbol f ts).Lexical := by
  intro a ha
  rcases List.mem_append.1 ha with ha | ha
  · obtain ⟨t, ht, hat⟩ := mem_atomsAll.1 ha
    exact h t ht a hat
  · rw [List.mem_singleton.1 ha]
    rfl

theorem lexical_binary (op : Operator) {l r : Tree} (hl : l.Lexical) (hr : r.Lexical) :
    (binary op.symbol op l r).Lexical := by
  intro a ha
  simp only [atoms, List.mem_append, List.mem_singleton] at ha
  rcases ha with ha | ha | rfl
  · exact hl a ha
  · exact hr a ha
  · rfl

end Tree

theorem Groups.lexical {ops : List Operator} {ts : List Tree} {t : Tree} (h : Groups ops ts t)
    (hts : ∀ t ∈ ts, t.Lexical) : t.Lexical := by
  induction h with
  | single t => exact hts t (List.mem_singleton_self t)
  | binary _ _ _ _ ihl ihr =>
    exact Tree.lexical_binary _ (ihl fun t ht => hts t (List.mem_append_left _ ht))
      (ihr fun t ht => hts t (List.mem_append_right _ ht))

namespace Reading

/-! ## What phrases are made of -/

/-- The trees a phrase comes to are lexical, and there is a value for some item. -/
def Made.Lexical : {k : Kind} → Made k → Prop
  | .primary, t => Tree.Lexical t
  | .expression, (_, ts) => ∀ t ∈ ts, Tree.Lexical t
  | .arguments, ts => ∀ t ∈ ts, Tree.Lexical t
  | .items, vs => vs ≠ []

/-- Whatever a phrase comes to, the texts of its atoms are the pieces of the text that spell it. -/
theorem Phrase.Builds.lexical {b : Bindings} {k : Kind} {p : Phrase k} {f g : Forest} {m : Made k}
    (h : p.Builds b f m g) {text rest : List Char} (hs : p.Spells text rest) : Made.Lexical m := by
  induction h generalizing text rest with
  | number text =>
    cases hs with
    | number hn => exact Tree.lexical_leaf ⟨by rwa [String.toList_ofList], rfl⟩
  | @name _ text target _ =>
    cases hs with
    | name hw hf =>
      obtain ⟨hne, hchars, -⟩ := hw
      refine Tree.lexical_leaf ⟨rfl, ?_, by rwa [String.toList_ofList], fun f hsame => hf f ?_⟩
      · rwa [Ne, ← String.toList_inj, String.toList_ofList]
      · rw [hsame, String.toList_ofList]
  | group _ hg ih =>
    cases hs with
    | group hs => exact hg.lexical (ih hs)
  | constant c => exact Tree.lexical_call c (by simp)
  | call c _ ih =>
    cases hs with
    | call hs => exact Tree.lexical_call c (ih hs)
  | list _ ih =>
    cases hs with
    | list hs => exact Tree.lexical_leaf ⟨rfl, List.length_pos_iff.2 (ih hs)⟩
  | single _ ih =>
    cases hs with
    | single before after hs => simpa [Made.Lexical] using ih hs
  | chain op _ _ ih ih' =>
    cases hs with
    | chain before after hs hs' => simpa [Made.Lexical] using And.intro (ih hs) (ih' hs')
  | argument _ hg ih =>
    cases hs with
    | argument hs => simpa [Made.Lexical] using hg.lexical (ih hs)
  | comma _ hg _ ih ih' =>
    cases hs with
    | comma hs hs' => simpa [Made.Lexical] using And.intro (hg.lexical (ih hs)) (ih' hs')
  | item | more => exact List.cons_ne_nil _ _

/-- The expression of a formula is spelled to the end of the text. -/
theorem Formula.Spells.body {φ : Formula} {text : List Char} (h : φ.Spells text) : ∃ next, φ.body.Spells next [] := by
  cases h with
  | plain hb => exact ⟨_, hb⟩
  | assign _ _ _ _ _ hb => exact ⟨_, hb⟩

end Reading

end Formulary
