/-
Spellings of the same formula. A session takes an accepted text for the formula that it spells, and for
nothing more: any other spelling is accepted as well, and leaves the session just the same but for the
text that it keeps. So blanks do not count, wherever they do not change the formula.
-/
import Formulary.Proofs.Reading.Blanks
import Formulary.Proofs.Session.Starting

namespace Formulary.Session

open Reading Text

variable {s : Session} {text text' : String} {φ : Formula}

/-- The session with another text for its latest formula. -/
def retold (s : Session) (text : String) : Session :=
  { s with expression? := some text }

theorem accept_retold (s : Session) (text text' : String) (target : Option String) (root : NodeId) (forest : Forest)
    (width : Nat) :
    (s.accept text' target root forest width).2 = (s.accept text target root forest width).2.retold text' := by
  cases target <;> rfl

/-- What spells the formula of a text that is read without an error is read as its tokens too. -/
theorem read_respelled {scope : Scope} (he : (read scope text).error? = none) (h : φ.Spells text.toList)
    (h' : φ.Spells text'.toList) : (read scope text').error? = none ∧
      (read scope text').target = (read scope text).target ∧
      (read scope text').tokens = (read scope text).tokens := by
  obtain ⟨ψ, spells, admitted, target, tokens⟩ := read_sound he
  cases h.unique spells
  have finds : ∀ op ∈ φ.body.operators, scope.policy.Finds op := by
    intro op hop
    obtain ⟨token, ht, hkind⟩ := Phrase.mem_operators.1 hop
    exact read_found scope text token (tokens ▸ ht) op hkind
  rw [target, tokens]
  exact read_of_finds h' admitted finds

/-- Another spelling of the formula of an accepted text is accepted alike. -/
theorem parse_respelled (hok : (s.parse text).1.result = .ok ()) (h : φ.Spells text.toList)
    (h' : φ.Spells text'.toList) :
    (s.parse text').1.result = .ok () ∧ (s.parse text').2 = (s.parse text).2.retold text' := by
  obtain ⟨he, target, tokens⟩ := read_respelled ((result_parse_iff s text).1 hok) h h'
  have hok' := (result_parse_iff s text').2 he
  obtain ⟨d, root, g, hd, hfin, hp⟩ := parse_of_ok hok
  obtain ⟨d', root', g', hd', hfin', hp'⟩ := parse_of_ok hok'
  rw [tokens] at hd'
  cases hd.symm.trans hd'
  cases hfin.symm.trans hfin'
  refine ⟨hok', ?_⟩
  rw [hp, hp', target]
  exact accept_retold ..

/-- A text with blanks at a place. -/
def spaced (before : List Char) (n : Nat) (behind : List Char) : String :=
  String.ofList (before ++ (blanks n ++ behind))

/-- Blanks between the atoms of a formula do not count. An accepted text is a single formula, and with
any number of blanks at its start, between an assigned name and its equals sign, right before or right
behind a primary, it is accepted too and leaves the same session but for the text that is kept. -/
theorem parse_blanks (s : Session) {text : String} (hok : (s.parse text).1.result = .ok ()) :
    ∃ φ : Formula, φ.Spells text.toList ∧ (∀ ψ : Formula, ψ.Spells text.toList → ψ = φ) ∧
      ∀ before behind, text.toList = before ++ behind → φ.Gap before behind → ∀ n,
        (s.parse (spaced before n behind)).1.result = .ok () ∧
          (s.parse (spaced before n behind)).2 = (s.parse text).2.retold (spaced before n behind) := by
  obtain ⟨φ, spells, -⟩ := read_sound ((result_parse_iff s text).1 hok)
  refine ⟨φ, spells, fun ψ hψ => spells.unique hψ, fun before behind _ gap n => parse_respelled hok spells ?_⟩
  rw [spaced, String.toList_ofList]
  exact gap.spells n

/-- Two blanks before the argument of a function in a list. -/
theorem parse_blanks_listBound : (listBound.parse "[sin(a)>=1]").1.result = .ok () ∧
    (listBound.parse "[sin(  a)>=1]").1.result = .ok () ∧
    (listBound.parse "[sin(  a)>=1]").2 = (listBound.parse "[sin(a)>=1]").2.retold "[sin(  a)>=1]" := by
  have hok : (listBound.parse "[sin(a)>=1]").1.result = .ok () := by
    rw [result_parse_iff, scope_listBound]
    decide +kernel
  obtain ⟨φ, -, only, blank⟩ := parse_blanks listBound hok
  let argument : Phrase .primary := .name ['a']
  let sine : Phrase .primary := .call .sin (.argument (.single argument))
  let ψ : Formula := ⟨none, .single (.list (.item (.chain sine .atLeast (.single (.number ['1'])))))⟩
  have word : Word ['a'] ")>=1]".toList := ⟨by simp, by simp [isNameChar], by simp [isNameChar]⟩
  have noFunction : ∀ f : Builtin, f.symbol.toList ≠ ['a'] := fun f => by cases f <;> decide
  have one : Phrase.Spells (.single (.number ['1'])) "1]".toList [']'] := .single 0 0 (.number (numeral_digit rfl))
  have gap : ψ.Gap "[sin(".toList "a)>=1]".toList := .ahead .plain
    (.inSingle 0 0 (.list (.item (.inChain 0 0 (.call (.argument (.single 0 0 (.name word noFunction)))) one))))
  rw [only ψ (gap.spells 0)] at gap
  have wider : spaced "[sin(".toList 2 "a)>=1]".toList = "[sin(  a)>=1]" := rfl
  have accepted := blank "[sin(".toList "a)>=1]".toList rfl gap 2
  rw [wider] at accepted
  exact ⟨hok, accepted⟩

end Formulary.Session
