/-
Where blanks do not count. A text that spells a formula still spells it with more blanks at its start,
behind the name that it assigns to, and before or behind any primary, however deep it stands. No symbol
reaches over such a place: a phrase ends there whatever comes next, as long as no name goes on.
-/
import Formulary.Proofs.Reading.Viability
import Formulary.Proofs.Reading.Unambiguous

namespace Formulary.Reading

open Text

/-! ## Primaries inside of phrases -/

/-- Inside of a text that spells a phrase stands a primary, from where one rest of the text begins to
where another one does. -/
inductive Phrase.Holds : {k : Kind} → Phrase k → (text rest : List Char) → Phrase .primary →
    (start stop : List Char) → Prop
  | single {operand : Phrase .primary} {text rest : List Char} (before after : Nat) :
      operand.Spells text (blanks after ++ rest) →
      Holds (.single operand) (blanks before ++ text) rest operand text (blanks after ++ rest)
  | chain {operand : Phrase .primary} {op : Operator} {more : Phrase .expression} {text next rest : List Char}
      (before after : Nat) : operand.Spells text (blanks after ++ (op.symbol.toList ++ next)) →
      more.Spells next rest → Holds (.chain operand op more) (blanks before ++ text) rest operand text
        (blanks after ++ (op.symbol.toList ++ next))
  | inSingle {operand q : Phrase .primary} {text rest start stop : List Char} (before after : Nat) :
      Holds operand text (blanks after ++ rest) q start stop →
      Holds (.single operand) (blanks before ++ text) rest q start stop
  | inChain {operand q : Phrase .primary} {op : Operator} {more : Phrase .expression}
      {text next rest start stop : List Char} (before after : Nat) :
      Holds operand text (blanks after ++ (op.symbol.toList ++ next)) q start stop → more.Spells next rest →
      Holds (.chain operand op more) (blanks before ++ text) rest q start stop
  | behind {operand q : Phrase .primary} {op : Operator} {more : Phrase .expression}
      {text next rest start stop : List Char} (before after : Nat) :
      operand.Spells text (blanks after ++ (op.symbol.toList ++ next)) → Holds more next rest q start stop →
      Holds (.chain operand op more) (blanks before ++ text) rest q start stop
  | group {inner : Phrase .expression} {q : Phrase .primary} {text rest start stop : List Char} :
      Holds inner text (')' :: rest) q start stop → Holds (.group inner) ('(' :: text) rest q start stop
  | call {f : Builtin} {args : Phrase .arguments} {q : Phrase .primary} {text rest start stop : List Char} :
      Holds args text (')' :: rest) q start stop →
      Holds (.call f args) (f.symbol.toList ++ '(' :: text) rest q start stop
  | list {items : Phrase .items} {q : Phrase .primary} {text rest start stop : List Char} :
      Holds items text (']' :: rest) q start stop → Holds (.list items) ('[' :: text) rest q start stop
  | argument {last : Phrase .expression} {q : Phrase .primary} {text rest start stop : List Char} :
      Holds last text rest q start stop → Holds (.argument last) text rest q start stop
  | firstArgument {first : Phrase .expression} {more : Phrase .arguments} {q : Phrase .primary}
      {text next rest start stop : List Char} : Holds first text (',' :: next) q start stop →
      more.Spells next rest → Holds (.comma first more) text rest q start stop
  | laterArgument {first : Phrase .expression} {more : Phrase .arguments} {q : Phrase .primary}
      {text next rest start stop : List Char} : first.Spells text (',' :: next) →
      Holds more next rest q start stop → Holds (.comma first more) text rest q start stop
  | item {last : Phrase .expression} {q : Phrase .primary} {text rest start stop : List Char} :
      Holds last text rest q start stop → Holds (.item last) text rest q start stop
  | firstItem {first : Phrase .expression} {others : Phrase .items} {q : Phrase .primary}
      {text next rest start stop : List Char} : Holds first text (',' :: next) q start stop →
      others.Spells next rest → Holds (.more first others) text rest q start stop
  | laterItem {first : Phrase .expression} {others : Phrase .items} {q : Phrase .primary}
      {text next rest start stop : List Char} : first.Spells text (',' :: next) →
      Holds others next rest q start stop → Holds (.more first others) text rest q start stop

theorem replaces_blanks (n : Nat) (rest : List Char) : Replaces (blanks n ++ rest) rest := by
  cases n with
  | zero => exact fun _ h _ => h
  | succ n =>
    rintro c hc hname
    cases hc
    cases hname

namespace Phrase.Holds

variable {k : Kind} {p : Phrase k} {q : Phrase .primary} {text rest start stop : List Char}

/-- The text up to a primary, the primary and what follows it: with blanks before and behind the
primary the text spells the same phrase. -/
theorem split (h : p.Holds text rest q start stop) : ∃ head body, text = head ++ start ∧ start = body ++ stop ∧
    ∀ m n, p.Spells (head ++ (blanks m ++ (body ++ (blanks n ++ stop)))) rest := by
  induction h with
  | @single operand text rest before after hp =>
    obtain ⟨body, rfl, hbody⟩ := hp.exists_read
    refine ⟨blanks before, body, rfl, rfl, fun m n => ?_⟩
    have longer := hbody _ (replaces_blanks n (blanks after ++ rest))
    rw [blanks_append_blanks] at longer
    rw [blanks_append_blanks, blanks_append_blanks]
    exact .single _ _ longer
  | @chain operand op more text next rest before after hp hm =>
    obtain ⟨body, rfl, hbody⟩ := hp.exists_read
    refine ⟨blanks before, body, rfl, rfl, fun m n => ?_⟩
    have longer := hbody _ (replaces_blanks n (blanks after ++ (op.symbol.toList ++ next)))
    rw [blanks_append_blanks] at longer
    rw [blanks_append_blanks, blanks_append_blanks]
    exact .chain _ _ longer hm
  | inSingle before after h ih =>
    obtain ⟨head, body, rfl, rfl, hspells⟩ := ih
    refine ⟨blanks before ++ head, body, by simp, rfl, fun m n => ?_⟩
    rw [List.append_assoc]
    exact .single before after (hspells m n)
  | inChain before after h hm ih =>
    obtain ⟨head, body, rfl, rfl, hspells⟩ := ih
    refine ⟨blanks before ++ head, body, by simp, rfl, fun m n => ?_⟩
    rw [List.append_assoc]
    exact .chain before after (hspells m n) hm
  | @behind operand q op more text next rest start stop before after hp h ih =>
    obtain ⟨head, body, rfl, rfl, hspells⟩ := ih
    obtain ⟨read, rfl, hread⟩ := hp.exists_read
    refine ⟨blanks before ++ (read ++ (blanks after ++ (op.symbol.toList ++ head))), body, by simp, rfl, fun m n => ?_⟩
    have := Spells.chain before after (hread _ ((replaces_symbol op _ _).append _)) (hspells m n)
    simpa using this
  | group h ih =>
    obtain ⟨head, body, rfl, rfl, hspells⟩ := ih
    exact ⟨'(' :: head, body, rfl, rfl, fun m n => .group (hspells m n)⟩
  | @call f args q text rest start stop h ih =>
    obtain ⟨head, body, rfl, rfl, hspells⟩ := ih
    refine ⟨f.symbol.toList ++ '(' :: head, body, by simp, rfl, fun m n => ?_⟩
    have := Spells.call (f := f) (hspells m n)
    simpa using this
  | list h ih =>
    obtain ⟨head, body, rfl, rfl, hspells⟩ := ih
    exact ⟨'[' :: head, body, rfl, rfl, fun m n => .list (hspells m n)⟩
  | argument h ih =>
    obtain ⟨head, body, rfl, rfl, hspells⟩ := ih
    exact ⟨head, body, rfl, rfl, fun m n => .argument (hspells m n)⟩
  | firstArgument h hm ih =>
    obtain ⟨head, body, rfl, rfl, hspells⟩ := ih
    exact ⟨head, body, rfl, rfl, fun m n => .comma (hspells m n) hm⟩
  | laterArgument hf h ih =>
    obtain ⟨head, body, rfl, rfl, hspells⟩ := ih
    obtain ⟨read, rfl, hread⟩ := hf.exists_read
    refine ⟨read ++ ',' :: head, body, by simp, rfl, fun m n => ?_⟩
    have := Spells.comma (hread _ replaces_cons) (hspells m n)
    simpa using this
  | item h ih =>
    obtain ⟨head, body, rfl, rfl, hspells⟩ := ih
    exact ⟨head, body, rfl, rfl, fun m n => .item (hspells m n)⟩
  | firstItem h hm ih =>
    obtain ⟨head, body, rfl, rfl, hspells⟩ := ih
    exact ⟨head, body, rfl, rfl, fun m n => .more (hspells m n) hm⟩
  | laterItem hf h ih =>
    obtain ⟨head, body, rfl, rfl, hspells⟩ := ih
    obtain ⟨read, rfl, hread⟩ := hf.exists_read
    refine ⟨read ++ ',' :: head, body, by simp, rfl, fun m n => ?_⟩
    have := Spells.more (hread _ replaces_cons) (hspells m n)
    simpa using this

/-- A primary that stands in a text is spelled there. -/
theorem spells (h : p.Holds text rest q start stop) : q.Spells start stop := by
  induction h with
  | single _ _ hp | chain _ _ hp _ => exact hp
  | _ => assumption

theorem ahead (h : p.Holds text rest q start stop) {head : List Char} (ht : text = head ++ start) (n : Nat) :
    p.Spells (head ++ (blanks n ++ start)) rest := by
  obtain ⟨head', body, ht', rfl, hspells⟩ := h.split
  cases List.append_cancel_right (ht'.symm.trans ht)
  exact hspells n 0

theorem after (h : p.Holds text rest q start stop) {head : List Char} (ht : text = head ++ stop) (n : Nat) :
    p.Spells (head ++ (blanks n ++ stop)) rest := by
  obtain ⟨head', body, ht', rfl, hspells⟩ := h.split
  rw [← List.append_assoc] at ht'
  cases List.append_cancel_right (ht'.symm.trans ht)
  simpa using hspells 0 n

end Phrase.Holds

/-! ## Places between the atoms of a formula -/

/-- What stands before the expression of a formula: nothing, or a name and an equals sign. -/
inductive Formula.Leads : Formula → List Char → Prop
  | plain {body : Phrase .expression} : Leads ⟨none, body⟩ []
  | assign {name : List Char} {body : Phrase .expression} (before after : Nat) : name ≠ [] →
      (∀ c ∈ name, isNameChar c = true) →
      Leads ⟨some name, body⟩ (blanks before ++ (name ++ (blanks after ++ ['='])))

theorem Formula.Leads.spells {φ : Formula} {lead text : List Char} (h : φ.Leads lead) (hb : φ.body.Spells text []) :
    φ.Spells (lead ++ text) := by
  cases h with
  | plain => exact .plain hb
  | assign before after hne hw =>
    have := Formula.Spells.assign before after hne hw hb.head_ne_equals hb
    simpa using this

/-- A place in a text that is a formula where blanks do not count: the start of the text, a place between
the assigned name and its equals sign, or one right before or right behind a primary. -/
inductive Formula.Gap : Formula → (before behind : List Char) → Prop
  | start {φ : Formula} {text : List Char} : φ.Spells text → Gap φ [] text
  | sign {name next : List Char} {body : Phrase .expression} (before m n : Nat) : name ≠ [] →
      (∀ c ∈ name, isNameChar c = true) → body.Spells next [] →
      Gap ⟨some name, body⟩ (blanks before ++ (name ++ blanks m)) (blanks n ++ '=' :: next)
  | ahead {φ : Formula} {lead head start stop : List Char} {q : Phrase .primary} : φ.Leads lead →
      φ.body.Holds (head ++ start) [] q start stop → Gap φ (lead ++ head) start
  | after {φ : Formula} {lead head start stop : List Char} {q : Phrase .primary} : φ.Leads lead →
      φ.body.Holds (head ++ stop) [] q start stop → Gap φ (lead ++ head) stop

/-- More blanks there make another spelling of the formula. -/
theorem Formula.Gap.spells {φ : Formula} {before behind : List Char} (h : φ.Gap before behind) (n : Nat) :
    φ.Spells (before ++ (blanks n ++ behind)) := by
  cases h with
  | start h =>
    cases h with
    | plain hb => exact .plain (hb.blanks_append n)
    | assign before after hne hw hsingle hb =>
      rw [List.nil_append, blanks_append_blanks]
      exact .assign _ after hne hw hsingle hb
  | @sign name next body before i j hne hw hb =>
    have := Formula.Spells.assign before (i + (n + j)) hne hw hb.head_ne_equals hb
    rw [← blanks_append_blanks, ← blanks_append_blanks] at this
    simpa using this
  | ahead hl hh =>
    rw [List.append_assoc]
    exact hl.spells (hh.ahead rfl n)
  | after hl hh =>
    rw [List.append_assoc]
    exact hl.spells (hh.after rfl n)

end Formulary.Reading
