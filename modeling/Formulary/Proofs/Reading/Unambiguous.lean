/-
The grammar is unambiguous. A text spells one phrase of a kind at most, as far as what may stand behind
phrases of the kind tells where they end: an expression goes up to what closes or continues a bracket,
and a primary up to what can be no more of a number or a call. So a text is one formula at most,
whatever it would be read against.
-/
import Formulary.Proofs.Reading.Completeness

namespace Formulary.Reading

open Text Symbols

/-- What stands behind a phrase of a kind where it is complete. -/
def Stops : Kind → List Char → Prop
  | .primary, rest => NumeralEnds rest ∧ rest.head? ≠ some '('
  | .expression, rest => ∀ c, rest.head? = some c → c = ')' ∨ c = ',' ∨ c = ']'
  | .arguments, rest => rest.head? = some ')'
  | .items, rest => rest.head? = some ']'

section Stops

variable {rest : List Char}

theorem Stops.blanks_append (h : Stops .primary rest) (n : Nat) : Stops .primary (blanks n ++ rest) := by
  refine ⟨h.1.blanks_append n, ?_⟩
  cases n with
  | zero => exact h.2
  | succ n => simp [blanks, List.replicate_succ]

theorem stops_symbol (op : Operator) (next : List Char) : Stops .primary (op.symbol.toList ++ next) := by
  refine ⟨numeralEnds_symbol op next, ?_⟩
  cases op <;> rintro ⟨⟩

theorem Stops.primary (h : Stops .expression rest) : Stops .primary rest := by
  constructor
  · intro c hc
    rcases h c hc with rfl | rfl | rfl <;> decide
  · intro hopen
    rcases h _ hopen with h | h | h <;> cases h

theorem Stops.head_ne_blank (h : Stops .expression rest) : rest.head? ≠ some ' ' := by
  intro hblank
  rcases h _ hblank with h | h | h <;> cases h

theorem stops_cons {c : Char} (hc : c = ')' ∨ c = ',' ∨ c = ']') : Stops .expression (c :: rest) := by
  rintro _ ⟨⟩
  exact hc

theorem Stops.expression (h : rest.head? = some ')' ∨ rest.head? = some ']') : Stops .expression rest := by
  intro c hc
  rcases h with h | h <;> cases h.symm.trans hc <;> simp

/-- No operator stands where an expression ends. -/
theorem Stops.ne_symbol (h : Stops .expression rest) (op : Operator) (next : List Char) :
    rest ≠ op.symbol.toList ++ next := by
  rintro rfl
  obtain ⟨c, more, hop, -, hclose, hcomma, hlist, -⟩ := head_symbol op
  rw [hop] at h
  rcases h c rfl with rfl | rfl | rfl <;> contradiction

end Stops

/-! ## How primaries begin -/

namespace Phrase

section Primary

variable {p q : Phrase .primary} {text rest rest' : List Char}

theorem Spells.shape_eq (h : p.Spells text rest) (h' : q.Spells text rest') : q.shape = p.shape := by
  obtain ⟨c, more, rfl, hp⟩ := h.shape_begins
  obtain ⟨_, _, same, hq⟩ := h'.shape_begins
  cases same
  rw [← hp.at_eq, ← hq.at_eq]

theorem Spells.exists_number (h : q.Spells text rest) (hs : q.shape = .number) :
    ∃ numeral, q = .number numeral ∧ text = numeral ++ rest ∧ Numeral numeral := by
  cases h with
  | number hn => exact ⟨_, rfl, rfl, hn⟩
  | _ => cases hs

theorem Spells.exists_group (h : q.Spells text rest) (hs : q.shape = .group) :
    ∃ inner more, q = .group inner ∧ text = '(' :: more ∧ inner.Spells more (')' :: rest) := by
  cases h with
  | group hi => exact ⟨_, _, rfl, rfl, hi⟩
  | _ => cases hs

theorem Spells.exists_list (h : q.Spells text rest) (hs : q.shape = .list) :
    ∃ items more, q = .list items ∧ text = '[' :: more ∧ items.Spells more (']' :: rest) := by
  cases h with
  | list hi => exact ⟨_, _, rfl, rfl, hi⟩
  | _ => cases hs

end Primary

end Phrase

/-! ## How expressions go on -/

/-- Behind the operand of an expression, the expression ends, or an operator stands there. -/
theorem Phrase.Spells.exists_operand {q : Phrase .expression} {text rest : List Char} (h : q.Spells text rest)
    (hr : Stops .expression rest) : ∃ operand behind, operand.Spells (text.dropWhile isBlank) behind ∧
      Stops .primary behind ∧ (q = .single operand ∧ behind.dropWhile isBlank = rest ∨
        ∃ op more next, q = .chain operand op more ∧ behind.dropWhile isBlank = op.symbol.toList ++ next ∧
          more.Spells next rest) := by
  cases h with
  | single before after hp =>
    refine ⟨_, _, ?_, hr.primary.blanks_append after, .inl ⟨rfl, dropWhile_blanks after hr.head_ne_blank⟩⟩
    rwa [dropWhile_blanks_primary hp]
  | @chain operand op more text next rest before after hp hm =>
    refine ⟨_, _, ?_, (stops_symbol op next).blanks_append after,
      .inr ⟨op, more, next, rfl, dropWhile_blanks_symbol after op next, hm⟩⟩
    rwa [dropWhile_blanks_primary hp]

/-- Where no equals sign follows, the operator that a text begins with is told by the text. -/
theorem symbol_append_inj {op op' : Operator} {next next' : List Char}
    (h : op.symbol.toList ++ next = op'.symbol.toList ++ next') (hn : next.head? ≠ some '=')
    (hn' : next'.head? ≠ some '=') : op = op' ∧ next = next' := by
  have found := operatorAt_longest op hn
  rw [h, operatorAt_longest op' hn'] at found
  cases found
  exact ⟨rfl, List.append_cancel_left h⟩

/-! ## One phrase at most -/

/-- A numeral ends where no more of it follows: it is what the reader of a primary takes. -/
theorem Numeral.unique {numeral numeral' rest rest' : List Char} (h : Numeral numeral) (h' : Numeral numeral')
    (same : numeral ++ rest = numeral' ++ rest') (hr : NumeralEnds rest) (hr' : NumeralEnds rest') :
    numeral' = numeral ∧ rest' = rest := by
  let scope : Scope := ⟨.longest, 0, fun _ => true⟩
  let s : State := { cursor := { ahead := numeral ++ rest } }
  have fits : ∀ digits, Fits scope (.number digits) s := fun digits =>
    ⟨trivial, by simp [Phrase.names], Nat.zero_le _, by simp [Phrase.operators]⟩
  have ahead : s.cursor.ahead.dropWhile isBlank = numeral ++ rest :=
    dropWhile_blanks_primary (.number h) 0
  have reads := completes_number h s _ ahead rfl (Nat.le_refl _) (fits numeral) hr
  have reads' := completes_number h' s _ (ahead.trans same) rfl (Nat.le_of_eq (congrArg _ same.symm)) (fits numeral')
    hr'
  have hrest : rest' = rest := by
    refine (reads.and reads').const (fun _ _ h => ?_) fun _ _ h => h.1.elim
    exact h.2.1.symm.trans h.1.1
  exact ⟨(List.append_cancel_right (hrest ▸ same)).symm, hrest⟩

/-- What a phrase spells is that phrase only, with that rest only. -/
theorem Phrase.Spells.determines {k : Kind} {p q : Phrase k} {text rest rest' : List Char} (h : p.Spells text rest)
    (hr : Stops k rest) (h' : q.Spells text rest') (hr' : Stops k rest') : q = p ∧ rest' = rest := by
  -- the other spelling is taken apart along with this one, and where a part of it ends is told by what
  -- may stand behind the part
  induction h generalizing rest' with
  | number hn =>
    obtain ⟨numeral, rfl, same, hn'⟩ := h'.exists_number (Spells.shape_eq (.number hn) h')
    obtain ⟨rfl, rfl⟩ := hn.unique hn' same hr.1 hr'.1
    exact ⟨rfl, rfl⟩
  | name hw hf =>
    obtain ⟨rfl, rfl, -⟩ | ⟨f, rfl, -⟩ := h'.of_word hw
    · exact ⟨rfl, rfl⟩
    · exact absurd rfl (hf f)
  | group hi ih =>
    obtain ⟨inner, more, rfl, same, hi'⟩ := h'.exists_group (Spells.shape_eq (.group hi) h')
    cases same
    obtain ⟨rfl, same⟩ := ih (stops_cons (by simp)) hi' (stops_cons (by simp))
    cases same
    exact ⟨rfl, rfl⟩
  | constant hw =>
    obtain ⟨-, -, hf⟩ | ⟨f, hf, ⟨rfl, rfl⟩ | ⟨args, inner, rfl, rfl, -⟩⟩ := h'.of_word hw
    · exact absurd rfl (hf _)
    · cases Builtin.symbol_injective hf
      exact ⟨rfl, rfl⟩
    · exact absurd rfl hr.2
  | @call f args text rest ha ih =>
    obtain ⟨-, -, hf⟩ | ⟨g, hg, ⟨-, rfl⟩ | ⟨args', inner, rfl, same, ha'⟩⟩ := h'.of_word (word_symbol f rfl)
    · exact absurd rfl (hf _)
    · exact absurd rfl hr'.2
    · cases same
      obtain ⟨rfl, same⟩ := ih rfl ha' rfl
      cases same
      cases Builtin.symbol_injective hg
      exact ⟨rfl, rfl⟩
  | list hi ih =>
    obtain ⟨items, more, rfl, same, hi'⟩ := h'.exists_list (Spells.shape_eq (.list hi) h')
    cases same
    obtain ⟨rfl, same⟩ := ih rfl hi' rfl
    cases same
    exact ⟨rfl, rfl⟩
  | @single operand text rest before after hp ih =>
    obtain ⟨operand', behind, hp', hstop, next⟩ := h'.exists_operand hr'
    rw [dropWhile_blanks_primary hp] at hp'
    obtain ⟨rfl, rfl⟩ := ih (hr.primary.blanks_append after) hp' hstop
    rw [dropWhile_blanks after hr.head_ne_blank] at next
    obtain ⟨rfl, rfl⟩ | ⟨op, more, next, -, hop, -⟩ := next
    · exact ⟨rfl, rfl⟩
    · exact absurd hop (hr.ne_symbol op next)
  | @chain operand op more text next rest before after hp hm ih ih' =>
    obtain ⟨operand', behind, hp', hstop, continued⟩ := h'.exists_operand hr'
    rw [dropWhile_blanks_primary hp] at hp'
    obtain ⟨rfl, rfl⟩ := ih ((stops_symbol op next).blanks_append after) hp' hstop
    rw [dropWhile_blanks_symbol after op next] at continued
    obtain ⟨-, same⟩ | ⟨op', more', next', rfl, same, hm'⟩ := continued
    · exact absurd same.symm (hr'.ne_symbol op next)
    · obtain ⟨rfl, rfl⟩ := symbol_append_inj same hm.head_ne_equals hm'.head_ne_equals
      obtain ⟨rfl, rfl⟩ := ih' hr hm' hr'
      exact ⟨rfl, rfl⟩
  | argument hs ih =>
    cases h' with
    | argument hs' =>
      obtain ⟨rfl, rfl⟩ := ih (.expression (.inl hr)) hs' (.expression (.inl hr'))
      exact ⟨rfl, rfl⟩
    | comma hf' _ =>
      obtain ⟨-, rfl⟩ := ih (.expression (.inl hr)) hf' (stops_cons (by simp))
      cases hr
  | comma hf hs ihf ihs =>
    cases h' with
    | argument hs' =>
      obtain ⟨-, rfl⟩ := ihf (stops_cons (by simp)) hs' (.expression (.inl hr'))
      cases hr'
    | comma hf' hs' =>
      obtain ⟨rfl, same⟩ := ihf (stops_cons (by simp)) hf' (stops_cons (by simp))
      cases same
      obtain ⟨rfl, rfl⟩ := ihs hr hs' hr'
      exact ⟨rfl, rfl⟩
  | item hs ih =>
    cases h' with
    | item hs' =>
      obtain ⟨rfl, rfl⟩ := ih (.expression (.inr hr)) hs' (.expression (.inr hr'))
      exact ⟨rfl, rfl⟩
    | more hf' _ =>
      obtain ⟨-, rfl⟩ := ih (.expression (.inr hr)) hf' (stops_cons (by simp))
      cases hr
  | more hf hs ihf ihs =>
    cases h' with
    | item hs' =>
      obtain ⟨-, rfl⟩ := ihf (stops_cons (by simp)) hs' (.expression (.inr hr'))
      cases hr'
    | more hf' hs' =>
      obtain ⟨rfl, same⟩ := ihf (stops_cons (by simp)) hf' (stops_cons (by simp))
      cases same
      obtain ⟨rfl, rfl⟩ := ihs hr hs' hr'
      exact ⟨rfl, rfl⟩

/-- An expression as a whole is no assignment. -/
theorem Phrase.Spells.not_assign {p body : Phrase .expression} {text name : List Char} (h : p.Spells text []) :
    ¬ Formula.Spells ⟨some name, body⟩ text := by
  intro h'
  generalize ha : Formula.mk (some name) body = φ at h'
  cases h' with
  | plain _ => cases ha
  | assign before after hne hw hsingle _ =>
    exact hsingle (h.next_of_word rfl (word_before_equals after hne hw))

/-- A text is one formula at most. -/
theorem Formula.Spells.unique {φ ψ : Formula} {text : List Char} (h : φ.Spells text) (h' : ψ.Spells text) :
    ψ = φ := by
  have stops : Stops .expression [] := nofun
  cases h with
  | @plain body _ hb =>
    rcases ψ with ⟨_ | name, body'⟩
    · cases h' with
      | plain hb' => rw [(hb.determines stops hb' stops).1]
    · exact absurd h' hb.not_assign
  | @assign w next body before after hne hw hsingle hb =>
    have word : Word w (blanks after ++ '=' :: next) := word_before_equals after hne hw
    generalize ht : blanks before ++ (w ++ (blanks after ++ '=' :: next)) = text at h'
    cases h' with
    | plain hb' => exact absurd (.assign before after hne hw hsingle hb) (ht ▸ hb').not_assign
    | @assign w' next' body' before' after' hne' hw' hsingle' hb' =>
      have word' : Word w' (blanks after' ++ '=' :: next') := word_before_equals after' hne' hw'
      have same : w ++ (blanks after ++ '=' :: next) = w' ++ (blanks after' ++ '=' :: next') := by
        rw [← dropWhile_blanks before word.head_ne_blank, ht, dropWhile_blanks before' word'.head_ne_blank]
      obtain ⟨rfl, behind⟩ := word.unique word' same
      have signs : '=' :: next = '=' :: next' := by
        rw [← dropWhile_blanks after (by simp : ('=' :: next).head? ≠ some ' '), behind,
          dropWhile_blanks after' (by simp)]
      cases signs
      rw [(hb.determines stops hb' stops).1]

end Formulary.Reading
