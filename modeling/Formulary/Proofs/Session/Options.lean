/-
What the options decide. Reading asks for the options at three places only, so what a session makes of
a text under some options it mostly makes of it under others: symbols that are matched as far as they
go only add the formulas with an operator that another one hides, and a higher limit only adds those
that nested too deep.
-/
import Formulary.Proofs.Session.Refusal
import Formulary.Proofs.Reading.Widening
import Formulary.Proofs.Reading.Nesting

namespace Formulary

open Reading Symbols

namespace Session

/-! ## Other options -/

/-- The same session under other options. -/
def under (s : Session) (options : Options) : Session :=
  { s with options := options }

/-- The same session with another policy. -/
def withPolicy (s : Session) (policy : MatchPolicy) : Session :=
  s.under { s.options with matchPolicy := policy }

/-- The same session with another limit to the depth of brackets. -/
def withLimit (s : Session) (limit : Nat) : Session :=
  s.under { s.options with maxNestingDepth := limit }

theorem scope_withPolicy (s : Session) (policy : MatchPolicy) :
    (s.withPolicy policy).scope = { s.scope with policy := policy } :=
  rfl

theorem scope_withLimit (s : Session) (limit : Nat) :
    (s.withLimit limit).scope = { s.scope with nestingLimit := limit } :=
  rfl

variable {s : Session} {text : String}

/-- Where a text is read alike under other options, the answer is the same, and so is the session
afterwards but for the options. -/
theorem parse_under {options : Options} (h : read (s.under options).scope text = read s.scope text) :
    (s.under options).parse text = ((s.parse text).1, (s.parse text).2.under options) := by
  rw [parse_eq (s.under options), parse_eq s, h]
  unfold build draft
  simp only [under]
  cases Draft.takeAll s.bindings { forest := s.forest } (read s.scope text).tokens with
  | none => rfl
  | some d =>
    cases (read s.scope text).error? with
    | some error => rfl
    | none =>
      rcases hfin : d.yard.finish d.forest with ⟨- | root, forest⟩
      · simp only [hfin]
        rfl
      · simp only [hfin, accept]
        cases (read s.scope text).target <;> rfl

/-- No formula changes the options. -/
theorem options_parse (s : Session) (text : String) : (s.parse text).2.options = s.options := by
  rcases s.parse_cases text with ⟨error, forest, -, hp⟩ | ⟨d, root, forest, -, -, -, hp⟩
  · rw [hp]
    rfl
  · rw [hp]
    unfold accept
    cases (read s.scope text).target <;> rfl

/-- A text is refused with the error that it is read with. -/
theorem result_parse_eq_error {error : ReadError} :
    (s.parse text).1.result = .error error ↔ (read s.scope text).error? = some error := by
  cases he : (read s.scope text).error? with
  | none =>
    rw [(result_parse_iff s text).2 he]
    simp
  | some e =>
    obtain ⟨d, hd⟩ := s.exists_takeAll text
    rw [parse_of_error hd he]
    simp [refuse]

theorem parse_withPolicy {policy : MatchPolicy} (h : read (s.withPolicy policy).scope text = read s.scope text) :
    (s.withPolicy policy).parse text = ((s.parse text).1, (s.parse text).2.withPolicy policy) := by
  rw [withPolicy, parse_under h, withPolicy, options_parse]

theorem parse_withLimit {limit : Nat} (h : read (s.withLimit limit).scope text = read s.scope text) :
    (s.withLimit limit).parse text = ((s.parse text).1, (s.parse text).2.withLimit limit) := by
  rw [withLimit, parse_under h, withLimit, options_parse]

/-! ## The policy -/

/-- What is read with the longest symbols and without a hidden operator is read with the first ones. -/
theorem read_firstAccepting (h : (read (s.withPolicy .longest).scope text).error? = none)
    (hop : ∀ token ∈ (read (s.withPolicy .longest).scope text).tokens, ∀ op, token.kind = .operator op →
      op.shadow? = none) : (read (s.withPolicy .firstAccepting).scope text).error? = none := by
  obtain ⟨φ, hs, ha, -, htokens⟩ := read_sound h
  have ha' : φ.Admitted (s.withPolicy .firstAccepting).scope := ⟨ha.applied, ha.bound, ha.depth⟩
  refine (read_of_finds hs ha' fun op hmem _ => ?_).1
  obtain ⟨token, ht, hkind⟩ := Phrase.mem_operators.1 hmem
  exact hop token (htokens ▸ ht) op hkind

theorem widens_withPolicy (s : Session) :
    Scope.Widens HiddenOperator (s.withPolicy .firstAccepting).scope (s.withPolicy .longest).scope :=
  widens_policy rfl rfl rfl rfl

/-- The policies differ by hidden operators only. What is accepted where the first symbol counts is
accepted where the longest one does, with the same answer and the same session but for the policy. What
is accepted where the longest one counts is refused where the first one does exactly if `>=` or `<=` is
an operator anywhere in it, and then for want of an expression between the sign and its `=`. -/
theorem parse_policies (s : Session) (text : String) :
    (((s.withPolicy .firstAccepting).parse text).1.result = .ok () → (s.withPolicy .longest).parse text =
      (((s.withPolicy .firstAccepting).parse text).1,
        ((s.withPolicy .firstAccepting).parse text).2.withPolicy .longest)) ∧
    (((s.withPolicy .longest).parse text).1.result = .ok () →
      ((∃ e, ((s.withPolicy .firstAccepting).parse text).1.result = .error e) ↔
        ∃ token ∈ (read (s.withPolicy .longest).scope text).tokens,
          token.kind = .operator .atLeast ∨ token.kind = .operator .atMost) ∧
      ∀ e, ((s.withPolicy .firstAccepting).parse text).1.result = .error e → HiddenOperator e) := by
  constructor
  · intro hok
    rcases s.widens_withPolicy.read text with same | ⟨e, he, -⟩
    · exact parse_withPolicy (s := s.withPolicy .firstAccepting) same
    · rw [(result_parse_iff _ _).1 hok] at he
      cases he
  · intro hok
    have longest := (result_parse_iff _ _).1 hok
    refine ⟨⟨?_, ?_⟩, fun e he => ?_⟩
    · rintro ⟨e, he⟩
      -- were there no such operator, nothing would be hidden
      by_contra none
      simp only [not_exists, not_and, not_or] at none
      have first : (read (s.withPolicy .firstAccepting).scope text).error? = .none := by
        refine read_firstAccepting longest fun token ht op hop => ?_
        obtain ⟨hleast, hmost⟩ := none token ht
        rw [hop] at hleast hmost
        cases op <;> simp [Operator.shadow?] at *
      rw [result_parse_eq_error.1 he] at first
      cases first
    · rintro ⟨token, ht, hop⟩
      rcases s.widens_withPolicy.read text with same | ⟨e, he, -⟩
      · have found := read_found (s.withPolicy .firstAccepting).scope text token (same ▸ ht)
        rcases hop with hop | hop <;> cases found _ hop rfl
      · exact ⟨e, result_parse_eq_error.2 he⟩
    · rw [result_parse_eq_error] at he
      rcases s.widens_withPolicy.read text with same | ⟨e', he', hidden⟩
      · rw [← same, longest] at he
        cases he
      · cases he.symm.trans he'
        exact hidden

/-- A hidden operator in the argument of a function in a list: `[sin(a>=1)]` is refused at the `=`, as
soon as the first symbol counts. -/
theorem parse_policies_listBound : ((listBound.withPolicy .longest).parse "[sin(a>=1)]").1.result = .ok () ∧
    ∃ e, ((listBound.withPolicy .firstAccepting).parse "[sin(a>=1)]").1.result = .error e ∧ HiddenOperator e := by
  have accepted : ((listBound.withPolicy .longest).parse "[sin(a>=1)]").1.result = .ok () := by
    rw [result_parse_iff, scope_withPolicy, scope_listBound]
    decide +kernel
  have hidden : ∃ token ∈ (read (listBound.withPolicy .longest).scope "[sin(a>=1)]").tokens,
      token.kind = .operator .atLeast ∨ token.kind = .operator .atMost := by
    rw [scope_withPolicy, scope_listBound]
    decide +kernel
  obtain ⟨refused, places⟩ := (parse_policies listBound "[sin(a>=1)]").2 accepted
  obtain ⟨e, he⟩ := refused.2 hidden
  exact ⟨accepted, e, he, places e he⟩

/-! ## The limit -/

theorem widens_withLimit (s : Session) {limit limit' : Nat} (h : limit ≤ limit') :
    Scope.Widens (fun e => e.fault = .nestingTooDeep (s.withLimit limit).scope.nestingLimit)
      (s.withLimit limit).scope (s.withLimit limit').scope :=
  widens_limit rfl rfl h

/-- The limit only cuts off. Whatever does not nest too deep for a limit is answered alike under a higher
one, with the same session afterwards but for the limit. Nowhere in the text that is read are more
brackets open than the limit allows, and the brackets that reading holds open are those of the text,
before and behind every expression that is read, also as the driver reads it from any place on where no
lexeme has been begun. A text is refused for its depth only where as many as allowed are open in what has
been read and the next character opens one more. -/
theorem parse_limits (s : Session) (text : String) {limit limit' : Nat} (h : limit ≤ limit') :
    ((∀ e n, ((s.withLimit limit).parse text).1.result = .error e → e.fault ≠ .nestingTooDeep n) →
      (s.withLimit limit').parse text =
        (((s.withLimit limit).parse text).1, ((s.withLimit limit).parse text).2.withLimit limit')) ∧
    (∀ part, part <+: (read (s.withLimit limit).scope text).stop.consumed.toList → (unclosed part).length ≤ limit) ∧
    (∀ bound state, Nests limit (expression (s.withLimit limit).scope bound) state) ∧
    (∀ bound (d : Driver), d.cursor.lexeme = "" →
      Driver.Nests limit (Driver.expression (s.withLimit limit).options s.bindings bound) d) ∧
    ∀ e n, ((s.withLimit limit).parse text).1.result = .error e → e.fault = .nestingTooDeep n →
      n = limit ∧ (unclosed e.parsed.toList).length = limit ∧ (e.found = some '(' ∨ e.found = some '[') := by
  obtain ⟨within, tooDeep⟩ := read_nested (s.withLimit limit).scope text
  have nests := nests_expression (s.withLimit limit).scope
  refine ⟨fun hdeep => ?_, within, nests,
    fun bound d hl => (Driver.drives_expression hl _ bound).nests (nests bound d.state),
    fun e n he hn => tooDeep e n (result_parse_eq_error.1 he) hn⟩
  rcases (s.widens_withLimit h).read text with same | ⟨e, he, hlimit⟩
  · exact parse_withLimit (s := s.withLimit limit) same
  · exact absurd hlimit (hdeep e limit (result_parse_eq_error.2 he))

/-- Where one bracket may be open, `[(a)]` is refused at the parenthesis, and `[a]+` at its end, as it is
where two may be open. -/
theorem parse_limits_listBound : 1 ≤ 2 ∧
    (∃ e, ((listBound.withLimit 1).parse "[(a)]").1.result = .error e ∧ e.fault = .nestingTooDeep 1 ∧
      (unclosed e.parsed.toList).length = 1 ∧ (e.found = some '(' ∨ e.found = some '[')) ∧
    (listBound.withLimit 2).parse "[a]+" =
      (((listBound.withLimit 1).parse "[a]+").1, ((listBound.withLimit 1).parse "[a]+").2.withLimit 2) := by
  have deep : (read (listBound.withLimit 1).scope "[(a)]").error? = some ⟨.nestingTooDeep 1, "[", some '('⟩ := by
    rw [scope_withLimit, scope_listBound]
    decide +kernel
  have short : (read (listBound.withLimit 1).scope "[a]+").error? = some ⟨.expectedExpression, "[a]+", none⟩ := by
    rw [scope_withLimit, scope_listBound]
    decide +kernel
  obtain ⟨-, -, -, -, tooDeep⟩ := parse_limits listBound "[(a)]" (by decide : 1 ≤ 2)
  obtain ⟨same, -⟩ := parse_limits listBound "[a]+" (by decide : 1 ≤ 2)
  refine ⟨by decide, ⟨_, result_parse_eq_error.2 deep, rfl, ?_⟩, same fun e n he => ?_⟩
  · exact (tooDeep _ 1 (result_parse_eq_error.2 deep) rfl).2
  · cases short.symm.trans (result_parse_eq_error.1 he)
    simp

end Session

end Formulary
