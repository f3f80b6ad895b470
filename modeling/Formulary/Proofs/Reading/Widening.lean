/-
One text read against two scopes. Only four steps of reading look at the scope: looking for a function
or an operator, asking whether a name is bound, and opening a bracket. Where each of these comes to
the same against both scopes, or else fails against the first one with an error that is excused, so
does the reading as a whole. There are three ways in which a scope can be widened so: it binds more
names, it lets brackets nest deeper, or it matches symbols as far as they go.
-/
import Formulary.Proofs.Reading.Completeness

namespace Formulary.Reading

open Text Symbols

/-! ## Readers in agreement -/

/-- From a state two readers come to the same, unless the first one fails with an excused error. -/
def Agree (excused : ReadError → Prop) {α : Type} (r r' : Reader α) (s : State) : Prop :=
  r' s = r s ∨ ∃ e s', r s = .error e s' ∧ excused e

section Agree

variable {excused : ReadError → Prop} {α β : Type} {s : State}

theorem Agree.refl (r : Reader α) (s : State) : Agree excused r r s :=
  .inl rfl

theorem Agree.bind {r r' : Reader β} {k k' : β → Reader α} (h : Agree excused r r' s)
    (hk : ∀ b s', Agree excused (k b) (k' b) s') : Agree excused (r >>= k) (r' >>= k') s := by
  show Agree excused (EStateM.bind r k) (EStateM.bind r' k') s
  unfold Agree EStateM.bind at *
  rcases h with same | ⟨e, s', he, hx⟩
  · rw [same]
    cases r s with
    | ok b s' => exact hk b s'
    | error e s' => exact .inl rfl
  · rw [he]
    exact .inr ⟨e, s', rfl, hx⟩

/-- What the two readers do after the same beginning. -/
theorem Agree.after (r : Reader β) {k k' : β → Reader α} (hk : ∀ b s', Agree excused (k b) (k' b) s') :
    Agree excused (r >>= k) (r >>= k') s :=
  (Agree.refl r s).bind hk

theorem agree_look {view : Cursor → β} {k k' : β → Reader α} :
    Agree excused (look view >>= k) (look view >>= k') s ↔ Agree excused (k (view s.cursor)) (k' (view s.cursor)) s :=
  Iff.rfl

theorem Agree.ite {c : Prop} [Decidable c] {r r' q q' : Reader α} (h : Agree excused r r' s)
    (h' : Agree excused q q' s) : Agree excused (if c then r else q) (if c then r' else q') s := by
  split
  · exact h
  · exact h'

theorem agree_of_ends {r r' : Reader α} (h : Ends r s (fun _ _ => False) fun e _ => excused e) :
    Agree excused r r' s := by
  unfold Ends at h
  split at h
  · exact h.elim
  · rename_i e s' hr
    exact .inr ⟨e, s', hr, h⟩

end Agree

/-! ## Scopes -/

/-- What follows an operand inside an expression. -/
def onward (scope : Scope) (bound : Nat) : Reader Unit := do
  match operatorAt scope.policy (← look (·.ahead)) with
  | none => fail .expectedOperator
  | some (op, length) =>
    move (·.gather length)
    emit (.operator op)
    expression scope bound

/-- The second scope admits what the first one does, apart from excused errors: so it is with each of
the steps that look at the scope. -/
structure Scope.Widens (excused : ReadError → Prop) (scope scope' : Scope) : Prop where
  enter (bracket : Bracket) (s : State) :
    Agree excused (enter scope.nestingLimit bracket) (enter scope'.nestingLimit bracket) s
  bound (name : String) (s : State) : Agree excused (require (fun _ => scope.binds name) (.undefinedVariable name))
    (require (fun _ => scope'.binds name) (.undefinedVariable name)) s
  onward (bound : Nat) (s : State) : (∀ s, Agree excused (expression scope bound) (expression scope' bound) s) →
    Agree excused (onward scope bound) (onward scope' bound) s

section Widens

variable {excused : ReadError → Prop} {scope scope' : Scope} {inner inner' : Reader Unit}

theorem functionAt?_congr (scope scope' : Scope) (c : Cursor) : functionAt? scope' c = functionAt? scope c := by
  rw [functionAt?, functionAt?, builtinAt_policies scope'.policy scope.policy]

theorem Scope.Widens.boundName (h : scope.Widens excused scope') (s : State) :
    Agree excused (boundName scope) (boundName scope') s :=
  .after _ fun _ _ => .after _ fun name s => (h.bound name s).bind fun _ s => .refl _ s

theorem Scope.Widens.group (h : scope.Widens excused scope') (hi : ∀ s, Agree excused inner inner' s) (s : State) :
    Agree excused (group scope inner) (group scope' inner') s :=
  (h.enter _ s).bind fun _ _ => .after _ fun _ _ => .after _ fun _ s => (hi s).bind fun _ s => .refl _ s

theorem agree_arguments (hi : ∀ s, Agree excused inner inner' s) (n : Nat) (s : State) :
    Agree excused (arguments inner n) (arguments inner' n) s := by
  induction n using arguments.induct generalizing s with
  | case1 => exact .refl _ s
  | case2 => exact hi s
  | case3 count ih => exact (hi s).bind fun _ _ => .after _ fun _ s => ih s

theorem Scope.Widens.call (h : scope.Widens excused scope') (hi : ∀ s, Agree excused inner inner' s) (f : Builtin)
    (length : Nat) (s : State) : Agree excused (call scope inner f length) (call scope' inner' f length) s := by
  refine .after _ fun _ _ => .after _ fun _ s => .ite (.refl _ s) (.after _ fun _ s => (h.enter _ s).bind fun _ _ => ?_)
  exact .after _ fun _ _ => .after _ fun _ s => (agree_arguments hi _ s).bind fun _ s => .refl _ s

theorem agree_listItems (hi : ∀ s, Agree excused inner inner' s) (n : Nat) (s : State) :
    Agree excused (listItems inner n) (listItems inner' n) s := by
  induction n generalizing s with
  | zero => exact .refl _ s
  | succ n ih =>
    refine .after _ fun _ s => (hi s).bind fun _ _ => .after _ fun _ _ => .after _ fun _ s => .ite ?_ (.refl _ s)
    exact .after _ fun _ s => ih s

theorem Scope.Widens.listLiteral (h : scope.Widens excused scope') (hi : ∀ s, Agree excused inner inner' s)
    (n : Nat) (s : State) : Agree excused (listLiteral scope inner n) (listLiteral scope' inner' n) s :=
  (h.enter _ s).bind fun _ _ => .after _ fun _ _ => .after _ fun _ s => (agree_listItems hi n s).bind fun _ s =>
    .refl _ s

theorem Scope.Widens.primary (h : scope.Widens excused scope') (hi : ∀ s, Agree excused inner inner' s) (n : Nat)
    (s : State) : Agree excused (primary scope inner n) (primary scope' inner' n) s := by
  refine .after _ fun _ _ => .after _ fun c s => .ite (h.group hi s) (.ite (.refl _ s) ?_)
  rw [functionAt?_congr scope scope' c]
  split
  · exact h.call hi _ _ s
  · exact .ite (h.boundName s) (.ite (h.listLiteral hi n s) (.refl _ s))

/-- An expression comes to the same against the wider scope. -/
theorem Scope.Widens.expression (h : scope.Widens excused scope') (bound : Nat) (s : State) :
    Agree excused (expression scope bound) (expression scope' bound) s := by
  induction bound generalizing s with
  | zero => exact .refl _ s
  | succ bound ih =>
    exact (h.primary ih bound s).bind fun _ _ => .after _ fun _ _ => .after _ fun _ s =>
      .ite (.refl _ s) (h.onward bound s ih)

/-- Where what follows an operand is looked for in the same way, it comes to the same. -/
theorem agree_onward (hp : scope'.policy = scope.policy) (bound : Nat) (s : State)
    (h : ∀ s, Agree excused (expression scope bound) (expression scope' bound) s) :
    Agree excused (onward scope bound) (onward scope' bound) s := by
  refine .after _ fun text s => ?_
  rw [hp]
  split
  · exact .refl _ s
  · exact .after _ fun _ _ => .after _ fun _ s => h s

/-- A formula is read as against the wider scope, apart from excused errors. -/
theorem Scope.Widens.read (h : scope.Widens excused scope') (text : String) :
    read scope' text = read scope text ∨ ∃ e, (read scope text).error? = some e ∧ excused e := by
  have formulas : ∀ s, Agree excused (formula scope text) (formula scope' text) s := fun s =>
    (h.expression _ s).bind fun _ s => .refl _ s
  rcases ht : target? (.ofText text) with ⟨target, c⟩
  unfold Reading.read
  dsimp only
  rw [ht]
  rcases formulas { cursor := c } with same | ⟨e, s, he, hx⟩
  · unfold formula at same
    rw [same]
    exact .inl rfl
  · unfold formula at he
    rw [he]
    exact .inr ⟨e, rfl, hx⟩

end Widens

/-! ## Three ways to widen a scope -/

/-- More names: what was not bound may be bound. -/
theorem widens_names {scope scope' : Scope} (hp : scope'.policy = scope.policy)
    (hl : scope'.nestingLimit = scope.nestingLimit) (hb : ∀ name, scope.binds name = true → scope'.binds name = true) :
    scope.Widens (fun e => ∃ name, e.fault = .undefinedVariable name) scope' where
  enter bracket s := by
    rw [hl]
    exact .refl _ s
  bound name s := by
    cases known : scope.binds name with
    | true =>
      rw [hb name known]
      exact .refl _ s
    | false => exact agree_of_ends (ends_require.2 ⟨name, rfl⟩)
  onward bound s h := agree_onward hp bound s h

/-- More levels: what nested too deep may be read. -/
theorem widens_limit {scope scope' : Scope} (hp : scope'.policy = scope.policy) (hb : scope'.binds = scope.binds)
    (hl : scope.nestingLimit ≤ scope'.nestingLimit) :
    scope.Widens (fun e => e.fault = .nestingTooDeep scope.nestingLimit) scope' where
  enter bracket s := by
    by_cases room : s.brackets.length < scope.nestingLimit
    · left
      rw [enter, enter, if_pos room, if_pos (Nat.lt_of_lt_of_le room hl)]
    · refine agree_of_ends (ends_enter.2 ?_)
      rw [if_neg room]
      rfl
  bound name s := by
    rw [hb]
    exact .refl _ s
  onward bound s h := agree_onward hp bound s h

/-- The error at an operator that another one hides: an expression is expected between the sign that
was found and the equals sign behind it. -/
structure HiddenOperator (e : ReadError) : Prop where
  fault : e.fault = .expectedExpression
  parsed : ∃ read sign, e.parsed.toList = read ++ [sign] ∧ (sign = '>' ∨ sign = '<')
  found : e.found = some '='

/-- No expression begins with an equals sign. -/
theorem ends_expression_equals (scope : Scope) (bound : Nat) (past rest : List Char) (lexeme : String)
    (brackets : List Bracket) (tokens : List Token) :
    Ends (expression scope bound) ⟨⟨past, '=' :: rest, lexeme⟩, brackets, tokens⟩ (fun _ _ => False)
      fun e _ => e = ⟨.expectedExpression, String.ofList past.reverse, some '='⟩ := by
  cases bound with
  | zero => rfl
  | succ bound =>
    have still : Cursor.skipBlanks ⟨past, '=' :: rest, lexeme⟩ = ⟨past, '=' :: rest, lexeme⟩ := rfl
    have nothing : functionAt? scope ⟨past, '=' :: rest, lexeme⟩ = none := functionAt?_of_head rfl rfl
    unfold expression primary
    simp only [ends_bind, ends_move, ends_look, ends_ite, id, still, nothing]
    simp [Cursor.isAt, Cursor.isAtAny, Cursor.current, isDigit, isNameChar, Cursor.error, Cursor.consumed]

/-- Longer symbols: what another operator hid is found. -/
theorem widens_policy {scope scope' : Scope} (hp : scope.policy = .firstAccepting) (hp' : scope'.policy = .longest)
    (hl : scope'.nestingLimit = scope.nestingLimit) (hb : scope'.binds = scope.binds) :
    scope.Widens HiddenOperator scope' where
  enter bracket s := by
    rw [hl]
    exact .refl _ s
  bound name s := by
    rw [hb]
    exact .refl _ s
  onward bound s h := by
    unfold onward
    rw [agree_look, hp, hp']
    rcases operatorAt_policies s.cursor.ahead with same | ⟨other, rest, hother, htext, hfirst⟩
    · rw [same]
      split
      · exact .refl _ s
      · exact .after _ fun _ _ => .after _ fun _ s => h s
    · -- against the first scope, the expression behind the shorter operator fails at once
      rcases s with ⟨⟨past, ahead, lexeme⟩, brackets, tokens⟩
      simp only at htext hfirst
      subst htext
      rw [hfirst]
      apply agree_of_ends
      simp only [ends_bind, ends_move, ends_emit]
      have hidden : ∀ sign, sign = '>' ∨ sign = '<' →
          HiddenOperator ⟨.expectedExpression, String.ofList (sign :: past).reverse, some '='⟩ :=
        fun sign hs => ⟨rfl, ⟨past.reverse, sign, by simp, hs⟩, rfl⟩
      rcases hother with rfl | rfl
      · exact (ends_expression_equals scope bound ('>' :: past) rest _ _ _).mono (fun _ _ h => h)
          fun e _ he => he ▸ hidden '>' (.inl rfl)
      · exact (ends_expression_equals scope bound ('<' :: past) rest _ _ _).mono (fun _ _ h => h)
          fun e _ he => he ▸ hidden '<' (.inr rfl)

end Formulary.Reading
