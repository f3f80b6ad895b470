/-
Reading goes by steps. A step goes on in the text, completes a token, or opens or closes a bracket,
and it completes no operator that the policy cannot find. Whatever a reader comes to, well or not, it
comes to by such steps, and where it fails, it fails at the cursor. So what every step keeps, reading
keeps.
-/
import Formulary.Proofs.Reading.Soundness
import Formulary.Proofs.Symbols.Shadow

namespace Formulary

open Text

namespace Text.Cursor

/-- A cursor has gone on in its text. -/
def Along (c c' : Cursor) : Prop :=
  ∃ read, c.ahead = read ++ c'.ahead ∧ c'.past = read.reverse ++ c.past

theorem Along.refl (c : Cursor) : c.Along c :=
  ⟨[], rfl, rfl⟩

theorem Along.trans {c c' c'' : Cursor} (h : c.Along c') (h' : c'.Along c'') : c.Along c'' := by
  obtain ⟨read, hahead, hpast⟩ := h
  obtain ⟨more, hahead', hpast'⟩ := h'
  exact ⟨read ++ more, by rw [hahead, hahead', List.append_assoc],
    by rw [hpast', hpast, List.reverse_append, List.append_assoc]⟩

/-- The text as a whole stays the same. -/
theorem Along.text {c c' : Cursor} (h : c.Along c') : c'.past.reverse ++ c'.ahead = c.past.reverse ++ c.ahead := by
  obtain ⟨read, hahead, hpast⟩ := h
  simp [hahead, hpast]

theorem along_skip (c : Cursor) : c.Along c.skip := by
  rcases c with ⟨past, - | ⟨x, rest⟩, lexeme⟩
  · exact .refl _
  · exact ⟨[x], rfl, rfl⟩

theorem along_skipBlanks (c : Cursor) : c.Along c.skipBlanks :=
  ⟨c.ahead.takeWhile isBlank, List.takeWhile_append_dropWhile.symm, rfl⟩

theorem along_gather (c : Cursor) (count : Nat) : c.Along (c.gather count) :=
  ⟨c.ahead.take count, (List.take_append_drop ..).symm, rfl⟩

theorem along_gatherWhile (c : Cursor) (test : Char → Bool) : c.Along (c.gatherWhile test) :=
  ⟨c.ahead.takeWhile test, List.takeWhile_append_dropWhile.symm, rfl⟩

end Text.Cursor

namespace Reading

open Symbols Relation

/-! ## Steps -/

/-- A token that reading may complete: an operator only if the policy can find it. -/
def Token.Found (scope : Scope) (token : Token) : Prop :=
  ∀ op, token.kind = .operator op → scope.policy.Finds op

/-- One step of reading. -/
inductive State.Step (scope : Scope) : State → State → Prop
  | move {s : State} {c : Cursor} : s.cursor.Along c → Step scope s { s with cursor := c }
  | token {s : State} {t : Token} : t.Found scope → Step scope s { s with tokens := t :: s.tokens }
  | bracket (s : State) (brackets : List Bracket) : Step scope s { s with brackets := brackets }

/-- Any number of steps. -/
def State.Run (scope : Scope) : State → State → Prop :=
  ReflTransGen (State.Step scope)

section Kept

variable {scope : Scope} {s s' : State}

/-- Steps go on in the text. -/
theorem State.Run.along (h : State.Run scope s s') : s.cursor.Along s'.cursor := by
  induction h with
  | refl => exact .refl _
  | tail _ step ih =>
    cases step with
    | move along => exact ih.trans along
    | token | bracket => exact ih

/-- Steps add tokens, and find every operator among them. -/
theorem State.Run.tokens (h : State.Run scope s s') :
    ∃ new, s'.tokens = new ++ s.tokens ∧ ∀ t ∈ new, t.Found scope := by
  induction h with
  | refl => exact ⟨[], rfl, by simp⟩
  | tail _ step ih =>
    obtain ⟨new, htokens, hfound⟩ := ih
    cases step with
    | token found => exact ⟨_ :: new, by rw [htokens]; rfl, by simpa using ⟨found, hfound⟩⟩
    | move | bracket => exact ⟨new, htokens, hfound⟩

end Kept

/-! ## Readers -/

/-- A reader goes by steps, and fails at the cursor. -/
def Stepwise (scope : Scope) {α : Type} (r : Reader α) : Prop :=
  ∀ s, Ends r s (fun _ s' => State.Run scope s s') fun e s' =>
    State.Run scope s s' ∧ ∃ fault, e = s'.cursor.error fault

section Rules

variable {scope : Scope} {α β : Type}

theorem Stepwise.bind {r : Reader β} {k : β → Reader α} (hr : Stepwise scope r) (hk : ∀ b, Stepwise scope (k b)) :
    Stepwise scope (r >>= k) := by
  intro s
  rw [ends_bind]
  refine (hr s).mono (fun b s' run => ?_) fun e s' h => h
  refine (hk b s').mono (fun a s'' run' => run.trans run') fun e s'' h => ⟨run.trans h.1, h.2⟩

theorem stepwise_pure (a : α) : Stepwise scope (pure a) :=
  fun _ => .refl

theorem stepwise_fail (fault : Fault) : Stepwise scope (fail fault : Reader α) :=
  fun _ => ⟨.refl, fault, rfl⟩

theorem stepwise_look (view : Cursor → α) : Stepwise scope (look view) :=
  fun _ => .refl

theorem stepwise_get : Stepwise scope get :=
  fun _ => .refl

theorem Stepwise.ite {c : Prop} [Decidable c] {r r' : Reader α} (h : Stepwise scope r) (h' : Stepwise scope r') :
    Stepwise scope (if c then r else r') := by
  split
  · exact h
  · exact h'

theorem stepwise_require (condition : Cursor → Bool) (fault : Fault) : Stepwise scope (require condition fault) := by
  intro s
  rw [ends_require]
  split
  · exact .refl
  · exact ⟨.refl, fault, rfl⟩

theorem stepwise_move {step : Cursor → Cursor} (h : ∀ c : Cursor, c.Along (step c)) : Stepwise scope (move step) :=
  fun s => .single (.move (h s.cursor))

theorem stepwise_emit {kind : TokenKind} (h : ∀ op, kind = .operator op → scope.policy.Finds op) :
    Stepwise scope (emit kind) := by
  intro s
  have taken : State.Step scope s { s with cursor := { s.cursor with lexeme := "" } } := .move (.refl _)
  exact .tail (.single taken) (.token (t := ⟨s.cursor.lexeme, kind⟩) h)

theorem stepwise_note {kind : TokenKind} (h : ∀ op, kind = .operator op → scope.policy.Finds op) :
    Stepwise scope (note kind) :=
  fun _ => .single (.token (t := ⟨"", kind⟩) h)

theorem stepwise_enter (limit : Nat) (bracket : Bracket) : Stepwise scope (enter limit bracket) := by
  intro s
  rw [ends_enter]
  split
  · exact .single (.bracket s _)
  · exact ⟨.refl, _, rfl⟩

theorem stepwise_leave : Stepwise scope leave :=
  fun s => .single (.bracket s _)

end Rules

section Readers

variable {scope : Scope} {inner : Reader Unit}

theorem stepwise_digits (fault : Fault) : Stepwise scope (digits fault) :=
  (stepwise_require _ _).bind fun _ => stepwise_move fun c => c.along_gatherWhile _

theorem stepwise_unsigned : Stepwise scope unsigned := by
  have number : Stepwise scope (emit .number) := stepwise_emit (by simp)
  refine (stepwise_digits _).bind fun _ => (stepwise_look _).bind fun _ => .ite ?_ number
  exact (stepwise_move fun c => c.along_gather 1).bind fun _ => (stepwise_digits _).bind fun _ => number

theorem stepwise_numeral : Stepwise scope numeral := by
  refine (stepwise_look _).bind fun _ => .ite ?_ stepwise_unsigned
  exact (stepwise_move fun c => c.along_gather 1).bind fun _ => stepwise_unsigned

theorem stepwise_boundName : Stepwise scope (boundName scope) :=
  (stepwise_move fun c => c.along_gatherWhile _).bind fun _ => (stepwise_look _).bind fun _ =>
    (stepwise_require _ _).bind fun _ => stepwise_emit (by simp)

theorem stepwise_expect (char : Char) (mark : Infix.Mark) (fault : Fault) :
    Stepwise scope (expect char mark fault) :=
  (stepwise_require _ _).bind fun _ => (stepwise_move fun c => c.along_gather 1).bind fun _ => stepwise_emit (by simp)

theorem stepwise_group (h : Stepwise scope inner) : Stepwise scope (group scope inner) :=
  (stepwise_enter _ _).bind fun _ => (stepwise_move fun c => c.along_gather 1).bind fun _ =>
    (stepwise_emit (by simp)).bind fun _ => h.bind fun _ => (stepwise_expect _ _ _).bind fun _ => stepwise_leave

theorem stepwise_arguments (h : Stepwise scope inner) (n : Nat) : Stepwise scope (arguments inner n) := by
  induction n using arguments.induct with
  | case1 => exact stepwise_pure ()
  | case2 => exact h
  | case3 count ih => exact h.bind fun _ => (stepwise_expect _ _ _).bind fun _ => ih

theorem stepwise_call (h : Stepwise scope inner) (f : Builtin) (length : Nat) :
    Stepwise scope (call scope inner f length) := by
  refine (stepwise_move fun c => c.along_gather length).bind fun _ => (stepwise_emit (by simp)).bind fun _ => ?_
  refine .ite (stepwise_pure ()) ?_
  exact (stepwise_require _ _).bind fun _ => (stepwise_enter _ _).bind fun _ =>
    (stepwise_move fun c => c.along_gather 1).bind fun _ => (stepwise_emit (by simp)).bind fun _ =>
    (stepwise_arguments h _).bind fun _ => (stepwise_expect _ _ _).bind fun _ => stepwise_leave

theorem stepwise_listItems (h : Stepwise scope inner) (n : Nat) : Stepwise scope (listItems inner n) := by
  induction n with
  | zero => exact stepwise_fail _
  | succ n ih =>
    refine (stepwise_move Cursor.along_skipBlanks).bind fun _ => h.bind fun _ => (stepwise_note (by simp)).bind fun _ =>
      (stepwise_look _).bind fun _ => .ite ?_ (stepwise_pure ())
    exact (stepwise_move Cursor.along_skip).bind fun _ => ih

theorem stepwise_listLiteral (h : Stepwise scope inner) (n : Nat) : Stepwise scope (listLiteral scope inner n) :=
  (stepwise_enter _ _).bind fun _ => (stepwise_move Cursor.along_skip).bind fun _ =>
    (stepwise_note (by simp)).bind fun _ => (stepwise_listItems h n).bind fun _ => (stepwise_require _ _).bind fun _ =>
    (stepwise_move Cursor.along_skip).bind fun _ => stepwise_leave.bind fun _ => stepwise_emit (by simp)

theorem stepwise_primary (h : Stepwise scope inner) (n : Nat) : Stepwise scope (primary scope inner n) := by
  refine (stepwise_move Cursor.along_skipBlanks).bind fun _ => (stepwise_look _).bind fun c => ?_
  refine .ite (stepwise_group h) (.ite stepwise_numeral ?_)
  split
  · exact stepwise_call h _ _
  · exact .ite stepwise_boundName (.ite (stepwise_listLiteral h n) (stepwise_fail _))

/-- Expressions are read by steps. -/
theorem stepwise_expression (scope : Scope) (bound : Nat) : Stepwise scope (expression scope bound) := by
  induction bound with
  | zero => exact stepwise_fail _
  | succ bound ih =>
    refine (stepwise_primary ih bound).bind fun _ => (stepwise_move Cursor.along_skipBlanks).bind fun _ =>
      stepwise_get.bind fun _ => .ite (stepwise_pure ()) ((stepwise_look _).bind fun text => ?_)
    split
    · exact stepwise_fail _
    · rename_i op length hop
      refine (stepwise_move fun c => c.along_gather length).bind fun _ => (stepwise_emit ?_).bind fun _ => ih
      rintro _ ⟨⟩
      exact finds_of_operatorAt hop

/-- And so are formulas, behind the names they are assigned to. -/
theorem stepwise_formula (scope : Scope) (text : String) : Stepwise scope (formula scope text) :=
  (stepwise_expression _ _).bind fun _ => stepwise_require _ _

end Readers

/-! ## Whole texts -/

/-- Reading begins somewhere in the text. -/
theorem text_of_target? {text : String} {target : Option String} {c : Cursor}
    (h : target? (.ofText text) = (target, c)) : c.past.reverse ++ c.ahead = text.toList := by
  unfold target? at h
  dsimp only at h
  split at h
  · have named := ((Cursor.ofText text).along_skipBlanks.trans (Cursor.along_gatherWhile _ isNameChar)).trans
      (Cursor.along_skipBlanks _)
    cases h
    exact (named.trans (Cursor.along_skip _)).text
  · have named := ((Cursor.ofText text).along_skipBlanks.trans (Cursor.along_gatherWhile _ isNameChar)).trans
      (Cursor.along_skipBlanks _)
    cases h
    exact named.text

/-- What stands before the expression of a formula: nothing, or a name and its equals sign. -/
theorem past_of_target? {text : String} {target : Option String} {c : Cursor}
    (h : target? (.ofText text) = (target, c)) : target = none ∧ c.past = [] ∨
      ∃ before after w, target = some (String.ofList w) ∧ w ≠ [] ∧ (∀ x ∈ w, isNameChar x = true) ∧
        c.past.reverse = blanks before ++ (w ++ (blanks after ++ ['='])) := by
  have whole := text_of_target? h
  cases target with
  | none =>
    rw [(target?_none h).2] at whole
    exact .inl ⟨rfl, by simpa using whole⟩
  | some name =>
    obtain ⟨-, before, after, w, rfl, hne, hw, -, htext⟩ := target?_some h
    have same : c.past.reverse ++ c.ahead = blanks before ++ (w ++ (blanks after ++ ['='])) ++ c.ahead := by
      rw [whole, htext]
      simp
    exact .inr ⟨before, after, w, rfl, hne, hw, List.append_cancel_right same⟩

/-- Every operator among the tokens of a text can be found. -/
theorem read_found (scope : Scope) (text : String) : ∀ token ∈ (read scope text).tokens, token.Found scope := by
  have found : ∀ {s s' : State}, State.Run scope s s' → s.tokens = [] →
      ∀ token ∈ s'.tokens.reverse, token.Found scope := by
    intro s s' run hs token ht
    obtain ⟨new, hnew, hfound⟩ := run.tokens
    rw [hnew, hs, List.append_nil, List.mem_reverse] at ht
    exact hfound token ht
  rcases ht : target? (.ofText text) with ⟨target, c⟩
  rcases read_cases ht (stepwise_formula scope text { cursor := c }) with ⟨s, run, hread⟩ | ⟨e, s, ⟨run, -⟩, hread⟩
  · rw [hread]
    exact found run rfl
  · rw [hread]
    exact found run rfl

end Reading

end Formulary
