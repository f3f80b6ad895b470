/-
Reading first and building afterwards. A session reads a formula and builds its tree in one pass; it
comes to the same to read all tokens of the text and to take them then. So what is read does not depend
on what is built: it depends on the text, the options and which names are bound.
-/
import Formulary.Session
import Formulary.Proofs.Reading.Return

namespace Formulary

open Reading Text

namespace Session

/-- What formulas are read against. -/
def scope (s : Session) : Scope where
  policy := s.options.matchPolicy
  nestingLimit := s.options.maxNestingDepth
  binds := s.bindings.contains

/-- The draft of a formula before its first token. -/
def draft (s : Session) : Draft :=
  { forest := s.forest }

/-- What a session makes of a formula that has been read. -/
def build (s : Session) (text : String) (transcript : Transcript) : Answer (Except ReadError Unit) × Session :=
  let unfinished := transcript.stop.error .expectedExpression
  match s.draft.takeAll s.bindings transcript.tokens with
  | none => s.refuse text s.forest s.forest.size (transcript.error?.getD unfinished)
  | some d =>
    match transcript.error? with
    | some error => s.refuse text d.forest s.forest.size error
    | none =>
      match d.yard.finish d.forest with
      | (none, forest) => s.refuse text forest s.forest.size unfinished
      | (some root, forest) => s.accept text transcript.target root forest d.width

/-- The driver of a formula behind the name that it is assigned to. -/
def driver (s : Session) (c : Cursor) : Driver where
  cursor := c
  forest := s.forest

/-- The driver's part of a formula that is read: the expression up to the end of the text. -/
def drive (s : Session) (text : String) : Drive Unit := do
  Driver.expression s.options s.bindings ((Cursor.ofText text).ahead.length + 1)
  Driver.require (!·.hasMore) .expectedOperator

variable (s : Session) (text : String)

/-- Whatever comes of reading a formula, its tokens can be taken. -/
theorem formula_leads {c : Cursor} (hl : c.lexeme = "") : Ends (formula s.scope text) (s.driver c).state
    (fun _ s' => ∃ d, Leads s.bindings (s.driver c).state (s.driver c).draft s' d)
    fun _ s' => ∃ d, Leads s.bindings (s.driver c).state (s.driver c).draft s' d := by
  have leads : Ends (expression s.scope ((Cursor.ofText text).ahead.length + 1)) (s.driver c).state _ _ :=
    expression_leads (fun _ h => h) hl (s.driver c).draft
  unfold formula
  rw [ends_bind]
  refine leads.mono ?_ fun _ _ h => h
  intro _ s' leads
  rw [ends_require]
  split <;> exact leads

theorem drives_formula {c : Cursor} (hl : c.lexeme = "") :
    Driver.Drives s.bindings (formula s.scope text) (s.drive text) (s.driver c) := by
  refine Driver.drives_of_mirrors (fun lists => ?_) (s.formula_leads text hl)
  exact (mirrors_expression s.options _ lists).bind fun _ _ => inStep_require (placed_level lists) _ _

/-- What all tokens of a text come to. -/
theorem takeAll_of_leads {c : Cursor} {s' : State} {d : Draft}
    (h : Leads s.bindings (s.driver c).state (s.driver c).draft s' d) :
    s.draft.takeAll s.bindings s'.tokens.reverse = some d := by
  obtain ⟨new, hnew, htake⟩ := h
  have all : s'.tokens.reverse = new := by rw [hnew, driver, Driver.state, List.append_nil, List.reverse_reverse]
  rw [all]
  exact htake

/-- Whatever has been read can be taken, also when it ends with an error. -/
theorem exists_takeAll : ∃ d, s.draft.takeAll s.bindings (read s.scope text).tokens = some d := by
  rcases ht : target? (.ofText text) with ⟨target, c⟩
  rcases read_cases ht (s.formula_leads text (lexeme_of_target? ht)) with ⟨s', ⟨d, leads⟩, hread⟩ |
    ⟨e, s', ⟨d, leads⟩, hread⟩
  · exact ⟨d, by rw [hread]; exact s.takeAll_of_leads leads⟩
  · exact ⟨d, by rw [hread]; exact s.takeAll_of_leads leads⟩

/-- What comes of the driver's pass over a text. -/
theorem parse_drive {target : Option String} {c : Cursor} (ht : target? (.ofText text) = (target, c)) :
    s.parse text = match s.drive text (s.driver c) with
      | .error error d => s.refuse text d.forest s.forest.size error
      | .ok () d => match d.yard.finish d.forest with
        | (none, forest) => s.refuse text forest s.forest.size (d.cursor.error .expectedExpression)
        | (some root, forest) => s.accept text target root forest d.width := by
  have run : Driver.run s.options s.bindings s.forest text = (s.drive text >>= fun _ => Driver.finish >>= fun root =>
      pure (target, root)) (s.driver c) := by
    unfold Driver.run Driver.formula drive
    simp only [bind_assoc]
    simp only [bind, EStateM.bind, Driver.assignmentTarget, Driver.start, ht]
    rfl
  unfold parse
  rw [run]
  simp only [bind, EStateM.bind]
  cases s.drive text (s.driver c) with
  | error e d => rfl
  | ok _ d =>
    simp only [Driver.finish]
    rcases d.yard.finish d.forest with ⟨- | root, forest⟩ <;> rfl

/-- Parsing is reading the tokens of a text and then building what they come to. -/
theorem parse_eq : s.parse text = s.build text (read s.scope text) := by
  rcases ht : target? (.ofText text) with ⟨target, c⟩
  have drives := s.drives_formula text (lexeme_of_target? ht)
  rw [s.parse_drive text ht]
  rcases read_cases ht drives with ⟨s', ⟨d, leads, run, -⟩, hread⟩ | ⟨e, s', ⟨d, d', leads, run, beside⟩, hread⟩
  · unfold build
    simp only [run, hread, s.takeAll_of_leads leads]
    rfl
  · unfold build
    simp only [run, hread, s.takeAll_of_leads leads, beside.forest]

variable {s text}

/-- What has been read with an error is refused. -/
theorem parse_of_error {d : Draft} {error : ReadError}
    (hd : s.draft.takeAll s.bindings (read s.scope text).tokens = some d)
    (he : (read s.scope text).error? = some error) : s.parse text = s.refuse text d.forest s.forest.size error := by
  rw [parse_eq]
  unfold build
  simp only [hd, he]

end Session

end Formulary
