/-
Reading comes back to where it began. Wherever an expression or a primary is read, what was begun
around it is found again as it was left: the brackets, the lists with the formulas around them, the
nodes of the forest and the number of open parentheses. All that there is more of is text that has
been read, tokens, and atoms in the formula at hand, which make a tree if it was a new one.
-/
import Formulary.Proofs.Reading.Building
import Formulary.Proofs.Reading.Driver
import Formulary.Proofs.Reading.Steps

namespace Formulary

open Infix Text

/-- Operands with operators between them leave as many parentheses open as there were, whatever waits
in the yard and however their operators send it out. -/
theorem depth_pushAll_weave {rows : List (List Atom)} {ts : List Tree} (h : List.Forall₂ (Converts · · none) rows ts)
    (ops : List Operator) (y : Yard) : (y.pushAll (weave rows ops)).depth = y.depth := by
  induction h generalizing ops y with
  | nil => rfl
  | cons first _ ih =>
    cases ops with
    | nil => exact first.depth y
    | cons op ops =>
      rw [weave, Yard.pushAll_append]
      exact (ih ops _).trans (first.depth y)

theorem Text.Cursor.Along.position_lt {c c' : Cursor} (h : c.Along c') (hl : c'.ahead.length < c.ahead.length) :
    c.position < c'.position := by
  obtain ⟨read, hahead, hpast⟩ := h
  rw [hahead, List.length_append] at hl
  unfold Cursor.position
  rw [hpast, List.length_append, List.length_reverse]
  omega

namespace Reading

/-! ## Drafts -/

/-- Of two drafts the later one has the same lists open and the same nodes, and in the formula at hand
as many parentheses are open. -/
structure Draft.Level (d d' : Draft) : Prop where
  lists : d'.lists = d.lists
  nodes : d'.forest.nodes = d.forest.nodes
  depth : d'.yard.depth = d.yard.depth

variable {b : Bindings}

/-- Taking a primary keeps the level. -/
theorem Phrase.exists_level {p : Phrase .primary} (ha : p.Applied) (hb : ∀ n ∈ p.names, b.contains n = true)
    (d : Draft) : ∃ d', d.takeAll b p.tokens = some d' ∧ d.Level d' := by
  rcases d with ⟨f, y, lists, width⟩
  obtain ⟨t, g, builds⟩ := p.exists_builds ha hb f
  obtain ⟨as, converts, puts⟩ := builds.carries ha
  obtain ⟨width', hw⟩ := puts y lists width
  exact ⟨_, hw, rfl, builds.nodes, converts.depth y⟩

/-- Taking an expression keeps the level, and completes a formula that is new. -/
theorem Phrase.exists_level_finish {p : Phrase .expression} (ha : p.Applied)
    (hb : ∀ n ∈ p.names, b.contains n = true) (d : Draft) : ∃ d', d.takeAll b p.tokens = some d' ∧ d.Level d' ∧
      (d.yard = {} → ∃ root f, d'.yard.finish d'.forest = (some root, f)) := by
  rcases d with ⟨f, y, lists, width⟩
  obtain ⟨⟨ops, ts⟩, g, builds⟩ := p.exists_builds ha hb f
  obtain ⟨rows, converts, puts⟩ := builds.carries ha
  obtain ⟨width', hw⟩ := puts y lists width
  refine ⟨_, hw, ⟨rfl, builds.nodes, depth_pushAll_weave converts ops y⟩, ?_⟩
  rintro rfl
  obtain ⟨hlen, happlied⟩ := builds.suits ha
  obtain ⟨t, groups⟩ := Groups.exists_of_length hlen
  exact ⟨_, _, groups.finish_weave converts happlied g⟩

/-! ## Readers -/

/-- A reader has come back. From one state to the other it has read some text, but nothing is left of a
lexeme, and it has closed all brackets that it opened; taking its tokens leads from one draft to the
other and keeps the level. -/
structure Returned (b : Bindings) (s : State) (d : Draft) (s' : State) (d' : Draft) : Prop extends d.Level d' where
  brackets : s'.brackets = s.brackets
  lexeme : s'.cursor.lexeme = ""
  advanced : s.cursor.position < s'.cursor.position
  tokens : Leads b s d s' d'

variable {scope : Scope} {bound : Nat} {s s' : State}

/-- What of a phrase has been read can be taken if the phrase can. -/
theorem Began.exists_leads {k : Kind} {p : Phrase k} (h : Began scope p s s') {d d' : Draft}
    (hd : d.takeAll b p.tokens = some d') : ∃ d'', Leads b s d s' d'' := by
  obtain ⟨-, -, read, ⟨more, hmore⟩, htokens⟩ := h
  rw [← hmore, Draft.takeAll_append] at hd
  obtain ⟨d'', hd'', -⟩ := Option.bind_eq_some_iff.1 hd
  exact ⟨d'', read, htokens, hd''⟩

/-- A phrase that was read from the cursor on, or from behind some blanks there. -/
theorem Took.returned {k : Kind} {p : Phrase k} {c : Cursor} {d d' : Draft} (h : Took scope p { s with cursor := c } s')
    (hc : c.ahead.length ≤ s.cursor.ahead.length) (along : s.cursor.Along s'.cursor)
    (hd : d.takeAll b p.tokens = some d') (level : d.Level d') : Returned b s d s' d' where
  toLevel := level
  brackets := h.brackets
  lexeme := h.lexeme
  advanced := along.position_lt (Nat.lt_of_lt_of_le h.spells.length_lt hc)
  tokens := ⟨p.tokens, h.tokens, hd⟩

section Readers

variable (hb : ∀ n, scope.binds n = true → b.contains n = true) (hl : s.cursor.lexeme = "")
include hb hl

/-- Reading an expression comes back, and completes a formula that is new. -/
theorem expression_returned (h : expression scope bound s = .ok () s') (d : Draft) : ∃ d', Returned b s d s' d' ∧
    (d.yard = {} → ∃ root f, d'.yard.finish d'.forest = (some root, f)) := by
  obtain ⟨p, took⟩ := (sound_expression scope bound s hl).ok h
  obtain ⟨d', hd, level, finishes⟩ := Phrase.exists_level_finish took.applied (fun n hn => hb n (took.bound n hn)) d
  have along := ((stepwise_expression scope bound s).ok h).along
  exact ⟨d', took.returned (Nat.le_refl _) along hd level, finishes⟩

/-- Reading a primary comes back. -/
theorem primary_returned (h : primary scope (expression scope bound) bound s = .ok () s') (d : Draft) :
    ∃ d', Returned b s d s' d' := by
  obtain ⟨p, took⟩ := (takes_primary (sound_expression scope bound) bound hl).ok h
  obtain ⟨d', hd, level⟩ := Phrase.exists_level took.applied (fun n hn => hb n (took.bound n hn)) d
  have along := ((stepwise_primary (stepwise_expression scope bound) bound s).ok h).along
  exact ⟨d', took.returned (List.length_dropWhile_le isBlank _) along hd level⟩

/-- Whatever reading comes to in an expression, its tokens can be taken. -/
theorem expression_leads (d : Draft) :
    Ends (expression scope bound) s (fun _ s' => ∃ d', Leads b s d s' d') fun _ s' => ∃ d', Leads b s d s' d' := by
  have leads : ∀ {s'} {p : Phrase .expression}, Began scope p s s' → ∃ d', Leads b s d s' d' := by
    intro s' p began
    obtain ⟨d', hd, -⟩ := Phrase.exists_level_finish began.applied (fun n hn => hb n (began.bound n hn)) d
    exact began.exists_leads hd
  exact (sound_expression scope bound s hl).mono (fun _ _ ⟨_, took⟩ => leads took.began)
    fun _ _ ⟨_, began⟩ => leads began

/-- Whatever reading comes to in a primary, its tokens can be taken. -/
theorem primary_leads (d : Draft) : Ends (primary scope (expression scope bound) bound) s
    (fun _ s' => ∃ d', Leads b s d s' d') fun _ s' => ∃ d', Leads b s d s' d' := by
  have leads : ∀ {s'} {p : Phrase .primary}, Began scope p { s with cursor := s.cursor.skipBlanks } s' →
      ∃ d', Leads b s d s' d' := by
    intro s' p began
    obtain ⟨d', hd, -⟩ := Phrase.exists_level began.applied (fun n hn => hb n (began.bound n hn)) d
    exact began.exists_leads hd
  exact (takes_primary (sound_expression scope bound) bound hl).mono (fun _ _ ⟨_, took⟩ => leads took.began)
    fun _ _ ⟨_, began⟩ => leads began

end Readers

/-! ## The driver -/

namespace Driver

variable {options : Options} {bound : Nat} {d d' : Driver}

/-- The driver has come back: some text has been read but nothing is left of a lexeme, and the brackets, the
yards that rest, the nodes and the open parentheses of the yard at hand are the same. -/
structure Returned (d d' : Driver) : Prop where
  brackets : d'.brackets = d.brackets
  resting : d'.resting = d.resting
  nodes : d'.forest.nodes = d.forest.nodes
  depth : d'.yard.depth = d.yard.depth
  lexeme : d'.cursor.lexeme = ""
  advanced : d.cursor.position < d'.cursor.position

/-- It has where reading has. -/
theorem returned_of {s' : State} {draft' : Draft} (h : Reading.Returned b d.state d.draft s' draft') :
    d.Returned (.of s' draft') where
  brackets := h.brackets
  resting := by
    show draft'.lists.map OpenList.outer = d.resting
    rw [h.lists]
    simp [draft, Function.comp_def]
  nodes := h.nodes
  depth := h.depth
  lexeme := h.lexeme
  advanced := h.advanced

variable (hl : d.cursor.lexeme = "")
include hl

/-- The driver reads expressions as reading does. -/
theorem drives_expression (options : Options) (bound : Nat) :
    Drives b (Reading.expression (.of options b) bound) (expression options b bound) d :=
  drives_of_mirrors (mirrors_expression options bound) (expression_leads (fun _ h => h) hl d.draft)

/-- The driver reads primaries as reading does. -/
theorem drives_primary (options : Options) (bound : Nat) :
    Drives b (Reading.primary (.of options b) (Reading.expression (.of options b) bound) bound)
      (primary options b (expression options b bound) bound) d :=
  drives_of_mirrors (fun _ => mirrors_primary (mirrors_expression options bound) options bound)
    (primary_leads (fun _ h => h) hl d.draft)

/-- Driving an expression comes back, and completes a yard that is fresh. -/
theorem expression_returned (h : expression options b bound d = .ok () d') : d.Returned d' ∧
    (d.yard = {} → ∃ root f, d'.yard.finish d'.forest = (some root, f)) := by
  obtain ⟨s', draft', hr, leads, lists, rfl⟩ := (drives_expression hl options bound).ok h
  obtain ⟨draft'', returned, finishes⟩ := Reading.expression_returned (fun _ h => h) hl hr d.draft
  cases leads.unique returned.tokens
  exact ⟨returned_of returned, finishes⟩

/-- An item fails only where its expression does: a tree comes out of every other. -/
theorem item_error {e : ReadError} (h : item (expression options b bound) d = .error e d') :
    ∃ d'', expression options b bound d.pause = .error e d'' := by
  have resting : d.pause.cursor.lexeme = "" := hl
  unfold item at h
  dsimp only at h
  split at h
  · rename_i e' d'' hexpression
    cases h
    exact ⟨d'', hexpression⟩
  · rename_i d'' hexpression
    obtain ⟨root, f, hfin⟩ := (expression_returned resting hexpression).2 rfl
    rw [hfin] at h
    cases h

/-- Driving a primary comes back. -/
theorem primary_returned (h : primary options b (expression options b bound) bound d = .ok () d') :
    d.Returned d' := by
  obtain ⟨s', draft', hr, leads, lists, rfl⟩ := (drives_primary hl options bound).ok h
  obtain ⟨draft'', returned⟩ := Reading.primary_returned (fun _ h => h) hl hr d.draft
  cases leads.unique returned.tokens
  exact returned_of returned

end Driver

end Reading

end Formulary
