/-
The driver reads and builds in one pass. That comes to the same as two passes, one that reads the tokens
and one that takes them: step by step the driver is where reading is, and has what the tokens read so far
come to. The two part only where the tokens cannot be taken.
-/
import Formulary.Proofs.Reading.Frame
import Formulary.Proofs.Reading.Outcome

namespace Formulary.Reading

open Text Infix Symbols

/-! ## What is read and what is built of it -/

/-- From one state to the other tokens have been read, and taking them leads from one draft to the
other. -/
def Leads (b : Bindings) (s : State) (d : Draft) (s' : State) (d' : Draft) : Prop :=
  ∃ new, s'.tokens = new.reverse ++ s.tokens ∧ d.takeAll b new = some d'

section Leads

variable {b : Bindings} {f : Forest} {s s' s'' : State} {d d' d'' : Draft}

theorem Leads.nothing (h : Leads b s d s' d') (hs : s'.tokens = s.tokens) : d' = d := by
  obtain ⟨new, hnew, htake⟩ := h
  rw [hs, List.self_eq_append_left, List.reverse_eq_nil_iff] at hnew
  subst hnew
  exact (Option.some.inj htake).symm

theorem Leads.token (h : Leads b s d s' d') {token : Token} (hs : s'.tokens = token :: s.tokens) :
    d.take b token = some d' := by
  obtain ⟨new, hnew, htake⟩ := h
  rw [hs, ← List.singleton_append, List.append_cancel_right_eq, eq_comm, List.reverse_eq_iff] at hnew
  subst hnew
  rw [List.reverse_singleton, Draft.takeAll] at htake
  split at htake
  · cases htake
  · rename_i next hnext
    rw [hnext]
    exact htake

/-- Tokens that are read in two goes are taken in two goes. -/
theorem Leads.split (h : Leads b s d s'' d'') (hs : s.tokens <:+ s'.tokens) (hs' : s'.tokens <:+ s''.tokens) :
    ∃ d', Leads b s d s' d' ∧ Leads b s' d' s'' d'' := by
  obtain ⟨new, hnew, htake⟩ := h
  obtain ⟨first, hfirst⟩ := hs
  obtain ⟨second, hsecond⟩ := hs'
  have parts : new = first.reverse ++ second.reverse := by
    rw [← hsecond, ← hfirst, ← List.append_assoc, List.append_cancel_right_eq] at hnew
    rw [← List.reverse_append, hnew, List.reverse_reverse]
  rw [parts, Draft.takeAll_append, Option.bind_eq_some_iff] at htake
  obtain ⟨d', hd', hd''⟩ := htake
  exact ⟨d', ⟨_, by rw [List.reverse_reverse, hfirst], hd'⟩, ⟨_, by rw [List.reverse_reverse, hsecond], hd''⟩⟩

theorem Leads.unique (h : Leads b s d s' d') (h' : Leads b s d s' d'') : d'' = d' := by
  obtain ⟨new, hnew, htake⟩ := h
  obtain ⟨new', hnew', htake'⟩ := h'
  rw [hnew, List.append_cancel_right_eq, List.reverse_inj] at hnew'
  subst hnew'
  exact Option.some.inj (htake'.symm.trans htake)

theorem Leads.rooted (h : Leads b s d s' d') (hd : d.Rooted f) : d'.Rooted f := by
  obtain ⟨new, -, htake⟩ := h
  exact hd.takeAll htake

end Leads

/-! ## The driver alongside -/

/-- The driver that is where reading is and has what a draft has. -/
def Driver.of (s : State) (draft : Draft) : Driver where
  cursor := s.cursor
  forest := draft.forest
  yard := draft.yard
  resting := draft.lists.map OpenList.outer
  brackets := s.brackets
  width := draft.width

/-- What the driver shares with reading and a draft also between the items of a list. -/
structure Beside (s : State) (draft : Draft) (d : Driver) : Prop where
  cursor : d.cursor = s.cursor
  brackets : d.brackets = s.brackets
  forest : d.forest = draft.forest
  width : d.width = draft.width

/-- The driver is alongside, and the open lists are known. -/
structure Level (lists : List OpenList) (s : State) (draft : Draft) (d : Driver) : Prop where
  driver : d = .of s draft
  lists : draft.lists = lists

/-- The driver is between two items of a list: the yard around the list is at hand again, and the values of
the list so far are known. -/
structure Between (lists : List OpenList) (values : Array Value) (s : State) (draft : Draft) (d : Driver) : Prop where
  driver : d = (Driver.of s draft).resume
  fresh : draft.yard = {}
  lists : ∃ outer mark, draft.lists = ⟨outer, mark, values⟩ :: lists

/-- A relation that speaks of the place in the text and the open brackets only in saying that they are
the same. -/
structure Placed (R : State → Draft → Driver → Prop) : Prop where
  beside : ∀ {s draft d}, R s draft d → Beside s draft d
  moved : ∀ {s draft d}, R s draft d → ∀ cursor, R { s with cursor := cursor } draft { d with cursor := cursor }
  nested : ∀ {s draft d}, R s draft d → ∀ brackets,
    R { s with brackets := brackets } draft { d with brackets := brackets }

theorem placed_level (lists : List OpenList) : Placed (Level lists) where
  beside := by
    rintro s draft d ⟨rfl, -⟩
    exact ⟨rfl, rfl, rfl, rfl⟩
  moved := by
    rintro s draft d ⟨rfl, hl⟩ cursor
    exact ⟨rfl, hl⟩
  nested := by
    rintro s draft d ⟨rfl, hl⟩ brackets
    exact ⟨rfl, hl⟩

theorem placed_between (lists : List OpenList) (values : Array Value) : Placed (Between lists values) where
  beside := by
    rintro s draft d ⟨rfl, -, -⟩
    exact ⟨rfl, rfl, rfl, rfl⟩
  moved := by
    rintro s draft d ⟨rfl, hy, hl⟩ cursor
    exact ⟨rfl, hy, hl⟩
  nested := by
    rintro s draft d ⟨rfl, hy, hl⟩ brackets
    exact ⟨rfl, hy, hl⟩

/-- The driver does what the reader does. From a state and a driver that are related they end alike and
related again, or fail with the same error and beside each other; unless the tokens read cannot be taken.
Tokens are only ever added. -/
structure InStep (b : Bindings) (f : Forest) {α β : Type} (before : State → Draft → Driver → Prop) (r : Reader α)
    (m : Drive β) (after : α → β → State → Draft → Driver → Prop) : Prop where
  grows : ∀ s, Ends r s (fun _ s' => s.tokens <:+ s'.tokens) fun _ s' => s.tokens <:+ s'.tokens
  alike : ∀ {s draft d}, draft.Rooted f → before s draft d → Ends r s
    (fun a s' => ∀ draft', Leads b s draft s' draft' → ∃ x d', m d = .ok x d' ∧ after a x s' draft' d')
    fun e s' => ∀ draft', Leads b s draft s' draft' → ∃ d', m d = .error e d' ∧ Beside s' draft' d'

/-! ## Rules -/

section Rules

variable {b : Bindings} {f : Forest} {α β γ δ : Type} {before R : State → Draft → Driver → Prop}

theorem Driver.bind_ok {m : Drive δ} {k : δ → Drive β} {d d' : Driver} {x : δ} (h : m d = .ok x d') :
    (m >>= k) d = k x d' := by
  show EStateM.bind m k d = _
  unfold EStateM.bind
  rw [h]

theorem Driver.bind_error {m : Drive δ} {k : δ → Drive β} {d d' : Driver} {e : ReadError} (h : m d = .error e d') :
    (m >>= k) d = .error e d' := by
  show EStateM.bind m k d = _
  unfold EStateM.bind
  rw [h]

/-- A sequence of steps. The tokens of the whole are those of the first part and then those of the rest, so
wherever they can be taken, the first part has led the driver to where the rest begins. -/
theorem InStep.bind [Nonempty δ] {r : Reader γ} {m : Drive δ} {mid : γ → δ → State → Draft → Driver → Prop}
    {k : γ → Reader α} {k' : δ → Drive β} {after : α → β → State → Draft → Driver → Prop}
    (hr : InStep b f before r m mid) (hk : ∀ a x, InStep b f (mid a x) (k a) (k' x) after) :
    InStep b f before (r >>= k) (m >>= k') after := by
  obtain ⟨x₀⟩ := ‹Nonempty δ›
  constructor
  · intro s
    rw [ends_bind]
    refine (hr.grows s).mono (fun a s' grown => ?_) fun e s' h => h
    exact ((hk a x₀).grows s').mono (fun _ _ more => grown.trans more) fun _ _ more => grown.trans more
  · intro s draft d rooted related
    rw [ends_bind]
    refine ((hr.grows s).and (hr.alike rooted related)).mono ?_ ?_
    · rintro a s' ⟨grown, follows⟩
      have rest := Ends.all fun draft' (taken : Leads b s draft s' draft') => by
        obtain ⟨x, d', hm, related'⟩ := follows draft' taken
        have run : (m >>= k') d = k' x d' := Driver.bind_ok hm
        have alike := (hk a x).alike (taken.rooted rooted) related'
        rwa [← run] at alike
      refine (((hk a x₀).grows s').and rest).mono ?_ ?_
      · rintro a' s'' ⟨grown', follows'⟩ draft'' taken
        obtain ⟨draft', taken', taken''⟩ := taken.split grown grown'
        exact follows' draft' taken' draft'' taken''
      · rintro e s'' ⟨grown', follows'⟩ draft'' taken
        obtain ⟨draft', taken', taken''⟩ := taken.split grown grown'
        exact follows' draft' taken' draft'' taken''
    · rintro e s' ⟨-, follows⟩ draft' taken
      obtain ⟨d', hm, beside⟩ := follows draft' taken
      exact ⟨d', Driver.bind_error hm, beside⟩

/-- A step that adds no tokens. -/
theorem inStep_still {r : Reader α} {m : Drive β} {after : α → β → State → Draft → Driver → Prop}
    (still : ∀ s, Ends r s (fun _ s' => s'.tokens = s.tokens) fun _ s' => s'.tokens = s.tokens)
    (alike : ∀ {s draft d}, before s draft d → Ends r s (fun a s' => ∃ x d', m d = .ok x d' ∧ after a x s' draft d')
      fun e s' => ∃ d', m d = .error e d' ∧ Beside s' draft d') : InStep b f before r m after where
  grows := fun s => (still s).mono (fun _ _ h => h ▸ List.suffix_refl _) fun _ _ h => h ▸ List.suffix_refl _
  alike := by
    intro s draft d _ related
    refine ((still s).and (alike related)).mono ?_ ?_
    · rintro a s' ⟨same, h⟩ draft' taken
      rw [taken.nothing same]
      exact h
    · rintro e s' ⟨same, h⟩ draft' taken
      rw [taken.nothing same]
      exact h

theorem inStep_pure {after : α → β → State → Draft → Driver → Prop} {a : α} {x : β}
    (h : ∀ {s draft d}, before s draft d → after a x s draft d) : InStep b f before (pure a) (pure x) after :=
  inStep_still (fun _ => rfl) fun related => ⟨x, _, rfl, h related⟩

theorem InStep.ite {c : Prop} [Decidable c] {r r' : Reader α} {m m' : Drive β}
    {after : α → β → State → Draft → Driver → Prop} (h : InStep b f before r m after)
    (h' : InStep b f before r' m' after) : InStep b f before (if c then r else r') (if c then m else m') after := by
  split
  · exact h
  · exact h'

/-- Both look at the same thing. -/
theorem InStep.view {v : State → γ} {w : Driver → γ} {k : γ → Reader α} {k' : γ → Drive β}
    {after : α → β → State → Draft → Driver → Prop} (hv : ∀ {s draft d}, before s draft d → w d = v s)
    (hk : ∀ x, InStep b f before (k x) (k' x) after) :
    InStep b f before (get >>= fun s => k (v s)) (get >>= fun d => k' (w d)) after where
  grows := fun s => (hk (v s)).grows s
  alike := by
    intro s draft d rooted related
    have run : (get >>= fun d => k' (w d)) d = k' (v s) d := by
      rw [← hv related]
      rfl
    rw [run, ends_bind, ends_get]
    exact (hk (v s)).alike rooted related

theorem InStep.ite_view {v : State → Bool} {w : Driver → Bool} {r r' : Reader α} {m m' : Drive β}
    {after : α → β → State → Draft → Driver → Prop} (hv : ∀ {s draft d}, before s draft d → w d = v s)
    (h : InStep b f before r m after) (h' : InStep b f before r' m' after) :
    InStep b f before (get >>= fun s => if v s then r else r') (get >>= fun d => if w d then m else m') after := by
  have branch : ∀ x : Bool, InStep b f before (if x then r else r') (if x then m else m') after := fun _ => .ite h h'
  exact .view (v := v) (w := w) (fun related => hv related) branch

theorem InStep.look (hR : Placed R) {v : Cursor → γ} {k : γ → Reader α} {k' : γ → Drive β}
    {after : α → β → State → Draft → Driver → Prop} (hk : ∀ x, InStep b f R (k x) (k' x) after) :
    InStep b f R (look v >>= k) (Driver.look v >>= k') after :=
  .view (v := fun s => v s.cursor) (w := fun d => v d.cursor)
    (fun related => by rw [(hR.beside related).cursor]) hk

theorem inStep_fail (hR : Placed R) {after : α → β → State → Draft → Driver → Prop} (fault : Fault) :
    InStep b f R (fail fault) (Driver.fail fault) after := by
  refine inStep_still (fun _ => rfl) ?_
  intro s draft d related
  have beside := hR.beside related
  exact ⟨d, by rw [← beside.cursor]; rfl, beside⟩

theorem inStep_require (hR : Placed R) (condition : Cursor → Bool) (fault : Fault) :
    InStep b f R (require condition fault) (Driver.require condition fault) fun _ _ => R := by
  refine inStep_still (by simp) ?_
  intro s draft d related
  have beside := hR.beside related
  unfold Driver.require
  rw [ends_require, beside.cursor]
  split
  · exact ⟨(), d, rfl, related⟩
  · exact ⟨d, rfl, beside⟩

theorem inStep_move (hR : Placed R) (step : Cursor → Cursor) :
    InStep b f R (move step) (Driver.move step) fun _ _ => R := by
  refine inStep_still (fun _ => rfl) ?_
  intro s draft d related
  refine ⟨(), _, rfl, ?_⟩
  rw [(hR.beside related).cursor]
  exact hR.moved related (step s.cursor)

theorem inStep_enter (hR : Placed R) (limit : Nat) (bracket : Bracket) :
    InStep b f R (enter limit bracket) (Driver.enter limit bracket) fun _ _ => R := by
  refine inStep_still (by simp) ?_
  intro s draft d related
  have beside := hR.beside related
  have run : Driver.enter limit bracket d =
      if s.brackets.length < limit then .ok () { d with brackets := bracket :: s.brackets }
      else .error (s.cursor.error (.nestingTooDeep limit)) d := by
    rw [← beside.cursor, ← beside.brackets]
    rfl
  rw [ends_enter, run]
  split
  · exact ⟨(), _, rfl, hR.nested related (bracket :: s.brackets)⟩
  · exact ⟨d, rfl, beside⟩

theorem inStep_leave (hR : Placed R) : InStep b f R leave Driver.leave fun _ _ => R := by
  refine inStep_still (fun _ => rfl) ?_
  intro s draft d related
  refine ⟨(), _, rfl, ?_⟩
  rw [(hR.beside related).brackets]
  exact hR.nested related s.brackets.tail

end Rules

/-! ## Readers -/

/-- The driver does what the reader does, and has the same lists open afterwards. -/
abbrev Mirrors (b : Bindings) (f : Forest) (lists : List OpenList) {α β : Type} (r : Reader α) (m : Drive β) : Prop :=
  InStep b f (Level lists) r m fun _ _ => Level lists

section Readers

variable {b : Bindings} {f : Forest} {lists : List OpenList}

/-- A token that is an atom, with the lexeme as its text. -/
theorem mirrors_emit {kind : TokenKind} {meaning : Meaning}
    (h : ∀ (draft : Draft) (text : String), draft.take b ⟨text, kind⟩ = some (draft.add text meaning)) :
    Mirrors b f lists (emit kind) (Driver.emit meaning) where
  grows := fun _ => List.suffix_cons ..
  alike := by
    rintro s draft d - ⟨rfl, hl⟩ draft' taken
    have step := taken.token rfl
    rw [h] at step
    cases step
    exact ⟨(), _, rfl, rfl, hl⟩

theorem mirrors_number : Mirrors b f lists (emit .number)
    (Driver.look (·.lexeme) >>= fun text => Driver.emit (.operand (.number (Number.ofNumeral text)))) where
  grows := fun _ => List.suffix_cons ..
  alike := by
    rintro s draft d - ⟨rfl, hl⟩ draft' taken
    cases taken.token rfl
    exact ⟨(), _, rfl, rfl, hl⟩

theorem mirrors_digits (fault : Fault) : Mirrors b f lists (digits fault) (Driver.digits fault) :=
  (inStep_require (placed_level _) _ _).bind fun _ _ => inStep_move (placed_level _) _

theorem mirrors_numeral : Mirrors b f lists numeral Driver.numeral := by
  have placed := placed_level lists
  have fraction : Mirrors b f lists _ _ := (mirrors_digits .missingFraction).bind fun _ _ => mirrors_number
  have unsigned : Mirrors b f lists _ _ := (mirrors_digits .missingDigits).bind fun _ _ =>
    .look (v := (·.isAt '.')) placed fun found =>
      .ite (c := found = true) ((inStep_move placed (·.gather 1)).bind fun _ _ => fraction) mirrors_number
  exact .look placed fun _ => .ite ((inStep_move placed _).bind fun _ _ => unsigned) unsigned

/-- A name is bound just when it is looked up. -/
theorem mirrors_boundName {options : Options} :
    Mirrors b f lists (boundName (.of options b)) (Driver.variableName b) := by
  refine (inStep_move (placed_level _) _).bind fun _ _ => ⟨?_, ?_⟩
  · intro s
    simp only [ends_bind, ends_look, ends_require, ends_emit]
    split
    · exact List.suffix_cons ..
    · exact List.suffix_refl _
  · rintro s draft d - ⟨rfl, hl⟩
    simp only [ends_bind, ends_look, ends_require, ends_emit, Scope.of, Bindings.contains]
    cases ht : b.lookup s.cursor.lexeme with
    | none =>
      intro draft' taken
      rw [taken.nothing rfl]
      refine ⟨Driver.of s draft, ?_, (placed_level lists).beside ⟨rfl, hl⟩⟩
      simp only [bind, EStateM.bind, Driver.look, Driver.of, ht]
      rfl
    | some target =>
      intro draft' taken
      have step := taken.token rfl
      simp only [Draft.take, ht, Option.map_some, Option.some.injEq] at step
      subst step
      refine ⟨(), Driver.of _ _, ?_, rfl, hl⟩
      simp only [bind, EStateM.bind, Driver.look, Driver.of, ht]
      rfl

theorem mirrors_expect (char : Char) (mark : Mark) (fault : Fault) :
    Mirrors b f lists (expect char mark fault) (Driver.expect char mark fault) :=
  (inStep_require (placed_level _) _ _).bind fun _ _ => (inStep_move (placed_level _) _).bind fun _ _ =>
    mirrors_emit fun _ _ => rfl

variable {inner : Reader Unit} {inner' : Drive Unit} (hi : ∀ lists, Mirrors b f lists inner inner')
include hi

theorem mirrors_group (scope : Scope) :
    Mirrors b f lists (group scope inner) (Driver.group scope.nestingLimit inner') :=
  (inStep_enter (placed_level _) _ _).bind fun _ _ => (inStep_move (placed_level _) _).bind fun _ _ =>
    (mirrors_emit fun _ _ => rfl).bind fun _ _ => (hi _).bind fun _ _ => (mirrors_expect _ _ _).bind fun _ _ =>
    inStep_leave (placed_level _)

theorem mirrors_arguments (n : Nat) : Mirrors b f lists (arguments inner n) (Driver.arguments inner' n) := by
  induction n using arguments.induct with
  | case1 => exact inStep_pure id
  | case2 => exact hi _
  | case3 count ih => exact (hi _).bind fun _ _ => (mirrors_expect _ _ _).bind fun _ _ => ih

theorem mirrors_call (scope : Scope) (g : Builtin) (length : Nat) :
    Mirrors b f lists (call scope inner g length) (Driver.call scope.nestingLimit inner' g length) := by
  refine (inStep_move (placed_level _) _).bind fun _ _ => (mirrors_emit fun _ _ => rfl).bind fun _ _ => ?_
  refine .ite (inStep_pure id) ?_
  exact (inStep_require (placed_level _) _ _).bind fun _ _ => (inStep_enter (placed_level _) _ _).bind fun _ _ =>
    (inStep_move (placed_level _) _).bind fun _ _ => (mirrors_emit fun _ _ => rfl).bind fun _ _ =>
    (mirrors_arguments hi _).bind fun _ _ => (mirrors_expect _ _ _).bind fun _ _ => inStep_leave (placed_level _)

/-- An item is read like any other expression, between resting and going on. -/
theorem inStep_item {values : Array Value} : InStep b f (Between lists values) (inner >>= fun _ => note .itemEnd)
    (Driver.item inner') fun _ value => Between lists (values.push value) where
  grows := by
    intro s
    rw [ends_bind]
    exact ((hi lists).grows s).mono (fun _ _ h => h.trans (List.suffix_cons ..)) fun _ _ h => h
  alike := by
    rintro s draft d rooted ⟨rfl, fresh, outer, mark, hl⟩
    have paused : (Driver.of s draft).resume.pause = Driver.of s draft := by
      simp [Driver.pause, Driver.resume, Driver.of, hl, fresh]
    rw [ends_bind]
    refine (((hi lists).grows s).and ((hi _).alike rooted ⟨rfl, hl⟩)).mono ?_ ?_
    · rintro - s' ⟨grown, follows⟩ draft'' taken
      obtain ⟨draft', taken', taken''⟩ := taken.split grown (List.suffix_cons ..)
      obtain ⟨_, _, run, rfl, hl'⟩ := follows draft' taken'
      obtain ⟨list, others, root, g, hl'', hfin, rfl⟩ := Draft.endItem_eq_some.1 (taken''.token rfl)
      cases hl'.symm.trans hl''
      have size : draft.forest.size = mark := rooted.size.trans (rooted.marks _ (hl ▸ List.mem_cons_self ..)).symm
      refine ⟨(g.evaluate root).1, _, ?_, rfl, rfl, outer, mark, rfl⟩
      unfold Driver.item
      rw [paused, run]
      simp only [Driver.of, hfin, hl', ← size]
      rfl
    · rintro e s' ⟨-, follows⟩ draft' taken
      obtain ⟨d', run, beside⟩ := follows draft' taken
      refine ⟨d'.resume, ?_, beside.cursor, beside.brackets, beside.forest, beside.width⟩
      unfold Driver.item
      rw [paused, run]

omit hi in
/-- A list begins, whose first item is still to come. -/
theorem inStep_begin : InStep b f (Level lists) (note .listStart) (pure ()) fun _ _ => Between lists #[] where
  grows := fun _ => List.suffix_cons ..
  alike := by
    rintro s draft d - ⟨rfl, hl⟩ draft' taken
    cases taken.token rfl
    exact ⟨(), _, rfl, rfl, rfl, draft.yard, draft.forest.size, by rw [Draft.beginList, hl]⟩

omit hi in
/-- A list is complete, and goes into the yard around it. -/
theorem inStep_finish {values : Array Value} : InStep b f (Between lists values) (emit .listEnd)
    (Driver.widen values.size >>= fun _ => Driver.emit (.operand (.list values))) fun _ _ => Level lists where
  grows := fun _ => List.suffix_cons ..
  alike := by
    rintro s draft d - ⟨rfl, fresh, outer, mark, hl⟩ draft' taken
    obtain ⟨list, others, hl', rfl⟩ := Draft.endList_eq_some.1 (taken.token rfl)
    cases hl.symm.trans hl'
    refine ⟨(), _, rfl, ?_, rfl⟩
    simp only [Driver.of, Driver.resume, hl, List.map_cons, List.headD_cons, List.tail_cons]
    rfl

/-- The items of a list. -/
theorem inStep_items (n : Nat) {values : Array Value} : InStep b f (Between lists values) (listItems inner n)
    (Driver.items inner' n values) fun _ values => Between lists values := by
  induction n generalizing values with
  | zero => exact inStep_fail (placed_between _ _) _
  | succ n ih =>
    refine (inStep_move (placed_between _ _) _).bind fun _ _ => ?_
    rw [← bind_assoc]
    refine (inStep_item hi).bind fun _ value => .look (placed_between _ _) fun more => ?_
    exact .ite ((inStep_move (placed_between _ _) _).bind fun _ _ => ih) (inStep_pure id)

/-- A list, of which the yard around it takes the values. -/
theorem mirrors_listLiteral (scope : Scope) (n : Nat) :
    Mirrors b f lists (listLiteral scope inner n) (Driver.listLiteral scope.nestingLimit inner' n) := by
  have placed := placed_between lists
  refine (inStep_enter (placed_level _) _ _).bind fun _ _ => (inStep_move (placed_level _) _).bind fun _ _ => ?_
  have rest := inStep_begin.bind fun _ _ => (inStep_items hi n).bind fun _ values =>
    (inStep_require (placed values) (·.isAt ']') .expectedClosingBracket).bind fun _ _ =>
    (inStep_move (placed values) (·.skip)).bind fun _ _ => (inStep_leave (placed values)).bind fun _ _ => inStep_finish
  rwa [pure_bind] at rest

variable (options : Options)

theorem mirrors_primary (n : Nat) :
    Mirrors b f lists (primary (.of options b) inner n) (Driver.primary options b inner' n) := by
  have placed := placed_level lists
  refine (inStep_move placed _).bind fun _ _ => .look placed fun c => ?_
  refine .ite (mirrors_group hi (.of options b)) (.ite mirrors_numeral ?_)
  have same : Driver.functionAt? options.matchPolicy c = functionAt? (.of options b) c := rfl
  rw [same]
  cases functionAt? (.of options b) c with
  | some found => exact mirrors_call hi (.of options b) found.1 found.2
  | none => exact .ite mirrors_boundName (.ite (mirrors_listLiteral hi (.of options b) n) (inStep_fail placed _))

omit hi in
/-- What the driver does for an expression, reading does, and taking the tokens read. -/
theorem mirrors_expression (bound : Nat) :
    ∀ lists, Mirrors b f lists (expression (.of options b) bound) (Driver.expression options b bound) := by
  induction bound with
  | zero => exact fun lists => inStep_fail (placed_level lists) _
  | succ bound ih =>
    intro lists
    have placed := placed_level lists
    refine (mirrors_primary ih options bound).bind fun _ _ => (inStep_move placed _).bind fun _ _ => ?_
    refine .ite_view ?_ (inStep_pure id) (.look placed fun text => ?_)
    · rintro s draft d ⟨rfl, -⟩
      rfl
    · have same : operatorAt (Scope.of options b).policy text = operatorAt options.matchPolicy text := rfl
      rw [same]
      cases operatorAt options.matchPolicy text with
      | none => exact inStep_fail placed _
      | some found =>
        exact (inStep_move placed _).bind fun _ _ => (mirrors_emit fun _ _ => rfl).bind fun _ _ => ih lists

end Readers

/-! ## Whole calls -/

namespace Driver

/-- Where the driver is in the text, and in which brackets. -/
def state (d : Driver) : State where
  cursor := d.cursor
  brackets := d.brackets

/-- What the driver has built so far. -/
def draft (d : Driver) : Draft where
  forest := d.forest
  yard := d.yard
  lists := d.resting.map fun y => { outer := y, mark := d.forest.size }
  width := d.width

theorem of_state_draft (d : Driver) : Driver.of d.state d.draft = d := by
  simp [Driver.of, state, draft, Function.comp_def]

theorem rooted_draft (d : Driver) : d.draft.Rooted d.forest where
  nodes := rfl
  marks := by simp [draft]

/-- From a driver on, one of its steps does what a reader does, and builds what the tokens read come to. -/
def Drives (b : Bindings) (r : Reader Unit) (m : Drive Unit) (d : Driver) : Prop :=
  Ends r d.state
    (fun _ s' => ∃ draft', Leads b d.state d.draft s' draft' ∧ m d = .ok () (.of s' draft') ∧
      draft'.lists = d.draft.lists)
    fun e s' => ∃ draft' d', Leads b d.state d.draft s' draft' ∧ m d = .error e d' ∧ Beside s' draft' d'

variable {b : Bindings} {r : Reader Unit} {m : Drive Unit} {d d' : Driver}

/-- Where whatever is read can be taken, the driver follows to the end. -/
theorem drives_of_mirrors (h : ∀ lists, Mirrors b d.forest lists r m)
    (total : Ends r d.state (fun _ s' => ∃ draft', Leads b d.state d.draft s' draft')
      fun _ s' => ∃ draft', Leads b d.state d.draft s' draft') : Drives b r m d := by
  have follows := (h d.draft.lists).alike d.rooted_draft ⟨d.of_state_draft.symm, rfl⟩
  refine (total.and follows).mono ?_ ?_
  · rintro - s' ⟨⟨draft', leads⟩, follows⟩
    obtain ⟨_, _, run, rfl, hl⟩ := follows draft' leads
    exact ⟨draft', leads, run, hl⟩
  · rintro e s' ⟨⟨draft', leads⟩, follows⟩
    obtain ⟨d', run, beside⟩ := follows draft' leads
    exact ⟨draft', d', leads, run, beside⟩

theorem Drives.ok (h : Drives b r m d) (hm : m d = .ok () d') : ∃ s' draft', r d.state = .ok () s' ∧
    Leads b d.state d.draft s' draft' ∧ draft'.lists = d.draft.lists ∧ d' = .of s' draft' := by
  unfold Drives Ends at h
  split at h
  · rename_i s' hr
    obtain ⟨draft', leads, run, lists⟩ := h
    cases run.symm.trans hm
    exact ⟨s', draft', hr, leads, lists, rfl⟩
  · obtain ⟨draft', d'', leads, run, -⟩ := h
    cases run.symm.trans hm

end Driver

end Formulary.Reading
