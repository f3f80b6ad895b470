/-
Brackets as the text shows them. Wherever reading stands, the brackets that are open are those which
the text read so far leaves open, and at no place of that text are more of them open than the limit
allows. Reading fails for the depth of its brackets only where as many as allowed are open and the
next character opens one more.
-/
import Formulary.Proofs.Reading.Driver
import Formulary.Proofs.Reading.Steps

namespace Formulary.Reading

open Text Symbols

/-! ## The open brackets of a text -/

/-- The open brackets after one more character, the innermost first. What closes a bracket closes one
of its own kind only. -/
def bracketsAfter (stack : List Char) (c : Char) : List Char :=
  if c = '(' ∨ c = '[' then c :: stack
  else if c = ')' ∧ stack.head? = some '(' ∨ c = ']' ∧ stack.head? = some '[' then stack.tail
  else stack

/-- The brackets that a text leaves open, the innermost first. -/
def unclosed (text : List Char) : List Char :=
  text.foldl bracketsAfter []

theorem unclosed_concat (text : List Char) (c : Char) : unclosed (text ++ [c]) = bracketsAfter (unclosed text) c := by
  rw [unclosed, List.foldl_append]
  rfl

/-- A character that neither opens nor closes a bracket. -/
def Plain (c : Char) : Prop :=
  c ∉ ['(', '[', ')', ']']

theorem Plain.bracketsAfter {c : Char} (h : Plain c) (stack : List Char) : bracketsAfter stack c = stack := by
  simp only [Plain, List.mem_cons, List.not_mem_nil, or_false, not_or] at h
  simp [Reading.bracketsAfter, h]

theorem plain_of_isDigit {c : Char} (h : isDigit c = true) : Plain c := by
  simp only [Plain, List.mem_cons, List.not_mem_nil, or_false]
  rintro (rfl | rfl | rfl | rfl) <;> cases h

theorem plain_of_isNameChar {c : Char} (h : isNameChar c = true) : Plain c := by
  simp only [Plain, List.mem_cons, List.not_mem_nil, or_false]
  rintro (rfl | rfl | rfl | rfl) <;> cases h

theorem plain_of_isBlank {c : Char} (h : isBlank c = true) : Plain c := by
  rw [isBlank_iff.1 h]
  simp [Plain]

theorem plain_symbol (op : Operator) : ∀ c ∈ op.symbol.toList, Plain c := by
  cases op <;> simp [Operator.symbol, Plain]

/-- The character that opens a bracket. -/
def Bracket.opener : Bracket → Char
  | .group | .arguments => '('
  | .list => '['

/-- The character that closes a bracket. -/
def Bracket.closer : Bracket → Char
  | .group | .arguments => ')'
  | .list => ']'

theorem bracketsAfter_opener (bracket : Bracket) (stack : List Char) :
    bracketsAfter stack bracket.opener = bracket.opener :: stack := by
  cases bracket <;> rfl

theorem bracketsAfter_closer (bracket : Bracket) (stack : List Char) :
    bracketsAfter (bracket.opener :: stack) bracket.closer = stack := by
  cases bracket <;> rfl

/-! ## The open brackets of a state -/

/-- The brackets that are open are those of the text read, and nowhere in that text are more open than
the limit allows. -/
structure State.Nested (limit : Nat) (s : State) : Prop where
  shown : unclosed s.cursor.past.reverse = s.brackets.map Bracket.opener
  within : ∀ read, read <+: s.cursor.past.reverse → (unclosed read).length ≤ limit

namespace State

variable {limit : Nat} {s s' : State}

theorem Nested.brackets_le (h : s.Nested limit) : s.brackets.length ≤ limit := by
  rw [← List.length_map (f := Bracket.opener), ← h.shown]
  exact h.within _ (List.prefix_refl _)

/-- One more character has been read. -/
theorem Nested.next {c : Char} (h : s.Nested limit) (hp : s'.cursor.past = c :: s.cursor.past)
    (hb : bracketsAfter (s.brackets.map Bracket.opener) c = s'.brackets.map Bracket.opener)
    (hl : s'.brackets.length ≤ limit) : s'.Nested limit := by
  have shown : unclosed (s.cursor.past.reverse ++ [c]) = s'.brackets.map Bracket.opener := by
    rw [unclosed_concat, h.shown, hb]
  constructor
  · rw [hp, List.reverse_cons, shown]
  · intro read hread
    rw [hp, List.reverse_cons, List.prefix_concat_iff] at hread
    rcases hread with rfl | hread
    · rw [shown, List.length_map]
      exact hl
    · exact h.within read hread

theorem Nested.enter {bracket : Bracket} (h : s.Nested limit) (room : s.brackets.length < limit)
    (hp : s'.cursor.past = bracket.opener :: s.cursor.past) (hb : s'.brackets = bracket :: s.brackets) :
    s'.Nested limit := by
  refine h.next hp ?_ (by rw [hb]; exact room)
  rw [bracketsAfter_opener, hb, List.map_cons]

theorem Nested.leave {bracket : Bracket} (h : s.Nested limit) (hs : s.brackets = bracket :: s'.brackets)
    (hp : s'.cursor.past = bracket.closer :: s.cursor.past) : s'.Nested limit := by
  refine h.next hp ?_ ?_
  · rw [hs, List.map_cons, bracketsAfter_closer]
  · have := h.brackets_le
    rw [hs, List.length_cons] at this
    exact Nat.le_of_succ_le this

/-- Only plain characters have been read between two states, and no bracket opened or closed. -/
structure Passes (s s' : State) : Prop where
  brackets : s'.brackets = s.brackets
  read : ∃ read : List Char, (∀ c ∈ read, Plain c) ∧ s'.cursor.past = read.reverse ++ s.cursor.past

theorem Passes.refl (s : State) : s.Passes s :=
  ⟨rfl, [], by simp, rfl⟩

theorem Passes.trans {s'' : State} (h : s.Passes s') (h' : s'.Passes s'') : s.Passes s'' := by
  obtain ⟨hb, read, hread, hp⟩ := h
  obtain ⟨hb', more, hmore, hp'⟩ := h'
  refine ⟨hb'.trans hb, read ++ more, List.forall_mem_append.2 ⟨hread, hmore⟩, ?_⟩
  rw [hp', hp, List.reverse_append, List.append_assoc]

theorem Passes.nested (h : s.Passes s') (hs : s.Nested limit) : s'.Nested limit := by
  obtain ⟨hb, read, hread, hp⟩ := h
  -- character by character, from the state with the text read so far
  induction read using List.reverseRecOn generalizing s' with
  | nil =>
    rw [List.reverse_nil, List.nil_append] at hp
    exact ⟨by rw [hp, hb]; exact hs.shown, by rw [hp]; exact hs.within⟩
  | append_singleton read c ih =>
    obtain ⟨hread, hc⟩ := List.forall_mem_append.1 hread
    have before : Nested limit { s with cursor := { s.cursor with past := read.reverse ++ s.cursor.past } } :=
      ih rfl hread rfl
    refine before.next (by rw [hp, List.reverse_append]; rfl) ?_ (by rw [hb]; exact hs.brackets_le)
    rw [(hc c (List.mem_singleton_self c)).bracketsAfter, hb]

end State

/-! ## Readers -/

/-- A reader passes over plain characters only, and opens no brackets. -/
def Passing {α : Type} (r : Reader α) : Prop :=
  ∀ s, Ends r s (fun _ s' => s.Passes s') fun e s' => s.Passes s' ∧ ∀ limit, e.fault ≠ .nestingTooDeep limit

/-- A reader failed with as many brackets open as the text shows. If it failed for their depth, these
are as many as allowed, and the next character opens one more. -/
structure Halted (limit : Nat) (e : ReadError) (s : State) : Prop where
  nested : s.Nested limit
  tooDeep : ∀ n, e.fault = .nestingTooDeep n →
    n = limit ∧ s.brackets.length = limit ∧ (s.cursor.current = some '(' ∨ s.cursor.current = some '[')

/-- A reader keeps account of its brackets from a state on: it closes those that it opens, unless it
fails. -/
def Nests (limit : Nat) {α : Type} (r : Reader α) (s : State) : Prop :=
  s.Nested limit → Ends r s (fun _ s' => s'.Nested limit ∧ s'.brackets = s.brackets) (Halted limit)

section Rules

variable {α β : Type} {limit : Nat} {s : State}

theorem Passing.bind {r : Reader β} {k : β → Reader α} (hr : Passing r) (hk : ∀ b, Passing (k b)) :
    Passing (r >>= k) := by
  intro s
  rw [ends_bind]
  refine (hr s).mono (fun b s' passed => ?_) fun e s' h => h
  exact (hk b s').mono (fun a s'' h => passed.trans h) fun e s'' h => ⟨passed.trans h.1, h.2⟩

theorem passing_pure (a : α) : Passing (pure a) :=
  fun s => .refl s

theorem passing_look (view : Cursor → α) : Passing (look view) :=
  fun s => .refl s

theorem Passing.ite {c : Prop} [Decidable c] {r r' : Reader α} (h : Passing r) (h' : Passing r') :
    Passing (if c then r else r') := by
  split
  · exact h
  · exact h'

theorem passing_fail {fault : Fault} (h : ∀ limit, fault ≠ .nestingTooDeep limit) :
    Passing (fail fault : Reader α) :=
  fun s => ⟨.refl s, h⟩

theorem passing_require (condition : Cursor → Bool) {fault : Fault} (h : ∀ limit, fault ≠ .nestingTooDeep limit) :
    Passing (require condition fault) := by
  intro s
  rw [ends_require]
  split
  · exact .refl s
  · exact ⟨.refl s, h⟩

theorem passing_move {step : Cursor → Cursor}
    (h : ∀ c : Cursor, ∃ read : List Char, (∀ x ∈ read, Plain x) ∧ (step c).past = read.reverse ++ c.past) :
    Passing (move step) :=
  fun s => ⟨rfl, h s.cursor⟩

theorem passing_emit (kind : TokenKind) : Passing (emit kind) :=
  fun _ => ⟨rfl, [], by simp, rfl⟩

theorem passing_note (kind : TokenKind) : Passing (note kind) :=
  fun _ => ⟨rfl, [], by simp, rfl⟩

theorem Passing.nests {r : Reader α} (h : Passing r) (s : State) : Nests limit r s := by
  intro nested
  refine (h s).mono (fun _ s' passed => ⟨passed.nested nested, passed.brackets⟩) fun e s' ⟨passed, hne⟩ => ?_
  exact ⟨passed.nested nested, fun n hn => absurd hn (hne n)⟩

theorem Nests.bind {r : Reader β} {k : β → Reader α} (hr : Nests limit r s) (hk : ∀ b s', Nests limit (k b) s') :
    Nests limit (r >>= k) s := by
  intro nested
  rw [ends_bind]
  refine (hr nested).mono (fun b s' ⟨nested', hb⟩ => ?_) fun e s' h => h
  exact (hk b s' nested').mono (fun a s'' ⟨nested'', hb'⟩ => ⟨nested'', hb'.trans hb⟩) fun e s'' h => h

theorem Nests.ite {c : Prop} [Decidable c] {r r' : Reader α} (h : Nests limit r s) (h' : Nests limit r' s) :
    Nests limit (if c then r else r') s := by
  split
  · exact h
  · exact h'

end Rules

theorem passing_gatherWhile {test : Char → Bool} (h : ∀ c, test c = true → Plain c) :
    Passing (move (·.gatherWhile test)) :=
  passing_move fun c => ⟨c.ahead.takeWhile test, fun x hx => h x (List.mem_takeWhile_imp hx), rfl⟩

theorem passing_skipBlanks : Passing (move (·.skipBlanks)) :=
  passing_move fun c => ⟨c.ahead.takeWhile isBlank, fun _ hx => plain_of_isBlank (List.mem_takeWhile_imp hx), rfl⟩

theorem past_gather {c : Cursor} {x : Char} (h : c.isAt x = true) : (c.gather 1).past = x :: c.past := by
  obtain ⟨rest, hrest⟩ := isAt_iff.1 h
  simp [Cursor.gather, hrest]

theorem past_skip {c : Cursor} {x : Char} (h : c.isAt x = true) : c.skip.past = x :: c.past := by
  obtain ⟨rest, hrest⟩ := isAt_iff.1 h
  simp [Cursor.skip, hrest]

section Readers

variable {scope : Scope} {inner : Reader Unit} {s : State}

/-- A plain character at the cursor may be gathered. -/
theorem passing_gather_if {x : Char} (hx : Plain x) {k k' : Reader Unit} (hk : Passing k) (hk' : Passing k') :
    Passing (look (·.isAt x) >>= fun found => if found then move (·.gather 1) >>= fun _ => k else k') := by
  intro s
  simp only [ends_bind, ends_look, ends_ite, ends_move]
  split
  · rename_i hat
    have passed : s.Passes { s with cursor := s.cursor.gather 1 } := ⟨rfl, [x], by simpa using hx, past_gather hat⟩
    exact (hk _).mono (fun _ s' h => passed.trans h) fun e s' h => ⟨passed.trans h.1, h.2⟩
  · exact hk' s

theorem passing_digits {fault : Fault} (h : ∀ limit, fault ≠ .nestingTooDeep limit) : Passing (digits fault) :=
  (passing_require _ h).bind fun _ => passing_gatherWhile fun _ => plain_of_isDigit

theorem passing_numeral : Passing numeral := by
  have fraction : Passing (digits .missingFraction >>= fun _ => emit .number) :=
    (passing_digits (by simp)).bind fun _ => passing_emit _
  have unsigned : Passing unsigned :=
    (passing_digits (by simp)).bind fun _ => passing_gather_if (by simp [Plain]) fraction (passing_emit _)
  exact passing_gather_if (by simp [Plain]) unsigned unsigned

theorem passing_boundName : Passing (boundName scope) :=
  (passing_gatherWhile fun _ => plain_of_isNameChar).bind fun _ => (passing_look _).bind fun _ =>
    (passing_require _ (by simp)).bind fun _ => passing_emit _

/-- A plain character is asked for. -/
theorem passing_expect {x : Char} (hx : Plain x) (mark : Infix.Mark) {fault : Fault}
    (h : ∀ limit, fault ≠ .nestingTooDeep limit) : Passing (expect x mark fault) := by
  intro s
  unfold expect
  simp only [ends_bind, ends_require, ends_move, ends_emit]
  split
  · rename_i hat
    exact ⟨rfl, [x], by simpa using hx, past_gather hat⟩
  · exact ⟨.refl s, h⟩

/-! ## Brackets -/

theorem State.Nested.halted {limit : Nat} {fault : Fault} (h : s.Nested limit)
    (hf : ∀ limit, fault ≠ .nestingTooDeep limit) : Halted limit (s.cursor.error fault) s :=
  ⟨h, fun n hn => absurd hn (hf n)⟩

/-- One more bracket than allowed is about to be opened. -/
theorem State.Nested.halted_full {limit : Nat} (bracket : Bracket) (h : s.Nested limit)
    (full : ¬ s.brackets.length < limit) (hat : s.cursor.isAt bracket.opener = true) :
    Halted limit (s.cursor.error (.nestingTooDeep limit)) s := by
  refine ⟨h, ?_⟩
  rintro n ⟨⟩
  refine ⟨rfl, Nat.le_antisymm h.brackets_le (Nat.le_of_not_lt full), ?_⟩
  have here : s.cursor.current = some bracket.opener := by simpa [Cursor.isAt] using hat
  rw [here]
  cases bracket <;> simp [Bracket.opener]

/-- A bracket is closed at its closing character. -/
theorem State.Nested.close {limit : Nat} {bracket : Bracket} {brackets : List Bracket} {s' : State}
    (h : s.Nested limit) (hs : s.brackets = bracket :: brackets)
    (hp : s'.cursor.past = bracket.closer :: s.cursor.past) (hb : s'.brackets = s.brackets.tail) :
    s'.Nested limit ∧ s'.brackets = brackets := by
  rw [hs, List.tail_cons] at hb
  exact ⟨h.leave (hb ▸ hs) hp, hb⟩

variable (hi : ∀ s, Nests scope.nestingLimit inner s)
include hi

theorem nests_group (hat : s.cursor.isAt '(' = true) : Nests scope.nestingLimit (group scope inner) s := by
  intro nested
  unfold group expect
  simp only [ends_bind, ends_enter, ends_move, ends_emit, ends_require, ends_leave]
  split
  · rename_i room
    refine (hi _ (nested.enter room (past_gather hat) rfl)).mono ?_ fun _ _ h => h
    rintro - s' ⟨nested', hb⟩
    split
    · rename_i hclose
      exact nested'.close hb (past_gather hclose) rfl
    · exact nested'.halted (by simp)
  · rename_i full
    exact nested.halted_full .group full hat

theorem nests_arguments (n : Nat) (s : State) : Nests scope.nestingLimit (arguments inner n) s := by
  induction n using arguments.induct generalizing s with
  | case1 => exact (passing_pure ()).nests s
  | case2 => exact hi s
  | case3 count ih =>
    have comma : Passing (expect ',' .comma .expectedComma) := passing_expect (by simp [Plain]) _ (by simp)
    exact (hi s).bind fun _ s => (comma.nests s).bind fun _ s => ih s

theorem nests_call {f : Builtin} {length : Nat}
    (hf : functionAt? scope s.cursor = some (f, length)) : Nests scope.nestingLimit (call scope inner f length) s := by
  intro nested
  obtain ⟨hn, rest, hahead, -⟩ := functionAt?_eq_some hf
  rcases s with ⟨⟨past, ahead, lexeme⟩, brackets, tokens⟩
  simp only at hahead
  subst hahead hn
  -- the name of a function has no brackets in it
  have named : ∀ read, State.Nested scope.nestingLimit
      ⟨⟨f.symbol.toList.reverse ++ past, rest, ""⟩, brackets, read⟩ := by
    intro read
    have passed : State.Passes ⟨⟨past, f.symbol.toList ++ rest, lexeme⟩, brackets, tokens⟩
        ⟨⟨f.symbol.toList.reverse ++ past, rest, ""⟩, brackets, read⟩ :=
      ⟨rfl, f.symbol.toList, fun c hc => plain_of_isNameChar (f.symbol_nameChars c hc), rfl⟩
    exact passed.nested nested
  unfold call expect
  simp only [ends_bind, ends_ite, ends_enter, ends_move, ends_emit, ends_require, ends_leave, ends_pure, Cursor.gather,
    List.take_left, List.drop_left]
  split
  · exact ⟨named _, trivial⟩
  · split
    · rename_i hopen
      split
      · rename_i room
        refine (nests_arguments hi _ _ ((named []).enter room (past_gather hopen) rfl)).mono ?_ fun _ _ h => h
        rintro - s' ⟨nested', hb⟩
        split
        · rename_i hclose
          exact nested'.close hb (past_gather hclose) rfl
        · exact nested'.halted (by simp)
      · rename_i full
        exact (named _).halted_full .arguments full hopen
    · exact (named _).halted (by simp)

theorem nests_listItems (n : Nat) (s : State) : Nests scope.nestingLimit (listItems inner n) s := by
  induction n generalizing s with
  | zero => exact (passing_fail (by simp)).nests s
  | succ n ih =>
    refine (passing_skipBlanks.nests s).bind fun _ s => (hi s).bind fun _ s =>
      ((passing_note _).nests s).bind fun _ s nested => ?_
    simp only [ends_bind, ends_look, ends_ite, ends_move, ends_pure]
    split
    · rename_i hcomma
      have passed : s.Passes { s with cursor := s.cursor.skip } := ⟨rfl, [','], by simp [Plain], past_skip hcomma⟩
      exact ih _ (passed.nested nested)
    · exact ⟨nested, trivial⟩

theorem nests_listLiteral (n : Nat) (hat : s.cursor.isAt '[' = true) :
    Nests scope.nestingLimit (listLiteral scope inner n) s := by
  intro nested
  unfold listLiteral
  simp only [ends_bind, ends_enter, ends_move, ends_note, ends_emit, ends_require, ends_leave]
  split
  · rename_i room
    refine (nests_listItems hi n _ (nested.enter room (past_skip hat) rfl)).mono ?_ fun _ _ h => h
    rintro - s' ⟨nested', hb⟩
    split
    · rename_i hclose
      exact nested'.close hb (past_skip hclose) rfl
    · exact nested'.halted (by simp)
  · rename_i full
    exact nested.halted_full .list full hat

/-! ## Primaries and expressions -/

theorem nests_primary (n : Nat) (s : State) : Nests scope.nestingLimit (primary scope inner n) s := by
  refine (passing_skipBlanks.nests s).bind fun _ s nested => ?_
  simp only [ends_bind, ends_look, ends_ite, id]
  split
  · rename_i hopen
    exact nests_group hi hopen nested
  · split
    · exact passing_numeral.nests s nested
    · split
      · rename_i f length hf
        exact nests_call hi hf nested
      · simp only [ends_ite]
        split
        · exact passing_boundName.nests s nested
        · split
          · rename_i hlist
            exact nests_listLiteral hi n hlist nested
          · exact nested.halted (by simp)

end Readers

/-- Expressions keep account of their brackets. -/
theorem nests_expression (scope : Scope) (bound : Nat) (s : State) :
    Nests scope.nestingLimit (expression scope bound) s := by
  induction bound generalizing s with
  | zero => exact (passing_fail (by simp)).nests s
  | succ bound ih =>
    refine (nests_primary ih bound s).bind fun _ s => (passing_skipBlanks.nests s).bind fun _ s nested => ?_
    simp only [ends_bind, ends_get, ends_look, ends_ite, ends_pure]
    split
    · exact ⟨nested, trivial⟩
    · split
      · exact nested.halted (by simp)
      · rename_i op length hop
        obtain ⟨-, hsymbol⟩ := operatorAt_sound hop
        have passed : ∀ tokens, s.Passes ⟨{ s.cursor.gather length with lexeme := "" }, s.brackets, tokens⟩ :=
          fun _ => ⟨rfl, op.symbol.toList, plain_symbol op, by rw [hsymbol]; rfl⟩
        simp only [ends_bind, ends_move, ends_emit]
        exact ih _ ((passed _).nested nested)

theorem nests_formula (scope : Scope) (text : String) (s : State) : Nests scope.nestingLimit (formula scope text) s :=
  (nests_expression scope _ s).bind fun _ s => (passing_require _ (by simp)).nests s

/-! ## The driver -/

/-- A step of the driver keeps account of its brackets from some place on: it closes those that it opens,
unless it fails. -/
def Driver.Nests (limit : Nat) (m : Drive Unit) (d : Driver) : Prop :=
  d.state.Nested limit → match m d with
    | .ok _ d' => d'.state.Nested limit ∧ d'.brackets = d.brackets
    | .error e d' => Halted limit e d'.state

/-- It does where a reader does that it follows. -/
theorem Driver.Drives.nests {b : Bindings} {r : Reader Unit} {m : Drive Unit} {d : Driver} {limit : Nat}
    (h : Drives b r m d) (hr : Reading.Nests limit r d.state) : Driver.Nests limit m d := by
  intro nested
  refine ((hr nested).and h).const ?_ ?_
  · rintro - s' ⟨⟨nested', hb⟩, draft', -, run, -⟩
    rw [run]
    exact ⟨⟨nested'.shown, nested'.within⟩, hb⟩
  · rintro e s' ⟨halted, draft', d', -, run, beside⟩
    have place : d'.state = { s' with tokens := [] } := by
      rw [Driver.state, beside.cursor, beside.brackets]
    rw [run]
    show Halted limit e d'.state
    rw [place]
    exact ⟨⟨halted.nested.shown, halted.nested.within⟩, halted.tooDeep⟩

/-! ## Formulas -/

/-- Before the expression of a formula no bracket is open. -/
theorem nested_of_target? {text : String} {target : Option String} {c : Cursor}
    (h : target? (.ofText text) = (target, c)) (limit : Nat) : State.Nested limit { cursor := c } := by
  have empty : State.Nested limit { cursor := { c with past := [] } } := by
    refine ⟨rfl, fun read hread => ?_⟩
    rw [List.prefix_nil.1 hread]
    exact Nat.zero_le _
  have plain : ∀ x ∈ c.past.reverse, Plain x := by
    rcases past_of_target? h with ⟨-, hpast⟩ | ⟨before, after, w, -, -, hw, hpast⟩
    · rw [hpast]
      simp
    · have plain_blanks : ∀ n, ∀ x ∈ blanks n, Plain x := fun n x hx => by
        rw [List.eq_of_mem_replicate hx]
        simp [Plain]
      have plain_name : ∀ x ∈ w, Plain x := fun x hx => plain_of_isNameChar (hw x hx)
      have plain_equals : ∀ x ∈ ['='], Plain x := by simp [Plain]
      rw [hpast]
      exact List.forall_mem_append.2 ⟨plain_blanks _, List.forall_mem_append.2 ⟨plain_name,
        List.forall_mem_append.2 ⟨plain_blanks _, plain_equals⟩⟩⟩
  have passed : State.Passes { cursor := { c with past := [] } } { cursor := c } :=
    ⟨rfl, c.past.reverse, plain, by simp⟩
  exact passed.nested empty

/-- Nowhere in the text that is read are more brackets open than allowed. If reading fails for their
depth, as many as allowed are open, and one more is opened next. -/
theorem read_nested (scope : Scope) (text : String) :
    (∀ read, read <+: (Reading.read scope text).stop.consumed.toList → (unclosed read).length ≤ scope.nestingLimit) ∧
    ∀ e n, (Reading.read scope text).error? = some e → e.fault = .nestingTooDeep n →
      n = scope.nestingLimit ∧ (unclosed e.parsed.toList).length = scope.nestingLimit ∧
      (e.found = some '(' ∨ e.found = some '[') := by
  rcases ht : target? (.ofText text) with ⟨target, c⟩
  have ends_ := (nests_formula scope text _ (nested_of_target? ht _)).and (stepwise_formula scope text { cursor := c })
  rcases read_cases ht ends_ with ⟨s, ⟨⟨nested, -⟩, -⟩, hread⟩ | ⟨e, s, ⟨halted, -, fault, he⟩, hread⟩
  · rw [hread]
    refine ⟨fun read hprefix => nested.within read (by simpa [Cursor.consumed] using hprefix), ?_⟩
    rintro e n ⟨⟩
  · rw [hread]
    refine ⟨fun read hprefix => halted.nested.within read (by simpa [Cursor.consumed] using hprefix), ?_⟩
    rintro e' n ⟨⟩ hn
    obtain ⟨hlimit, hdepth, hfound⟩ := halted.tooDeep n hn
    subst he
    refine ⟨hlimit, ?_, hfound⟩
    simp only [Cursor.error, Cursor.consumed, String.toList_ofList]
    rw [halted.nested.shown, List.length_map]
    exact hdepth

end Formulary.Reading
