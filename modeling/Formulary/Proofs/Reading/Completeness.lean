/-
Every phrase is read. Where a text spells a phrase that fits below the nesting limit, and what comes
after it can end it, the reader for its kind takes exactly that phrase, provided that the policy can
find its operators. So a text is read without an error exactly when it is a formula, as far as no
operator of it is hidden by another one.
-/
import Formulary.Proofs.Reading.Soundness
import Formulary.Proofs.Symbols.Shadow
import Mathlib

namespace Formulary.Reading

open Text Symbols

/-! ## Characters -/

theorem not_isDigit_of_isNameChar {c : Char} (h : isNameChar c = true) : isDigit c = false := by
  have hc : c = '_' ∨ (65 ≤ c.toNat ∧ c.toNat ≤ 90) ∨ (97 ≤ c.toNat ∧ c.toNat ≤ 122) := by
    simpa [isNameChar, Char.isAlpha, Char.isUpper, Char.isLower, UInt32.le_iff_toNat_le, or_comm, or_left_comm] using h
  rcases hc with rfl | hc | hc
  · rfl
  · simp [isDigit, Char.isDigit, UInt32.le_iff_toNat_le]
    omega
  · simp [isDigit, Char.isDigit, UInt32.le_iff_toNat_le]
    omega

/-- Taking as much of a text as passes a test stops where it fails. -/
theorem takeWhile_append {test : Char → Bool} {w rest : List Char} (hw : ∀ c ∈ w, test c = true)
    (hr : ∀ c, rest.head? = some c → test c = false) :
    (w ++ rest).takeWhile test = w ∧ (w ++ rest).dropWhile test = rest := by
  induction w with
  | nil =>
    cases rest with
    | nil => exact ⟨rfl, rfl⟩
    | cons c rest => simp [hr c rfl]
  | cons c w ih =>
    obtain ⟨ht, hd⟩ := ih fun d hd => hw d (List.mem_cons_of_mem _ hd)
    have hc := hw c (List.mem_cons_self ..)
    exact ⟨by rw [List.cons_append, List.takeWhile_cons_of_pos hc, ht],
      by rw [List.cons_append, List.dropWhile_cons_of_pos hc, hd]⟩

theorem dropWhile_blanks {rest : List Char} (n : Nat) (hr : rest.head? ≠ some ' ') :
    (blanks n ++ rest).dropWhile isBlank = rest := by
  refine (takeWhile_append (fun c hc => ?_) fun c hc => ?_).2
  · rw [List.eq_of_mem_replicate hc]
    rfl
  · have : c ≠ ' ' := fun h => hr (h ▸ hc)
    simpa [isBlank] using this

/-- How an operator's symbol begins. -/
theorem head_symbol (op : Operator) : ∃ c more, op.symbol.toList = c :: more ∧ c ≠ ' ' ∧ c ≠ ')' ∧ c ≠ ',' ∧ c ≠ ']' ∧
    isDigit c = false ∧ c ≠ '.' := by
  cases op <;> exact ⟨_, _, rfl, by decide⟩

theorem dropWhile_blanks_symbol (n : Nat) (op : Operator) (next : List Char) :
    (blanks n ++ (op.symbol.toList ++ next)).dropWhile isBlank = op.symbol.toList ++ next := by
  refine dropWhile_blanks n ?_
  obtain ⟨c, symbol, hop, hblank, -⟩ := head_symbol op
  simp [hop, hblank]

theorem head_begins {c : Char} (h : Phrase.Begins c) : c ≠ ' ' ∧ c ≠ '=' := by
  constructor <;> rintro rfl <;> revert h <;> simp [Phrase.Begins, isDigit, isNameChar, Char.isDigit, Char.isAlpha,
    Char.isUpper, Char.isLower]

/-- No expression begins with an equals sign. -/
theorem Phrase.Spells.head_ne_equals {p : Phrase .expression} {text rest : List Char} (h : p.Spells text rest) :
    text.head? ≠ some '=' := by
  have primary : ∀ {q : Phrase .primary} {t r : List Char} (n : Nat), q.Spells t r →
      (blanks n ++ t).head? ≠ some '=' := by
    intro q t r n hq
    obtain ⟨c, more, rfl, hc⟩ := hq.begins
    cases n with
    | zero => simpa using (head_begins hc).2
    | succ n => simp [blanks, List.replicate_succ]
  cases h with
  | single before after hp => exact primary before hp
  | chain before after hp _ => exact primary before hp

/-! ## Functions and names -/

section Words

variable {scope : Scope} {c : Cursor}

theorem Word.takeWhile {w rest : List Char} (h : Word w rest) :
    (w ++ rest).takeWhile isNameChar = w ∧ (w ++ rest).dropWhile isNameChar = rest :=
  takeWhile_append h.2.1 h.2.2

theorem Word.head_ne_blank {w rest : List Char} (h : Word w rest) : (w ++ rest).head? ≠ some ' ' := by
  obtain ⟨x, more, hx, hname⟩ := h.exists_cons
  rw [hx]
  rintro hc
  cases hc
  cases hname

theorem functionAt?_of_word {f : Builtin} {rest : List Char} (h : Word f.symbol.toList rest)
    (hc : c.ahead = f.symbol.toList ++ rest) : functionAt? scope c = some (f, f.symbol.toList.length) := by
  unfold functionAt?
  rw [hc, builtinAt_symbol, Option.filter_some]
  apply if_pos
  have hnext : c.peek f.symbol.toList.length = rest.head? := by
    rw [Cursor.peek, hc, List.getElem?_append_right (Nat.le_refl _), Nat.sub_self, List.head?_eq_getElem?]
  cases hr : rest.head? with
  | none => simp only [Cursor.isNameCharAt, hnext, hr, Option.any_none, Bool.not_false]
  | some x => simp only [Cursor.isNameCharAt, hnext, hr, Option.any_some, h.2.2 x hr, Bool.not_false]

theorem functionAt?_of_name {w rest : List Char} (h : Word w rest) (hc : c.ahead = w ++ rest)
    (hf : ∀ f : Builtin, f.symbol.toList ≠ w) : functionAt? scope c = none := by
  cases hfound : functionAt? scope c with
  | none => rfl
  | some found =>
    obtain ⟨f, n⟩ := found
    obtain ⟨-, rest', hc', hword⟩ := functionAt?_eq_some hfound
    refine absurd ?_ (hf f)
    rw [← hword.takeWhile.1, ← hc', hc, h.takeWhile.1]

theorem functionAt?_of_head {x : Char} {rest : List Char} (hc : c.ahead = x :: rest) (hx : isNameChar x = false) :
    functionAt? scope c = none := by
  cases hfound : functionAt? scope c with
  | none => rfl
  | some found =>
    obtain ⟨f, n⟩ := found
    obtain ⟨-, rest', hc', hword⟩ := functionAt?_eq_some hfound
    obtain ⟨y, more, hy, hname⟩ := hword.exists_cons
    rw [hy, List.cons_append, hc] at hc'
    rw [← (List.cons.inj hc').1, hx] at hname
    cases hname

end Words

/-! ## What a reader has to do -/

/-- A phrase may be read from a state. -/
structure Fits (scope : Scope) {k : Kind} (p : Phrase k) (s : State) : Prop where
  applied : p.Applied
  bound : ∀ n ∈ p.names, scope.binds n = true
  depth : p.depth ≤ scope.nestingLimit - s.brackets.length
  found : ∀ op ∈ p.operators, scope.policy.Finds op

/-- A reader takes exactly the phrase and leaves the rest of the text. -/
def Reads (r : Reader Unit) {k : Kind} (p : Phrase k) (s : State) (rest : List Char) : Prop :=
  Ends r s (fun _ s' => s'.cursor.ahead = rest ∧ s'.cursor.lexeme = "" ∧ s'.brackets = s.brackets ∧
    s'.tokens = p.tokens.reverse ++ s.tokens) fun _ _ => False

/-- Behind a reader that takes a phrase, everything goes on from the rest of the text. -/
theorem Reads.elim {r : Reader Unit} {k : Kind} {p : Phrase k} {s : State} {rest : List Char} (h : Reads r p s rest)
    {good : Unit → State → Prop} {bad : ReadError → State → Prop}
    (hgood : ∀ past, good () ⟨⟨past, rest, ""⟩, s.brackets, p.tokens.reverse ++ s.tokens⟩) : Ends r s good bad := by
  refine h.mono ?_ fun _ _ h => h.elim
  rintro - ⟨⟨past, ahead, lexeme⟩, brackets, tokens⟩ ⟨ha, hl, hb, ht⟩
  simp only at ha hl hb ht
  subst ha hl hb ht
  exact hgood past

/-- The parts of a phrase fit where the phrase does, also further on in the text. -/
theorem Fits.parts {scope : Scope} {k k₁ k₂ : Kind} {p : Phrase k} {q : Phrase k₁} {q' : Phrase k₂} {s : State}
    (h : Fits scope p s) (ha : p.Applied → q.Applied ∧ q'.Applied) (hn : p.names = q.names ++ q'.names)
    (hd : p.depth = max q.depth q'.depth) (ho : q.operators ++ q'.operators ⊆ p.operators) :
    (∀ c t, Fits scope q ⟨c, s.brackets, t⟩) ∧ ∀ c t, Fits scope q' ⟨c, s.brackets, t⟩ := by
  obtain ⟨hdepth, hdepth'⟩ := max_le_iff.1 (hd ▸ h.depth)
  constructor
  · exact fun _ _ => ⟨(ha h.applied).1, fun n hm => h.bound n (hn ▸ List.mem_append_left _ hm), hdepth,
      fun op hm => h.found op (ho (List.mem_append_left _ hm))⟩
  · exact fun _ _ => ⟨(ha h.applied).2, fun n hm => h.bound n (hn ▸ List.mem_append_right _ hm), hdepth',
      fun op hm => h.found op (ho (List.mem_append_right _ hm))⟩

/-- An expression ends before the rest of the text: nothing is left, or the innermost bracket is
closed or continued. -/
def Ended (brackets : List Bracket) (rest : List Char) : Prop :=
  rest = [] ∨ ∃ b, brackets.head? = some b ∧ b.endsAt { ahead := rest } = true

/-- A numeral ends before the rest of the text. -/
def NumeralEnds (rest : List Char) : Prop :=
  ∀ c, rest.head? = some c → isDigit c = false ∧ c ≠ '.'

theorem Ended.head {brackets : List Bracket} {rest : List Char} (h : Ended brackets rest) {c : Char}
    (hc : rest.head? = some c) : c = ')' ∨ c = ',' ∨ c = ']' := by
  rcases h with rfl | ⟨b, -, hb⟩
  · cases hc
  · cases b <;> simp [Bracket.endsAt, Cursor.isAt, Cursor.current, hc] at hb <;> tauto

theorem Ended.atEnd {s : State} (h : Ended s.brackets s.cursor.ahead) : s.atEnd = true := by
  rcases h with h | ⟨b, hb, hend⟩
  · simp [State.atEnd, Cursor.hasMore, h]
  · have same : b.endsAt s.cursor = b.endsAt { ahead := s.cursor.ahead } := by cases b <;> rfl
    simp [State.atEnd, hb, same, hend]

/-- An expression goes on with an operator. -/
theorem not_atEnd {s : State} (op : Operator) {next : List Char} (h : s.cursor.ahead = op.symbol.toList ++ next) :
    s.atEnd = false := by
  obtain ⟨c, more, hop, -, hclose, hcomma, hlist, -⟩ := head_symbol op
  rw [hop] at h
  cases hb : s.brackets.head? with
  | none => simp [State.atEnd, Cursor.hasMore, h, hb]
  | some b => cases b <;> simp [State.atEnd, Cursor.hasMore, Bracket.endsAt, Cursor.isAt, Cursor.current, h, hb, hclose,
      hcomma, hlist]

theorem NumeralEnds.blanks_append {rest : List Char} (h : NumeralEnds rest) (n : Nat) :
    NumeralEnds (blanks n ++ rest) := by
  cases n with
  | zero => exact h
  | succ n =>
    intro c hc
    simp only [blanks, List.replicate_succ, List.cons_append, List.head?_cons, Option.some.injEq] at hc
    exact hc ▸ by decide

theorem Ended.numeralEnds {brackets : List Bracket} {rest : List Char} (h : Ended brackets rest) :
    NumeralEnds rest := by
  intro c hc
  rcases h.head hc with rfl | rfl | rfl <;> decide

theorem numeralEnds_symbol (op : Operator) (next : List Char) : NumeralEnds (op.symbol.toList ++ next) := by
  obtain ⟨c, more, hop, -, -, -, -, hdigit, hdot⟩ := head_symbol op
  intro d hd
  rw [hop] at hd
  cases hd
  exact ⟨hdigit, hdot⟩

/-- Which phrases of a kind the readers for it have to take. -/
def Completes (scope : Scope) : {k : Kind} → Phrase k → List Char → List Char → Prop
  | .primary, p, text, rest => ∀ (s : State) (bound : Nat), s.cursor.ahead.dropWhile isBlank = text →
      s.cursor.lexeme = "" → text.length ≤ bound → Fits scope p s → NumeralEnds rest →
      Reads (primary scope (expression scope bound) bound) p s rest
  | .expression, p, text, rest => ∀ (s : State) (bound : Nat),
      s.cursor.ahead.dropWhile isBlank = text.dropWhile isBlank → s.cursor.lexeme = "" → text.length < bound →
      Fits scope p s → Ended s.brackets rest → Reads (expression scope bound) p s rest
  | .arguments, p, text, rest => ∀ (s : State) (bound : Nat), s.cursor.ahead = text → s.cursor.lexeme = "" →
      text.length < bound → Fits scope p s → s.brackets.head? = some .arguments → rest.head? = some ')' →
      Reads (arguments (expression scope bound) p.count) p s rest
  | .items, p, text, rest => ∀ (s : State) (bound count : Nat), s.cursor.ahead = text → s.cursor.lexeme = "" →
      text.length < bound → text.length ≤ count → Fits scope p s → s.brackets.head? = some .list →
      rest.head? = some ']' → Reads (listItems (expression scope bound) count) p s rest

section Cases

variable {scope : Scope} {rest : List Char}

/-! ## Primaries -/

section Dispatch

variable {s : State} {inner : Reader Unit} {n : Nat} {good : Unit → State → Prop} {bad : ReadError → State → Prop}
  {x : Char} {more : List Char}

theorem ends_primary_group (h : s.cursor.ahead.dropWhile isBlank = '(' :: more) :
    Ends (primary scope inner n) s good bad ↔
    Ends (group scope inner) { s with cursor := s.cursor.skipBlanks } good bad := by
  unfold primary
  simp [Cursor.isAt, Cursor.current, Cursor.skipBlanks, h]

theorem ends_primary_numeral (h : s.cursor.ahead.dropWhile isBlank = x :: more) (hx : isDigit x = true ∨ x = '-') :
    Ends (primary scope inner n) s good bad ↔ Ends numeral { s with cursor := s.cursor.skipBlanks } good bad := by
  have hopen : x ≠ '(' := by rintro rfl; revert hx; decide
  unfold primary
  simp [Cursor.isAt, Cursor.isAtAny, Cursor.current, Cursor.skipBlanks, h, hopen, hx]

/-- At a word, a primary is a function or a name. -/
theorem ends_primary_word {w : List Char} (hw : Word w more) (h : s.cursor.ahead.dropWhile isBlank = w ++ more) :
    Ends (primary scope inner n) s good bad ↔
      match functionAt? scope s.cursor.skipBlanks with
      | some (f, length) => Ends (call scope inner f length) { s with cursor := s.cursor.skipBlanks } good bad
      | none => Ends (boundName scope) { s with cursor := s.cursor.skipBlanks } good bad := by
  obtain ⟨x, w, rfl, hx⟩ := hw.exists_cons
  have hopen : x ≠ '(' := by rintro rfl; revert hx; decide
  have hminus : x ≠ '-' := by rintro rfl; revert hx; decide
  have hdigit := not_isDigit_of_isNameChar hx
  unfold primary
  simp only [ends_bind, ends_move, ends_look, ends_ite, id]
  rw [if_neg (by simp [Cursor.isAt, Cursor.current, Cursor.skipBlanks, h, hopen]),
    if_neg (by simp [Cursor.isAt, Cursor.isAtAny, Cursor.current, Cursor.skipBlanks, h, hminus, hdigit])]
  cases functionAt? scope s.cursor.skipBlanks with
  | some found => rfl
  | none =>
    simp only [ends_ite]
    rw [if_pos (by simp [Cursor.isAtAny, Cursor.current, Cursor.skipBlanks, h, hx])]

theorem ends_primary_call {f : Builtin} (hf : Word f.symbol.toList more)
    (h : s.cursor.ahead.dropWhile isBlank = f.symbol.toList ++ more) :
    Ends (primary scope inner n) s good bad ↔
      Ends (call scope inner f f.symbol.toList.length) { s with cursor := s.cursor.skipBlanks } good bad := by
  have hsome : functionAt? scope s.cursor.skipBlanks = some (f, f.symbol.toList.length) := functionAt?_of_word hf h
  rw [ends_primary_word hf h, hsome]

theorem ends_primary_name {w : List Char} (hw : Word w more) (hf : ∀ f : Builtin, f.symbol.toList ≠ w)
    (h : s.cursor.ahead.dropWhile isBlank = w ++ more) :
    Ends (primary scope inner n) s good bad ↔
      Ends (boundName scope) { s with cursor := s.cursor.skipBlanks } good bad := by
  have hnone : functionAt? scope s.cursor.skipBlanks = none := functionAt?_of_name hw h hf
  rw [ends_primary_word hw h, hnone]

theorem ends_primary_list (h : s.cursor.ahead.dropWhile isBlank = '[' :: more) :
    Ends (primary scope inner n) s good bad ↔
    Ends (listLiteral scope inner n) { s with cursor := s.cursor.skipBlanks } good bad := by
  have hf : functionAt? scope s.cursor.skipBlanks = none := functionAt?_of_head h (by decide)
  unfold primary
  simp only [ends_bind, ends_move, ends_look, ends_ite, id]
  rw [if_neg (by simp [Cursor.isAt, Cursor.current, Cursor.skipBlanks, h]),
    if_neg (by simp [Cursor.isAt, Cursor.isAtAny, Cursor.current, Cursor.skipBlanks, h]; decide), hf]
  simp only [ends_ite]
  rw [if_neg (by simp [Cursor.isAtAny, Cursor.current, Cursor.skipBlanks, h]; decide),
    if_pos (by simp [Cursor.isAt, Cursor.current, Cursor.skipBlanks, h])]

end Dispatch

theorem isAtAny_digits {c : Cursor} {w m : List Char} (hw : Digits w) (hc : c.ahead = w ++ m) :
    c.isAtAny isDigit = true := by
  obtain ⟨x, w, rfl, hx⟩ := hw.exists_cons
  simp [Cursor.isAtAny, Cursor.current, hc, hx]

theorem ends_unsigned_numeral (sign : List Char) {whole fraction past : List Char} {brackets : List Bracket}
    {tokens : List Token} (hw : Digits whole)
    (hf : fraction = [] ∨ ∃ digits, fraction = '.' :: digits ∧ Digits digits)
    (hr : NumeralEnds rest) :
    Ends unsigned ⟨⟨past, whole ++ (fraction ++ rest), String.ofList sign⟩, brackets, tokens⟩
      (fun _ s' => s'.cursor.ahead = rest ∧ s'.cursor.lexeme = "" ∧ s'.brackets = brackets ∧
        s'.tokens = ⟨String.ofList (sign ++ (whole ++ fraction)), .number⟩ :: tokens) fun _ _ => False := by
  -- the digits before the point end at the point, or where the numeral ends
  have hmore : ∀ c, (fraction ++ rest).head? = some c → isDigit c = false := by
    intro c hc
    rcases hf with rfl | ⟨digits, rfl, -⟩
    · exact (hr c hc).1
    · cases hc
      rfl
  obtain ⟨htake, hdrop⟩ := takeWhile_append hw.2 hmore
  unfold unsigned digits
  simp only [ends_bind, ends_look, ends_ite, ends_move, ends_require, ends_emit, Cursor.gatherWhile, htake, hdrop]
  rw [if_pos (isAtAny_digits hw rfl)]
  rcases hf with rfl | ⟨digits, rfl, hdigits⟩
  · rw [if_neg]
    · simp [String.ofList_append]
    · rw [isAt_iff]
      rintro ⟨more, hdot⟩
      simp only [List.nil_append] at hdot
      exact (hr '.' (by rw [hdot]; rfl)).2 rfl
  · obtain ⟨htake', hdrop'⟩ := takeWhile_append hdigits.2 fun c hc => (hr c hc).1
    rw [if_pos (by simp [Cursor.isAt, Cursor.current]),
      if_pos (isAtAny_digits (w := digits) (m := rest) hdigits (by simp [Cursor.gather]))]
    simp [Cursor.gather, htake', hdrop', String.ofList_append, String.append_assoc]

theorem completes_number {text : List Char} (hn : Numeral text) :
    Completes scope (.number text) (text ++ rest) rest := by
  intro s bound hahead hl _ _ hr
  obtain ⟨sign, whole, fraction, rfl, hsign, hw, hf⟩ := hn
  rcases s with ⟨⟨past, ahead, lexeme⟩, brackets, tokens⟩
  simp only at hahead hl
  subst hl
  unfold Reads
  rcases hsign with rfl | rfl
  · obtain ⟨x, w, hx, hdigit⟩ := hw.exists_cons
    have hminus : x ≠ '-' := by rintro rfl; revert hdigit; decide
    rw [ends_primary_numeral (by rw [hahead, hx]; rfl) (.inl hdigit), ends_numeral,
      if_neg (by simp [Cursor.isAt, Cursor.current, Cursor.skipBlanks, hahead, hx, hminus])]
    simp only [Cursor.skipBlanks, hahead, List.nil_append, List.append_assoc]
    simpa [Phrase.tokens] using ends_unsigned_numeral [] hw hf hr
  · rw [ends_primary_numeral (by rw [hahead]; rfl) (.inr rfl), ends_numeral,
      if_pos (by simp [Cursor.isAt, Cursor.current, Cursor.skipBlanks, hahead])]
    simp only [Cursor.skipBlanks, Cursor.gather, hahead, List.cons_append, List.nil_append, List.append_assoc,
      List.take_succ_cons, List.take_zero, List.drop_succ_cons, List.drop_zero]
    simpa [Phrase.tokens] using ends_unsigned_numeral ['-'] hw hf hr

theorem completes_name {w : List Char} (hw : Word w rest) (hf : ∀ f : Builtin, f.symbol.toList ≠ w) :
    Completes scope (.name w) (w ++ rest) rest := by
  intro s bound hahead hl _ hfits _
  rcases s with ⟨⟨past, ahead, lexeme⟩, brackets, tokens⟩
  simp only at hahead hl
  subst hl
  have hbound : scope.binds (String.ofList w) = true := hfits.bound _ (by simp [Phrase.names])
  unfold Reads
  rw [ends_primary_name hw hf hahead]
  unfold boundName
  simp only [ends_bind, ends_move, ends_look, ends_require, ends_emit, Cursor.gatherWhile, Cursor.skipBlanks, hahead,
    hw.takeWhile.1, hw.takeWhile.2]
  rw [if_pos (by simpa using hbound)]
  simp [Phrase.tokens]

theorem completes_constant {f : Builtin} (hw : Word f.symbol.toList rest) :
    Completes scope (.constant f) (f.symbol.toList ++ rest) rest := by
  intro s bound hahead hl _ hfits _
  rcases s with ⟨⟨past, ahead, lexeme⟩, brackets, tokens⟩
  simp only at hahead hl
  subst hl
  unfold Reads
  rw [ends_primary_call hw hahead]
  unfold call
  simp only [ends_bind, ends_ite, ends_move, ends_emit, ends_pure]
  have harity : f.arity = 0 := hfits.applied
  rw [if_pos harity]
  simp [Cursor.gather, Cursor.skipBlanks, hahead, Phrase.tokens]

/-- The mark that has to stand at the cursor. -/
theorem ends_expect {x : Char} {mark : Infix.Mark} {fault : Fault} {past more : List Char} {brackets : List Bracket}
    {tokens : List Token} {good : Unit → State → Prop} {bad : ReadError → State → Prop} :
    Ends (expect x mark fault) ⟨⟨past, x :: more, ""⟩, brackets, tokens⟩ good bad ↔
      good () ⟨⟨x :: past, more, ""⟩, brackets, ⟨String.singleton x, .mark mark⟩ :: tokens⟩ := by
  unfold expect
  simp only [ends_bind, ends_move, ends_require, ends_emit]
  rw [if_pos (by simp [Cursor.isAt, Cursor.current])]
  simp [Cursor.gather]

theorem completes_group {inner : Phrase .expression} {text : List Char} (h : Completes scope inner text (')' :: rest)) :
    Completes scope (.group inner) ('(' :: text) rest := by
  intro s bound hahead hl hlen hfits _
  rcases s with ⟨⟨past, ahead, lexeme⟩, brackets, tokens⟩
  simp only at hahead hl
  subst hl
  have hdepth : inner.depth + 1 ≤ scope.nestingLimit - brackets.length := hfits.depth
  unfold Reads
  rw [ends_primary_group hahead]
  unfold group
  simp only [ends_bind, ends_enter, ends_move, ends_emit, ends_leave]
  rw [if_pos (by omega)]
  simp only [Cursor.gather, Cursor.skipBlanks, hahead, List.take_succ_cons, List.take_zero, List.drop_succ_cons,
    List.drop_zero]
  refine (h _ bound rfl rfl hlen ⟨hfits.applied, hfits.bound, ?_, hfits.found⟩ (.inr ⟨.group, rfl, rfl⟩)).elim
    fun past' => ?_
  · rw [List.length_cons]
    omega
  · rw [ends_expect]
    refine ⟨rfl, rfl, rfl, ?_⟩
    simp [Phrase.tokens, Phrase.opening, Phrase.closing]

theorem completes_call {f : Builtin} {args : Phrase .arguments} {text : List Char}
    (h : Completes scope args text (')' :: rest)) :
    Completes scope (.call f args) (f.symbol.toList ++ '(' :: text) rest := by
  intro s bound hahead hl hlen hfits _
  rcases s with ⟨⟨past, ahead, lexeme⟩, brackets, tokens⟩
  simp only at hahead hl
  subst hl
  obtain ⟨hcount, happlied⟩ := hfits.applied
  have hdepth : args.depth + 1 ≤ scope.nestingLimit - brackets.length := hfits.depth
  have harity : f.arity ≠ 0 := by
    rw [← hcount]
    cases args <;> simp [Phrase.count]
  unfold Reads
  rw [ends_primary_call (word_symbol f rfl) hahead]
  unfold call
  simp only [ends_bind, ends_ite, ends_enter, ends_move, ends_require, ends_emit, ends_leave, ends_pure, Cursor.gather,
    Cursor.skipBlanks, hahead, List.take_left, List.drop_left, List.take_succ_cons, List.take_zero, List.drop_succ_cons,
    List.drop_zero]
  rw [if_neg harity, if_pos (by simp [Cursor.isAt, Cursor.current]), if_pos (by omega), ← hcount]
  refine (h _ bound rfl rfl ?_ ⟨happlied, hfits.bound, ?_, hfits.found⟩ rfl rfl).elim fun past' => ?_
  · rw [List.length_append, List.length_cons] at hlen
    omega
  · rw [List.length_cons]
    omega
  · rw [ends_expect]
    refine ⟨rfl, rfl, rfl, ?_⟩
    simp [Phrase.tokens, Phrase.opening, Phrase.closing]

theorem completes_list {items : Phrase .items} {text : List Char} (h : Completes scope items text (']' :: rest)) :
    Completes scope (.list items) ('[' :: text) rest := by
  intro s bound hahead hl hlen hfits _
  rcases s with ⟨⟨past, ahead, lexeme⟩, brackets, tokens⟩
  simp only at hahead hl
  subst hl
  have hdepth : items.depth + 1 ≤ scope.nestingLimit - brackets.length := hfits.depth
  rw [List.length_cons] at hlen
  unfold Reads
  rw [ends_primary_list hahead]
  unfold listLiteral
  simp only [ends_bind, ends_enter, ends_move, ends_note, ends_require, ends_emit, ends_leave]
  rw [if_pos (by omega)]
  simp only [Cursor.skipBlanks, hahead, Cursor.skip]
  refine (h _ bound bound rfl rfl hlen (by omega) ⟨hfits.applied, hfits.bound, ?_, hfits.found⟩ rfl rfl).elim
    fun past' => ?_
  · rw [List.length_cons]
    omega
  · rw [if_pos (by simp [Cursor.isAt, Cursor.current])]
    simp [Phrase.tokens]

/-! ## Expressions -/

theorem dropWhile_blanks_primary {p : Phrase .primary} {text more : List Char} (hp : p.Spells text more) (n : Nat) :
    (blanks n ++ text).dropWhile isBlank = text := by
  refine dropWhile_blanks n ?_
  obtain ⟨c, text, rfl, hc⟩ := hp.begins
  simpa using (head_begins hc).1

theorem completes_single {operand : Phrase .primary} {text : List Char} (before after : Nat)
    (hp : operand.Spells text (blanks after ++ rest)) (h : Completes scope operand text (blanks after ++ rest)) :
    Completes scope (.single operand) (blanks before ++ text) rest := by
  intro s bound hahead hl hlen hfits hended
  rw [dropWhile_blanks_primary hp] at hahead
  rw [List.length_append] at hlen
  obtain ⟨bound, rfl⟩ : ∃ b, bound = b + 1 := ⟨bound - 1, by omega⟩
  unfold Reads expression
  simp only [ends_bind, ends_move, ends_look, ends_get, ends_ite, ends_pure]
  refine (h s bound hahead hl (by omega) ⟨hfits.applied, hfits.bound, hfits.depth, hfits.found⟩
    (hended.numeralEnds.blanks_append after)).elim fun past' => ?_
  have hblank : rest.head? ≠ some ' ' := fun hc => by
    rcases hended.head hc with h | h | h <;> cases h
  have hrest : (blanks after ++ rest).dropWhile isBlank = rest := dropWhile_blanks after hblank
  rw [if_pos (Ended.atEnd (by simpa [Cursor.skipBlanks, hrest] using hended))]
  exact ⟨hrest, rfl, rfl, rfl⟩

theorem completes_chain {operand : Phrase .primary} {op : Operator}
    {more : Phrase .expression} {text next : List Char} (before after : Nat)
    (hp : operand.Spells text (blanks after ++ (op.symbol.toList ++ next))) (hm : more.Spells next rest)
    (h : Completes scope operand text (blanks after ++ (op.symbol.toList ++ next)))
    (h' : Completes scope more next rest) :
    Completes scope (.chain operand op more) (blanks before ++ text) rest := by
  rintro ⟨cursor, brackets, tokens⟩ bound hahead hl hlen hfits hended
  have hshort := hp.length_lt
  simp only [List.length_append] at hlen hshort
  obtain ⟨fits, fits'⟩ := hfits.parts (fun ha => ha) rfl rfl
    ((List.sublist_cons_self ..).append_left operand.operators).subset
  change Ended brackets rest at hended
  rw [dropWhile_blanks_primary hp] at hahead
  obtain ⟨bound, rfl⟩ : ∃ b, bound = b + 1 := ⟨bound - 1, by omega⟩
  unfold Reads expression
  simp only [ends_bind, ends_move, ends_look, ends_get, ends_ite, ends_pure]
  refine (h _ bound hahead hl (by omega) (fits _ _)
    ((numeralEnds_symbol op next).blanks_append after)).elim fun past' => ?_
  -- no operator begins with a blank, so it stands right behind those skipped
  have hrest := dropWhile_blanks_symbol after op next
  rw [not_atEnd op hrest, if_neg Bool.false_ne_true]
  have hfound := operatorAt_of_finds (hfits.found op (by simp [Phrase.operators])) hm.head_ne_equals
  simp only [Cursor.skipBlanks, hrest, hfound]
  simp only [ends_bind, ends_move, ends_emit, Cursor.gather, List.take_left, List.drop_left]
  refine (h' _ bound rfl rfl (by omega) (fits' _ _) hended).elim fun past' => ?_
  refine ⟨rfl, rfl, rfl, ?_⟩
  simp [Phrase.tokens]

/-! ## Arguments and items -/

theorem completes_argument {last : Phrase .expression} {text : List Char} (h : Completes scope last text rest) :
    Completes scope (.argument last) text rest := by
  intro s bound hahead hl hlen hfits hbracket hclose
  refine h s bound (by rw [hahead]) hl hlen ⟨hfits.applied, hfits.bound, hfits.depth, hfits.found⟩
    (.inr ⟨_, hbracket, ?_⟩)
  simp [Bracket.endsAt, Cursor.isAt, Cursor.current, hclose]

theorem completes_comma {first : Phrase .expression} {more : Phrase .arguments} {text next : List Char}
    (hf : first.Spells text (',' :: next)) (h : Completes scope first text (',' :: next))
    (h' : Completes scope more next rest) : Completes scope (.comma first more) text rest := by
  rintro ⟨cursor, brackets, tokens⟩ bound hahead hl hlen hfits hbracket hclose
  have hshort := hf.length_lt
  rw [List.length_cons] at hshort
  obtain ⟨fits, fits'⟩ := hfits.parts (fun ha => ha) rfl rfl (List.Subset.refl _)
  change brackets.head? = some .arguments at hbracket
  obtain ⟨count, hcount⟩ : ∃ n, more.count = n + 1 := by
    cases more with
    | argument last => exact ⟨0, rfl⟩
    | comma first rest => exact ⟨_, rfl⟩
  unfold Reads
  rw [Phrase.count, hcount, arguments]
  simp only [ends_bind]
  refine (h _ bound (by rw [hahead]) hl hlen (fits _ _)
    (.inr ⟨_, hbracket, rfl⟩)).elim fun past' => ?_
  rw [ends_expect, ← hcount]
  refine (h' _ bound rfl rfl (by omega) (fits' _ _) hbracket hclose).elim fun past' => ?_
  refine ⟨rfl, rfl, rfl, ?_⟩
  simp [Phrase.tokens, Phrase.between]

theorem completes_item {last : Phrase .expression} {text : List Char} (h : Completes scope last text rest)
    (hne : text ≠ []) : Completes scope (.item last) text rest := by
  rintro ⟨⟨past, ahead, lexeme⟩, brackets, tokens⟩ bound count hahead hl hlen hcount hfits hbracket hclose
  have hpos := List.length_pos_of_ne_nil hne
  obtain ⟨count, rfl⟩ : ∃ n, count = n + 1 := ⟨count - 1, by omega⟩
  simp only at hahead hl hbracket
  subst hahead hl
  unfold Reads listItems
  simp only [ends_bind, ends_move, ends_note, ends_look, ends_ite, ends_pure]
  have fits : ∀ c t, Fits scope last ⟨c, brackets, t⟩ := fun _ _ =>
    ⟨hfits.applied, hfits.bound, hfits.depth, hfits.found⟩
  refine (h _ bound ?_ rfl hlen (fits _ _) (.inr ⟨_, hbracket, ?_⟩)).elim fun past' => ?_
  · exact List.dropWhile_idempotent ..
  · simp [Bracket.endsAt, Cursor.isAt, Cursor.current, hclose]
  · rw [if_neg (by simp [Cursor.isAt, Cursor.current, hclose])]
    simp [Phrase.tokens]

theorem completes_more {first : Phrase .expression} {others : Phrase .items} {text next : List Char}
    (hf : first.Spells text (',' :: next)) (h : Completes scope first text (',' :: next))
    (h' : Completes scope others next rest) : Completes scope (.more first others) text rest := by
  rintro ⟨⟨past, ahead, lexeme⟩, brackets, tokens⟩ bound count hahead hl hlen hcount hfits hbracket hclose
  have hshort := hf.length_lt
  rw [List.length_cons] at hshort
  obtain ⟨fits, fits'⟩ := hfits.parts (fun ha => ha) rfl rfl (List.Subset.refl _)
  obtain ⟨count, rfl⟩ : ∃ n, count = n + 1 := ⟨count - 1, by omega⟩
  simp only at hahead hl hbracket
  subst hahead hl
  unfold Reads listItems
  simp only [ends_bind, ends_move, ends_note, ends_look, ends_ite, ends_pure]
  refine (h _ bound ?_ rfl hlen (fits _ _) (.inr ⟨_, hbracket, rfl⟩)).elim fun past' => ?_
  · exact List.dropWhile_idempotent ..
  · rw [if_pos (by simp [Cursor.isAt, Cursor.current])]
    simp only [Cursor.skip]
    refine (h' _ bound count rfl rfl (by omega) (by omega) (fits' _ _) hbracket hclose).elim fun past' => ?_
    refine ⟨rfl, rfl, rfl, ?_⟩
    simp [Phrase.tokens]

end Cases

/-- Wherever a text spells a phrase, the reader for its kind takes it. -/
theorem Phrase.Spells.completes {scope : Scope} {k : Kind} {p : Phrase k} {text rest : List Char}
    (h : p.Spells text rest) : Completes scope p text rest := by
  induction h with
  | number hn => exact completes_number hn
  | name hw hf => exact completes_name hw hf
  | group _ ih => exact completes_group ih
  | constant hw => exact completes_constant hw
  | call _ ih => exact completes_call ih
  | list _ ih => exact completes_list ih
  | single before after hp ih => exact completes_single before after hp ih
  | chain before after hp he ihp ihe => exact completes_chain before after hp he ihp ihe
  | argument _ ih => exact completes_argument ih
  | comma hf _ ihf ihr => exact completes_comma hf ihf ihr
  | item hs ih => exact completes_item ih (List.ne_nil_of_length_pos (Nat.zero_lt_of_lt hs.length_lt))
  | more hf _ ihf ihr => exact completes_more hf ihf ihr

/-! ## How primaries begin -/

/-- A text begins with one word. -/
theorem Word.unique {w w' rest rest' : List Char} (h : Word w rest) (h' : Word w' rest')
    (same : w ++ rest = w' ++ rest') : w = w' ∧ rest = rest' :=
  ⟨by rw [← h.takeWhile.1, same, h'.takeWhile.1], by rw [← h.takeWhile.2, same, h'.takeWhile.2]⟩

/-- The shape of a primary that begins with a character. -/
def Phrase.Shape.at (c : Char) : Shape :=
  if c = '(' then group else if c = '[' then list else if isNameChar c then word else number

/-- A character begins primaries of one shape. -/
theorem Phrase.Shape.Begins.at_eq {shape : Phrase.Shape} {c : Char} (h : shape.Begins c) : Shape.at c = shape := by
  cases shape with
  | number =>
    rcases h with h | rfl
    · have hopen : c ≠ '(' := by rintro rfl; revert h; decide
      have hlist : c ≠ '[' := by rintro rfl; revert h; decide
      have hname : ¬ isNameChar c = true := fun hname => by
        rw [not_isDigit_of_isNameChar hname] at h
        cases h
      rw [Shape.at, if_neg hopen, if_neg hlist, if_neg hname]
    · rfl
  | word =>
    have hname : isNameChar c = true := h
    have hopen : c ≠ '(' := by rintro rfl; cases h
    have hlist : c ≠ '[' := by rintro rfl; cases h
    rw [Shape.at, if_neg hopen, if_neg hlist, if_pos hname]
  | group =>
    cases h
    rfl
  | list =>
    cases h
    rfl

theorem Phrase.Spells.shape_of_word {q : Phrase .primary} {w more rest : List Char} (h : q.Spells (w ++ more) rest)
    (hw : Word w more) : q.shape = .word := by
  obtain ⟨x, w, rfl, hname⟩ := hw.exists_cons
  obtain ⟨c, _, same, hc⟩ := h.shape_begins
  cases same
  exact hc.at_eq.symm.trans (Shape.Begins.at_eq (hname : Shape.word.Begins x))

/-- What a word at the head of a text can be. -/
theorem Phrase.Spells.of_word {q : Phrase .primary} {w more rest : List Char} (h : q.Spells (w ++ more) rest)
    (hw : Word w more) :
    (q = .name w ∧ rest = more ∧ ∀ f : Builtin, f.symbol.toList ≠ w) ∨
    ∃ f : Builtin, f.symbol.toList = w ∧ (q = .constant f ∧ rest = more ∨
      ∃ args inner, q = .call f args ∧ more = '(' :: inner ∧ args.Spells inner (')' :: rest)) := by
  have hs := h.shape_of_word hw
  generalize ht : w ++ more = text at h
  cases h with
  | name hw' hf =>
    obtain ⟨rfl, rfl⟩ := hw.unique hw' ht
    exact .inl ⟨rfl, rfl, hf⟩
  | @constant f _ hw' =>
    obtain ⟨rfl, rfl⟩ := hw.unique hw' ht
    exact .inr ⟨f, rfl, .inl ⟨rfl, rfl⟩⟩
  | @call f args inner _ ha =>
    obtain ⟨rfl, rfl⟩ := hw.unique (word_symbol f rfl) ht
    exact .inr ⟨f, rfl, .inr ⟨args, inner, rfl, rfl, ha⟩⟩
  | _ => cases hs

/-! ## Formulas -/

theorem word_before_equals {w next : List Char} (n : Nat) (hne : w ≠ []) (hw : ∀ c ∈ w, isNameChar c = true) :
    Word w (blanks n ++ '=' :: next) := by
  refine ⟨hne, hw, fun c hc => ?_⟩
  cases n with
  | zero =>
    cases hc
    rfl
  | succ n =>
    rw [blanks, List.replicate_succ, List.cons_append] at hc
    cases hc
    rfl

/-- A primary that begins like an assignment is a whole word, and stops before the equals sign. -/
theorem Phrase.Spells.rest_of_word {p : Phrase .primary} {text rest w next : List Char} {n : Nat}
    (h : p.Spells text rest) (ht : text = w ++ (blanks n ++ '=' :: next)) (hw : Word w (blanks n ++ '=' :: next)) :
    rest = blanks n ++ '=' :: next := by
  subst ht
  obtain ⟨-, hrest, -⟩ | ⟨f, -, ⟨-, hrest⟩ | ⟨args, inner, -, hopen, -⟩⟩ := h.of_word hw
  · exact hrest
  · exact hrest
  · cases n <;> cases hopen

/-- An operator that begins with an equals sign has another one behind it. -/
theorem symbol_equals (op : Operator) {rest next : List Char} (h : op.symbol.toList ++ rest = '=' :: next) :
    next.head? = some '=' := by
  cases op <;> cases h
  rfl

/-- A text that is an expression is no assignment. -/
theorem Phrase.Spells.next_of_word {p : Phrase .expression} {text w next : List Char} {m n : Nat}
    (h : p.Spells text []) (ht : text = blanks m ++ (w ++ (blanks n ++ '=' :: next)))
    (hw : Word w (blanks n ++ '=' :: next)) : next.head? = some '=' := by
  have primary : ∀ {q : Phrase .primary} {t r : List Char} (k : Nat), q.Spells t r → text = blanks k ++ t →
      r = blanks n ++ '=' :: next := by
    intro q t r k hq hk
    refine hq.rest_of_word ?_ hw
    rw [← dropWhile_blanks_primary hq (n := k), ← hk, ht, dropWhile_blanks m hw.head_ne_blank]
  generalize hr : ([] : List Char) = r at h
  cases h with
  | single before after hp =>
    subst hr
    have hmem : '=' ∈ blanks after := by
      have hrest := primary before hp rfl
      rw [List.append_nil] at hrest
      rw [hrest]
      simp
    cases List.eq_of_mem_replicate hmem
  | @chain operand op more text next' rest before after hp he =>
    have hrest := primary before hp rfl
    refine symbol_equals op (?_ : op.symbol.toList ++ next' = '=' :: next)
    rw [← dropWhile_blanks_symbol after, hrest, dropWhile_blanks n (by simp)]

theorem target?_assign {text : String} {w next : List Char} {m n : Nat}
    (ht : text.toList = blanks m ++ (w ++ (blanks n ++ '=' :: next))) (hw : Word w (blanks n ++ '=' :: next))
    (hsingle : next.head? ≠ some '=') :
    ∃ c, target? (.ofText text) = (some (String.ofList w), c) ∧ c.lexeme = "" ∧ c.ahead = next := by
  have hpeek : next[0]? ≠ some '=' := by rwa [← List.head?_eq_getElem?]
  unfold target?
  simp only [Cursor.ofText, Cursor.skipBlanks, Cursor.gatherWhile, ht, dropWhile_blanks m hw.head_ne_blank,
    hw.takeWhile.1, hw.takeWhile.2, dropWhile_blanks n (show ('=' :: next).head? ≠ some ' ' by simp)]
  rw [if_pos (by simp [Cursor.isAt, Cursor.current, Cursor.peek, hw.1, hpeek])]
  simp only [Cursor.takeLexeme, Cursor.skip, String.empty_append]
  exact ⟨_, rfl, rfl, rfl⟩

/-- The name a formula assigns to is found, and its expression is what comes behind. -/
theorem Formula.Spells.target? {φ : Formula} {text : String} (h : φ.Spells text.toList) :
    ∃ c, target? (.ofText text) = (φ.target.map String.ofList, c) ∧ c.lexeme = "" ∧ φ.body.Spells c.ahead [] ∧
      c.ahead.length ≤ text.toList.length := by
  generalize htext : text.toList = chars at h
  cases h with
  | @plain body _ hb =>
    obtain ⟨target, c, ht⟩ : ∃ target c, Reading.target? (.ofText text) = (target, c) := ⟨_, _, rfl⟩
    cases target with
    | none =>
      obtain ⟨hl, hahead⟩ := target?_none ht
      rw [htext] at hahead
      exact ⟨c, ht, hl, by rwa [hahead], by rw [hahead]⟩
    | some name =>
      obtain ⟨-, before, after, w, -, hne, hw, hsingle, hsplit⟩ := target?_some ht
      rw [htext] at hsplit
      exact absurd (hb.next_of_word hsplit (word_before_equals after hne hw)) hsingle
  | @assign w next body before after hne hw hsingle hb =>
    obtain ⟨c, ht, hl, hahead⟩ := target?_assign htext (word_before_equals after hne hw) hsingle
    refine ⟨c, ht, hl, by rwa [hahead], ?_⟩
    rw [hahead]
    simp only [List.length_append, List.length_cons]
    omega

/-- A formula that may be read, and whose operators can be found, is read without an error. -/
theorem read_of_finds {scope : Scope} {text : String} {φ : Formula} (h : φ.Spells text.toList)
    (ha : φ.Admitted scope) (hf : ∀ op ∈ φ.body.operators, scope.policy.Finds op) : (read scope text).error? = none ∧
      (read scope text).target = φ.target.map String.ofList ∧ (read scope text).tokens = φ.body.tokens := by
  obtain ⟨c, ht, hl, hb, hlen⟩ := h.target?
  have ends_ : Ends (formula scope text) { cursor := c } (fun _ s' => s'.tokens = φ.body.tokens.reverse)
      fun _ _ => False := by
    unfold formula
    simp only [ends_bind, ends_require]
    refine (hb.completes { cursor := c } _ rfl hl (Nat.lt_succ_of_le hlen) ⟨ha.applied, ha.bound, ha.depth, hf⟩
      (.inl rfl)).mono ?_ fun _ _ h => h
    rintro - s' ⟨hahead, -, -, htokens⟩
    rw [if_pos (by simp [Cursor.hasMore, hahead]), htokens, List.append_nil]
  rcases read_cases ht ends_ with ⟨s, htokens, hread⟩ | ⟨-, -, impossible, -⟩
  · simp [hread, htokens]
  · exact impossible.elim

/-- Where symbols are matched as far as they go, every formula that may be read is read so. -/
theorem read_complete {scope : Scope} (hpolicy : scope.policy = .longest) {text : String} {φ : Formula}
    (h : φ.Spells text.toList) (ha : φ.Admitted scope) : (read scope text).error? = none ∧
      (read scope text).target = φ.target.map String.ofList ∧ (read scope text).tokens = φ.body.tokens := by
  refine read_of_finds h ha fun op _ hfirst => ?_
  rw [hpolicy] at hfirst
  cases hfirst

end Formulary.Reading
