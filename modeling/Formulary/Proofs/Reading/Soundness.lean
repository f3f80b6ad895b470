/-
What is read is a phrase. A reader that ends well has taken a phrase off the text and added its
tokens, and left the brackets as they were. A reader that fails has added the first tokens of some
phrase: what it read so far could have been completed.
-/
import Formulary.Proofs.Reading.Phrase
import Formulary.Proofs.Reading.Outcome
import Mathlib.Data.List.TakeWhile

namespace Formulary.Reading

open Text Symbols

/-! ## The cursor -/

theorem isAt_iff {c : Cursor} {x : Char} : c.isAt x = true ↔ ∃ rest, c.ahead = x :: rest := by
  rcases c with ⟨past, - | ⟨y, rest⟩, lexeme⟩ <;> simp [Cursor.isAt, Cursor.current]

theorem isAtAny_iff {c : Cursor} {test : Char → Bool} :
    c.isAtAny test = true ↔ ∃ x rest, c.ahead = x :: rest ∧ test x = true := by
  rcases c with ⟨past, - | ⟨y, rest⟩, lexeme⟩ <;> simp [Cursor.isAtAny, Cursor.current]

theorem isBlank_iff {c : Char} : isBlank c = true ↔ c = ' ' := by
  simp [isBlank]

theorem takeWhile_isBlank (text : List Char) : ∃ n, text.takeWhile isBlank = blanks n := by
  refine ⟨(text.takeWhile isBlank).length, List.eq_replicate_iff.2 ⟨rfl, fun c hc => ?_⟩⟩
  exact isBlank_iff.1 (List.mem_takeWhile_imp (p := isBlank) hc)

/-- A text is its leading blanks and what comes after them. -/
theorem exists_blanks (text : List Char) : ∃ n, text = blanks n ++ text.dropWhile isBlank := by
  obtain ⟨n, hn⟩ := takeWhile_isBlank text
  exact ⟨n, by rw [← hn, List.takeWhile_append_dropWhile]⟩

/-! ## What a reader takes -/

/-- A phrase has been read between two states. -/
structure Took (scope : Scope) {k : Kind} (p : Phrase k) (s s' : State) : Prop where
  spells : p.Spells s.cursor.ahead s'.cursor.ahead
  tokens : s'.tokens = p.tokens.reverse ++ s.tokens
  brackets : s'.brackets = s.brackets
  lexeme : s'.cursor.lexeme = ""
  applied : p.Applied
  bound : ∀ n ∈ p.names, scope.binds n = true
  depth : p.depth ≤ scope.nestingLimit - s.brackets.length

/-- The beginning of a phrase has been read between two states. -/
structure Began (scope : Scope) {k : Kind} (p : Phrase k) (s s' : State) : Prop where
  applied : p.Applied
  bound : ∀ n ∈ p.names, scope.binds n = true
  tokens : ∃ read, read <+: p.tokens ∧ s'.tokens = read.reverse ++ s.tokens

/-- A reader takes a phrase of a kind from a state, or the beginning of one. -/
def Takes (scope : Scope) (k : Kind) (r : Reader Unit) (s : State) : Prop :=
  Ends r s (fun _ s' => ∃ p : Phrase k, Took scope p s s') fun _ s' => ∃ p : Phrase k, Began scope p s s'

/-- A reader takes phrases of a kind wherever no lexeme has been begun. -/
def Sound (scope : Scope) (k : Kind) (r : Reader Unit) : Prop :=
  ∀ s : State, s.cursor.lexeme = "" → Takes scope k r s

theorem Took.began {scope : Scope} {k : Kind} {p : Phrase k} {s s' : State} (h : Took scope p s s') :
    Began scope p s s' :=
  ⟨h.applied, h.bound, p.tokens, List.prefix_refl _, h.tokens⟩

/-- Where a phrase has been read, only the place in the text is left open. -/
theorem Took.exists_eq {scope : Scope} {k : Kind} {p : Phrase k} {s s' : State} (h : Took scope p s s') :
    ∃ past ahead, s' = ⟨⟨past, ahead, ""⟩, s.brackets, p.tokens.reverse ++ s.tokens⟩ := by
  rcases s' with ⟨⟨past, ahead, lexeme⟩, brackets, tokens⟩
  obtain ⟨-, htokens, hbrackets, hlexeme, -, -, -⟩ := h
  simp only at htokens hbrackets hlexeme
  rw [htokens, hbrackets, hlexeme]
  exact ⟨past, ahead, rfl⟩

namespace Phrase

/-- The shortest phrase of a kind. -/
def shortest : (k : Kind) → Phrase k
  | .primary => number ['0']
  | .expression => single (number ['0'])
  | .arguments => argument (single (number ['0']))
  | .items => item (single (number ['0']))

/-- A number of shortest arguments, one more than told. -/
def zeros : Nat → Phrase .arguments
  | 0 => argument (shortest .expression)
  | n + 1 => comma (shortest .expression) (zeros n)

theorem count_zeros (n : Nat) : (zeros n).count = n + 1 := by
  induction n with
  | zero => rfl
  | succ n ih => rw [zeros, count, ih]

theorem applied_zeros (n : Nat) : (zeros n).Applied := by
  induction n with
  | zero => trivial
  | succ n ih => exact ⟨trivial, ih⟩

theorem names_zeros (n : Nat) : (zeros n).names = [] := by
  induction n with
  | zero => rfl
  | succ n ih => rw [zeros, names, ih]; rfl

end Phrase

theorem Began.none (scope : Scope) (k : Kind) {s s' : State} (h : s'.tokens = s.tokens) :
    Began scope (Phrase.shortest k) s s' := by
  refine ⟨?_, ?_, [], List.nil_prefix, h⟩ <;> cases k <;> simp [Phrase.shortest, Phrase.Applied, Phrase.names]

section Readers

variable {scope : Scope} {s : State}

/-! ## Numerals and names -/

theorem digits_takeWhile {c : Cursor} (h : c.isAtAny isDigit = true) : Digits (c.ahead.takeWhile isDigit) := by
  obtain ⟨x, rest, hahead, hx⟩ := isAtAny_iff.1 h
  refine ⟨?_, fun d hd => List.mem_takeWhile_imp (p := isDigit) hd⟩
  rw [hahead, List.takeWhile_cons_of_pos hx]
  exact List.cons_ne_nil _ _

/-- A numeral behind its sign. -/
def unsigned : Reader Unit := do
  digits .missingDigits
  if ← look (·.isAt '.') then
    move (·.gather 1)
    digits .missingFraction
  emit .number

theorem ends_numeral {good : Unit → State → Prop} {bad : ReadError → State → Prop} : Ends numeral s good bad ↔
    if s.cursor.isAt '-' then Ends unsigned { s with cursor := s.cursor.gather 1 } good bad
    else Ends unsigned s good bad := by
  unfold numeral unsigned digits
  simp only [ends_bind, ends_look, ends_ite, ends_move, ends_require, ends_emit]

theorem ends_unsigned {sign ahead past past' : List Char} {brackets : List Bracket} {tokens : List Token}
    (hs : sign = [] ∨ sign = ['-']) :
    Ends unsigned ⟨⟨past', ahead, String.ofList sign⟩, brackets, tokens⟩
      (fun _ s' => ∃ p : Phrase .primary, Took scope p ⟨⟨past, sign ++ ahead, ""⟩, brackets, tokens⟩ s')
      fun _ s' => ∃ p : Phrase .primary, Began scope p ⟨⟨past, sign ++ ahead, ""⟩, brackets, tokens⟩ s' := by
  -- the numeral read, whatever fraction it has
  have took : ∀ whole fraction rest past'' : List Char, ahead = whole ++ (fraction ++ rest) → Digits whole →
      (fraction = [] ∨ ∃ digits, fraction = '.' :: digits ∧ Digits digits) →
      ∃ p : Phrase .primary, Took scope p ⟨⟨past, sign ++ ahead, ""⟩, brackets, tokens⟩
        ⟨⟨past'', rest, ""⟩, brackets, ⟨String.ofList (sign ++ (whole ++ fraction)), .number⟩ :: tokens⟩ := by
    intro whole fraction rest past'' hahead hwhole hfraction
    refine ⟨.number (sign ++ (whole ++ fraction)), ?_, rfl, rfl, rfl, trivial, by simp [Phrase.names], Nat.zero_le _⟩
    have spelled : sign ++ ahead = sign ++ (whole ++ fraction) ++ rest := by rw [hahead]; simp
    show Phrase.Spells _ (sign ++ ahead) rest
    rw [spelled]
    exact .number ⟨sign, whole, fraction, rfl, hs, hwhole, hfraction⟩
  unfold unsigned digits
  simp only [ends_bind, ends_look, ends_ite, ends_move, ends_require, ends_emit]
  split
  · rename_i hd
    have hwhole := digits_takeWhile hd
    have hsplit := List.takeWhile_append_dropWhile (p := isDigit) (l := ahead)
    split
    · rename_i hdot
      obtain ⟨rest, hrest⟩ := isAt_iff.1 hdot
      simp only [Cursor.gatherWhile] at hrest
      split
      · rename_i hd'
        have hdigits := digits_takeWhile hd'
        simp only [Cursor.gatherWhile, Cursor.gather, hrest, List.take_succ_cons, List.take_zero, List.drop_succ_cons,
          List.drop_zero] at hdigits ⊢
        have := took (ahead.takeWhile isDigit) ('.' :: rest.takeWhile isDigit) (rest.dropWhile isDigit)
          ((rest.takeWhile isDigit).reverse ++ (['.'].reverse ++ ((ahead.takeWhile isDigit).reverse ++ past')))
          ?_ hwhole (.inr ⟨_, rfl, hdigits⟩)
        · simpa [String.ofList_append, String.append_assoc] using this
        · rw [List.cons_append, List.takeWhile_append_dropWhile, ← hrest, hsplit]
      · exact ⟨_, Began.none scope .primary rfl⟩
    · have := took (ahead.takeWhile isDigit) [] (ahead.dropWhile isDigit) ((ahead.takeWhile isDigit).reverse ++ past')
        (by simp) hwhole (.inl rfl)
      simpa [Cursor.gatherWhile, String.ofList_append] using this
  · exact ⟨_, Began.none scope .primary rfl⟩

theorem takes_numeral (hl : s.cursor.lexeme = "") : Takes scope .primary numeral s := by
  rcases s with ⟨⟨past, ahead, lexeme⟩, brackets, tokens⟩
  cases hl
  unfold Takes
  rw [ends_numeral]
  split
  · rename_i hsign
    obtain ⟨rest, rfl⟩ := isAt_iff.1 hsign
    exact ends_unsigned (.inr rfl)
  · exact ends_unsigned (.inl rfl)

theorem head?_dropWhile_isNameChar (text : List Char) {c : Char}
    (h : (text.dropWhile isNameChar).head? = some c) : isNameChar c = false := by
  have := List.head?_dropWhile_not isNameChar text
  rw [h] at this
  simpa using this

/-- A function at the cursor is a whole word. -/
theorem functionAt?_eq_some {c : Cursor} {f : Builtin} {n : Nat} (h : functionAt? scope c = some (f, n)) :
    n = f.symbol.toList.length ∧ ∃ rest, c.ahead = f.symbol.toList ++ rest ∧ Word f.symbol.toList rest := by
  obtain ⟨hat, hend⟩ := Option.filter_eq_some_iff.1 h
  obtain ⟨hn, hsymbol⟩ := builtinAt_sound hat
  have hahead : c.ahead = f.symbol.toList ++ c.ahead.drop n := by rw [hsymbol, List.take_append_drop]
  refine ⟨hn, c.ahead.drop n, hahead, f.symbol_ne_nil, f.symbol_nameChars, fun x hx => ?_⟩
  rw [List.head?_drop] at hx
  simpa [Cursor.isNameCharAt, Cursor.peek, hx] using hend

/-- Where no function is found, the word at the cursor is not a function's name. -/
theorem functionAt?_eq_none {c : Cursor} (h : functionAt? scope c = none) (f : Builtin) :
    f.symbol.toList ≠ c.ahead.takeWhile isNameChar := by
  intro hf
  have hahead : c.ahead = f.symbol.toList ++ c.ahead.dropWhile isNameChar := by
    rw [hf, List.takeWhile_append_dropWhile]
  have hat : builtinAt scope.policy c.ahead = some (f, f.symbol.toList.length) := by
    rw [hahead]
    exact builtinAt_symbol ..
  rw [functionAt?, hat] at h
  have hnext : (c.ahead.dropWhile isNameChar).head?.any isNameChar = true := by
    have hlen : c.peek f.symbol.toList.length = (c.ahead.dropWhile isNameChar).head? := by
      rw [Cursor.peek, hahead, List.getElem?_append_right (Nat.le_refl _), Nat.sub_self, ← hahead,
        List.head?_eq_getElem?]
    simpa [Cursor.isNameCharAt, hlen] using h
  cases hd : (c.ahead.dropWhile isNameChar).head? with
  | none => simp [hd] at hnext
  | some x =>
    rw [hd] at hnext
    have := head?_dropWhile_isNameChar c.ahead hd
    simp [this] at hnext

theorem takes_boundName (hl : s.cursor.lexeme = "") (hat : s.cursor.isAtAny isNameChar = true)
    (hf : functionAt? scope s.cursor = none) : Takes scope .primary (boundName scope) s := by
  rcases s with ⟨⟨past, ahead, lexeme⟩, brackets, tokens⟩
  cases hl
  unfold Takes boundName
  simp only [ends_bind, ends_move, ends_look, ends_require, ends_emit]
  split
  · rename_i hbound
    have word : Word (ahead.takeWhile isNameChar) (ahead.dropWhile isNameChar) := by
      obtain ⟨x, rest, rfl, hx⟩ := isAtAny_iff.1 hat
      refine ⟨?_, fun c hc => List.mem_takeWhile_imp (p := isNameChar) hc, fun c hc => head?_dropWhile_isNameChar _ hc⟩
      rw [List.takeWhile_cons_of_pos hx]
      exact List.cons_ne_nil _ _
    refine ⟨.name (ahead.takeWhile isNameChar), ?_, ?_, rfl, rfl, trivial, ?_, Nat.zero_le _⟩
    · have := Phrase.Spells.name word fun f => functionAt?_eq_none hf f
      rwa [List.takeWhile_append_dropWhile] at this
    · simp [Cursor.gatherWhile, Phrase.tokens]
    · simpa [Phrase.names, Cursor.gatherWhile] using hbound
  · exact ⟨_, Began.none scope .primary rfl⟩

/-! ## Brackets -/

variable {inner : Reader Unit}

/-- A bracket costs one level of what may still nest. -/
theorem depth_succ_le {depth limit level : Nat} (hlevel : level < limit) (h : depth ≤ limit - (level + 1)) :
    depth + 1 ≤ limit - level := by
  omega

theorem takes_group (he : Sound scope .expression inner) (hl : s.cursor.lexeme = "")
    (hat : s.cursor.isAt '(' = true) : Takes scope .primary (group scope inner) s := by
  rcases s with ⟨⟨past, ahead, lexeme⟩, brackets, tokens⟩
  obtain ⟨rest, rfl⟩ := isAt_iff.1 hat
  cases hl
  unfold Takes group expect
  simp only [ends_bind, ends_enter, ends_move, ends_require, ends_emit, ends_leave]
  split
  · rename_i hdepth
    refine (he _ rfl).mono ?_ ?_
    · rintro - s' ⟨p, hp⟩
      obtain ⟨past', ahead', rfl⟩ := hp.exists_eq
      split
      · rename_i hclose
        obtain ⟨rest', rfl⟩ := isAt_iff.1 hclose
        refine ⟨.group p, .group hp.spells, ?_, rfl, rfl, hp.applied, hp.bound, ?_⟩
        · simp [Phrase.tokens, Cursor.gather, Phrase.opening, Phrase.closing]
        · exact depth_succ_le hdepth hp.depth
      · refine ⟨.group p, hp.applied, hp.bound, Phrase.opening :: p.tokens, ?_, ?_⟩
        · exact (List.prefix_cons_inj _).2 (List.prefix_append ..)
        · simp [Cursor.gather, Phrase.opening]
    · rintro - ⟨⟨past', ahead', lexeme'⟩, brackets', tokens'⟩ ⟨p, happlied, hbound, read, hread, htokens⟩
      refine ⟨.group p, happlied, hbound, Phrase.opening :: read, ?_, ?_⟩
      · exact (List.prefix_cons_inj _).2 (hread.trans (List.prefix_append ..))
      · simp only at htokens
        simp [htokens, Cursor.gather, Phrase.opening]
  · exact ⟨_, Began.none scope .primary rfl⟩

/-- As many arguments as are asked for. -/
theorem ends_arguments (he : Sound scope .expression inner) (n : Nat) {s : State} (hl : s.cursor.lexeme = "") :
    Ends (arguments inner (n + 1)) s (fun _ s' => ∃ p : Phrase .arguments, p.count = n + 1 ∧ Took scope p s s')
      fun _ s' => ∃ p : Phrase .arguments, p.count = n + 1 ∧ Began scope p s s' := by
  induction n generalizing s with
  | zero =>
    refine (he s hl).mono ?_ ?_
    · rintro - s' ⟨p, hp⟩
      exact ⟨.argument p, rfl, .argument hp.spells, hp.tokens, hp.brackets, hp.lexeme, hp.applied, hp.bound, hp.depth⟩
    · rintro - s' ⟨p, hp⟩
      exact ⟨.argument p, rfl, hp.applied, hp.bound, hp.tokens⟩
  | succ n ih =>
    -- an argument that is not followed by the rest of them
    have began_zeros : ∀ {p : Phrase .expression} {s' : State}, Began scope p s s' →
        ∃ q : Phrase .arguments, q.count = n + 2 ∧ Began scope q s s' := by
      rintro p s' ⟨happlied, hbound, read, hread, htokens⟩
      refine ⟨.comma p (.zeros n), by rw [Phrase.count, Phrase.count_zeros], ⟨happlied, Phrase.applied_zeros n⟩, ?_,
        read, hread.trans (List.prefix_append ..), htokens⟩
      simpa [Phrase.names, Phrase.names_zeros] using hbound
    unfold arguments expect
    simp only [ends_bind, ends_move, ends_require, ends_emit]
    refine (he s hl).mono ?_ ?_
    · rintro - s' ⟨p, hp⟩
      obtain ⟨past', ahead', rfl⟩ := hp.exists_eq
      split
      · rename_i hcomma
        obtain ⟨rest, rfl⟩ := isAt_iff.1 hcomma
        refine (ih rfl).mono ?_ ?_
        · rintro - s' ⟨q, hcount, hq⟩
          refine ⟨.comma p q, by rw [Phrase.count, hcount], .comma hp.spells hq.spells, ?_, hq.brackets, hq.lexeme,
            ⟨hp.applied, hq.applied⟩, List.forall_mem_append.2 ⟨hp.bound, hq.bound⟩, max_le hp.depth hq.depth⟩
          simp [hq.tokens, Phrase.tokens, Cursor.gather, Phrase.between]
        · rintro - s' ⟨q, hcount, happlied, hbound, read, hread, htokens⟩
          refine ⟨.comma p q, by rw [Phrase.count, hcount], ⟨hp.applied, happlied⟩,
            List.forall_mem_append.2 ⟨hp.bound, hbound⟩, p.tokens ++ Phrase.between :: read, ?_, ?_⟩
          · exact (List.prefix_append_right_inj _).2 ((List.prefix_cons_inj _).2 hread)
          · simp [htokens, Cursor.gather, Phrase.between]
      · exact began_zeros hp.began
    · rintro - s' ⟨p, hp⟩
      exact began_zeros hp

theorem takes_call (he : Sound scope .expression inner) (hl : s.cursor.lexeme = "") {f : Builtin} {n : Nat}
    (hf : functionAt? scope s.cursor = some (f, n)) : Takes scope .primary (call scope inner f n) s := by
  obtain ⟨hn, rest, hahead, hword⟩ := functionAt?_eq_some hf
  rcases s with ⟨⟨past, ahead, lexeme⟩, brackets, tokens⟩
  simp only at hl hahead
  subst hl hahead hn
  unfold Takes call expect
  simp only [ends_bind, ends_ite, ends_enter, ends_move, ends_require, ends_emit, ends_leave, ends_pure]
  split
  · rename_i harity
    refine ⟨.constant f, ?_, ?_, rfl, rfl, harity, by simp [Phrase.names], Nat.zero_le _⟩
    · simpa [Cursor.gather] using Phrase.Spells.constant hword
    · simp [Cursor.gather, Phrase.tokens]
  · rename_i harity
    obtain ⟨k, hk⟩ := Nat.exists_eq_succ_of_ne_zero harity
    -- what stands between the parentheses, if nothing does
    have applied : (Phrase.call f (.zeros k)).Applied := ⟨(Phrase.count_zeros k).trans hk.symm, Phrase.applied_zeros k⟩
    have bound : ∀ m ∈ (Phrase.call f (.zeros k)).names, scope.binds m = true := by
      simp [Phrase.names, Phrase.names_zeros]
    split
    · rename_i hopen
      obtain ⟨inside, hinside⟩ := isAt_iff.1 hopen
      simp only [Cursor.gather, List.drop_left] at hinside
      subst hinside
      split
      · rename_i hdepth
        rw [hk]
        refine (ends_arguments he k rfl).mono ?_ ?_
        · rintro - s' ⟨p, hcount, hp⟩
          obtain ⟨past', ahead', rfl⟩ := hp.exists_eq
          have hspells := hp.spells
          simp only [Cursor.gather, List.drop_left] at hspells
          split
          · rename_i hclose
            obtain ⟨rest', rfl⟩ := isAt_iff.1 hclose
            refine ⟨.call f p, .call hspells, ?_, rfl, rfl, ⟨hcount.trans hk.symm, hp.applied⟩, hp.bound, ?_⟩
            · simp [Phrase.tokens, Cursor.gather, Phrase.opening, Phrase.closing]
            · exact depth_succ_le hdepth hp.depth
          · refine ⟨.call f p, ⟨hcount.trans hk.symm, hp.applied⟩, hp.bound,
              ⟨f.symbol, .builtin f⟩ :: Phrase.opening :: p.tokens, ?_, ?_⟩
            · exact (List.prefix_cons_inj _).2 ((List.prefix_cons_inj _).2 (List.prefix_append ..))
            · simp [Cursor.gather, Phrase.opening]
        · rintro - s' ⟨p, hcount, happlied, hbound, read, hread, htokens⟩
          refine ⟨.call f p, ⟨hcount.trans hk.symm, happlied⟩, hbound,
            ⟨f.symbol, .builtin f⟩ :: Phrase.opening :: read, ?_, ?_⟩
          · exact (List.prefix_cons_inj _).2 ((List.prefix_cons_inj _).2 (hread.trans (List.prefix_append ..)))
          · simp only [Cursor.gather, List.drop_left] at htokens
            simp [htokens, Phrase.opening]
      · refine ⟨_, applied, bound, [⟨f.symbol, .builtin f⟩], ?_, by simp [Cursor.gather]⟩
        exact (List.prefix_cons_inj _).2 List.nil_prefix
    · refine ⟨_, applied, bound, [⟨f.symbol, .builtin f⟩], ?_, by simp [Cursor.gather]⟩
      exact (List.prefix_cons_inj _).2 List.nil_prefix

theorem takes_listItems (he : Sound scope .expression inner) (n : Nat) {s : State} (hl : s.cursor.lexeme = "") :
    Takes scope .items (listItems inner n) s := by
  induction n generalizing s with
  | zero => exact ⟨_, Began.none scope .items rfl⟩
  | succ n ih =>
    rcases s with ⟨⟨past, ahead, lexeme⟩, brackets, tokens⟩
    cases hl
    obtain ⟨before, hbefore⟩ := exists_blanks ahead
    unfold Takes listItems
    simp only [ends_bind, ends_move, ends_note, ends_look, ends_ite, ends_pure]
    refine (he _ rfl).mono ?_ ?_
    · rintro - s' ⟨p, hp⟩
      obtain ⟨past', ahead', rfl⟩ := hp.exists_eq
      -- the blanks before an item belong to the expression in it
      have spelled := hp.spells.blanks_append before
      simp only [Cursor.skipBlanks] at spelled
      rw [← hbefore] at spelled
      split
      · rename_i hcomma
        obtain ⟨rest, rfl⟩ := isAt_iff.1 hcomma
        refine (ih rfl).mono ?_ ?_
        · rintro - s' ⟨q, hq⟩
          refine ⟨.more p q, .more spelled hq.spells, ?_, hq.brackets, hq.lexeme, ⟨hp.applied, hq.applied⟩,
            List.forall_mem_append.2 ⟨hp.bound, hq.bound⟩, max_le hp.depth hq.depth⟩
          simp [hq.tokens, Phrase.tokens]
        · rintro - s' ⟨q, happlied, hbound, read, hread, htokens⟩
          refine ⟨.more p q, ⟨hp.applied, happlied⟩, List.forall_mem_append.2 ⟨hp.bound, hbound⟩,
            p.tokens ++ ⟨"", .itemEnd⟩ :: read, ?_, ?_⟩
          · exact (List.prefix_append_right_inj _).2 ((List.prefix_cons_inj _).2 hread)
          · simp [htokens]
      · exact ⟨.item p, .item spelled, by simp [Phrase.tokens], rfl, rfl, hp.applied, hp.bound, hp.depth⟩
    · rintro - s' ⟨p, happlied, hbound, read, hread, htokens⟩
      exact ⟨.item p, happlied, hbound, read, hread.trans (List.prefix_append ..), htokens⟩

theorem takes_listLiteral (he : Sound scope .expression inner) (n : Nat) (hl : s.cursor.lexeme = "")
    (hat : s.cursor.isAt '[' = true) : Takes scope .primary (listLiteral scope inner n) s := by
  rcases s with ⟨⟨past, ahead, lexeme⟩, brackets, tokens⟩
  obtain ⟨rest, rfl⟩ := isAt_iff.1 hat
  cases hl
  unfold Takes listLiteral
  simp only [ends_bind, ends_enter, ends_move, ends_note, ends_require, ends_emit, ends_leave]
  split
  · rename_i hdepth
    refine (takes_listItems he n rfl).mono ?_ ?_
    · rintro - s' ⟨p, hp⟩
      obtain ⟨past', ahead', rfl⟩ := hp.exists_eq
      split
      · rename_i hclose
        obtain ⟨rest', rfl⟩ := isAt_iff.1 hclose
        refine ⟨.list p, .list hp.spells, by simp [Phrase.tokens, Cursor.skip], rfl, rfl, hp.applied, hp.bound, ?_⟩
        exact depth_succ_le hdepth hp.depth
      · refine ⟨.list p, hp.applied, hp.bound, ⟨"", .listStart⟩ :: p.tokens, ?_, by simp⟩
        exact (List.prefix_cons_inj _).2 (List.prefix_append ..)
    · rintro - s' ⟨p, happlied, hbound, read, hread, htokens⟩
      refine ⟨.list p, happlied, hbound, ⟨"", .listStart⟩ :: read, ?_, by simp [htokens]⟩
      exact (List.prefix_cons_inj _).2 (hread.trans (List.prefix_append ..))
  · exact ⟨_, Began.none scope .primary rfl⟩

/-! ## Primaries and expressions -/

/-- A primary begins behind the blanks at the cursor. -/
theorem takes_primary (he : Sound scope .expression inner) (n : Nat) (hl : s.cursor.lexeme = "") :
    Ends (primary scope inner n) s
      (fun _ s' => ∃ p : Phrase .primary, Took scope p { s with cursor := s.cursor.skipBlanks } s')
      fun _ s' => ∃ p : Phrase .primary, Began scope p { s with cursor := s.cursor.skipBlanks } s' := by
  have hl' : s.cursor.skipBlanks.lexeme = "" := hl
  unfold primary
  simp only [ends_bind, ends_move, ends_look, ends_ite, id]
  split
  · rename_i hopen
    exact takes_group he hl' hopen
  · split
    · exact takes_numeral hl'
    · split
      · rename_i f length hf
        exact takes_call (s := { s with cursor := s.cursor.skipBlanks }) he hl' hf
      · rename_i hf
        simp only [ends_ite]
        split
        · rename_i hname
          exact takes_boundName hl' hname hf
        · split
          · rename_i hlist
            exact takes_listLiteral he n hl' hlist
          · exact ⟨_, Began.none scope .primary rfl⟩

/-- What is read as an expression is one. -/
theorem sound_expression (scope : Scope) (bound : Nat) : Sound scope .expression (expression scope bound) := by
  induction bound with
  | zero => exact fun s _ => ⟨_, Began.none scope .expression rfl⟩
  | succ bound ih =>
    intro s hl
    obtain ⟨before, hbefore⟩ := exists_blanks s.cursor.ahead
    unfold Takes expression
    simp only [ends_bind, ends_move, ends_look, ends_get, ends_ite, ends_pure]
    refine (takes_primary ih bound hl).mono ?_ ?_
    · rintro - s' ⟨p, hp⟩
      obtain ⟨past', ahead', rfl⟩ := hp.exists_eq
      obtain ⟨after, hafter⟩ := exists_blanks ahead'
      have hspells : p.Spells (s.cursor.ahead.dropWhile isBlank) ahead' := hp.spells
      rw [hafter] at hspells
      split
      · refine ⟨.single p, ?_, rfl, rfl, rfl, hp.applied, hp.bound, hp.depth⟩
        have := Phrase.Spells.single before after hspells
        rwa [← hbefore] at this
      · split
        · exact ⟨.single p, hp.applied, hp.bound, p.tokens, List.prefix_refl _, rfl⟩
        · rename_i op length hop
          simp only [ends_bind, ends_move, ends_emit]
          obtain ⟨hlength, hsymbol⟩ := operatorAt_sound hop
          simp only [Cursor.skipBlanks] at hsymbol
          have hrest : ahead'.dropWhile isBlank = op.symbol.toList ++ (ahead'.dropWhile isBlank).drop length := by
            rw [hsymbol, List.take_append_drop]
          -- what is gathered for the operator is its symbol
          have text : ({ past := past', ahead := ahead', lexeme := "" } : Cursor).skipBlanks.gather length =
              { past :=
                  ((ahead'.dropWhile isBlank).take length).reverse ++ ((ahead'.takeWhile isBlank).reverse ++ past'),
                ahead := (ahead'.dropWhile isBlank).drop length, lexeme := op.symbol } := by
            rw [Cursor.gather, Cursor.skipBlanks, ← hsymbol]
            simp
          rw [text]
          refine (ih _ rfl).mono ?_ ?_
          · rintro - s' ⟨q, hq⟩
            refine ⟨.chain p op q, ?_, ?_, hq.brackets, hq.lexeme, ⟨hp.applied, hq.applied⟩,
              List.forall_mem_append.2 ⟨hp.bound, hq.bound⟩, max_le hp.depth hq.depth⟩
            · rw [hrest] at hspells
              have := Phrase.Spells.chain before after hspells hq.spells
              rwa [← hbefore] at this
            · simp [hq.tokens, Phrase.tokens]
          · rintro - s' ⟨q, happlied, hbound, read, hread, htokens⟩
            refine ⟨.chain p op q, ⟨hp.applied, happlied⟩, List.forall_mem_append.2 ⟨hp.bound, hbound⟩,
              p.tokens ++ ⟨op.symbol, .operator op⟩ :: read, ?_, ?_⟩
            · exact (List.prefix_append_right_inj _).2 ((List.prefix_cons_inj _).2 hread)
            · simp [htokens]
    · rintro - s' ⟨p, happlied, hbound, htokens⟩
      exact ⟨.single p, happlied, hbound, htokens⟩

end Readers

/-! ## Formulas -/

/-- What may be read: its functions have their arguments, its names are bound, and its brackets nest
no deeper than the limit. -/
structure Formula.Admitted (scope : Scope) (φ : Formula) : Prop where
  applied : φ.body.Applied
  bound : ∀ n ∈ φ.body.names, scope.binds n = true
  depth : φ.body.depth ≤ scope.nestingLimit

/-- A text with a name to assign to. -/
theorem target?_some {text : String} {name : String} {c : Cursor} (h : target? (.ofText text) = (some name, c)) :
    c.lexeme = "" ∧ ∃ before after w, name = String.ofList w ∧ w ≠ [] ∧ (∀ x ∈ w, isNameChar x = true) ∧
      c.ahead.head? ≠ some '=' ∧ text.toList = blanks before ++ (w ++ (blanks after ++ '=' :: c.ahead)) := by
  unfold target? at h
  dsimp only at h
  split at h
  · rename_i hcond
    simp only [Cursor.ofText, Cursor.skipBlanks, Cursor.gatherWhile] at h hcond
    simp only [Bool.and_eq_true, isAt_iff] at hcond
    obtain ⟨⟨hname, rest, hequals⟩, hsingle⟩ := hcond
    obtain ⟨before, hbefore⟩ := exists_blanks text.toList
    obtain ⟨after, hafter⟩ := exists_blanks ((text.toList.dropWhile isBlank).dropWhile isNameChar)
    simp only [Cursor.skip, hequals, Cursor.takeLexeme, Prod.mk.injEq, Option.some.injEq] at h
    obtain ⟨rfl, rfl⟩ := h
    refine ⟨rfl, before, after, (text.toList.dropWhile isBlank).takeWhile isNameChar, by simp, ?_, ?_, ?_, ?_⟩
    · rintro hnil
      simp [hnil] at hname
    · exact fun x hx => List.mem_takeWhile_imp (p := isNameChar) hx
    · rw [Cursor.peek, hequals, List.getElem?_cons_succ] at hsingle
      rw [List.head?_eq_getElem?]
      simpa using hsingle
    · rw [← hequals, ← hafter, List.takeWhile_append_dropWhile, ← hbefore]
  · cases h

/-- A text without one is read from its start. -/
theorem target?_none {text : String} {c : Cursor} (h : target? (.ofText text) = (none, c)) :
    c.lexeme = "" ∧ c.ahead = text.toList := by
  unfold target? at h
  dsimp only at h
  split at h
  · simp [Cursor.takeLexeme] at h
  · simp only [Cursor.ofText, Cursor.skipBlanks, Cursor.gatherWhile, Cursor.rewind, Prod.mk.injEq, true_and] at h
    subst h
    refine ⟨rfl, ?_⟩
    simp

/-- Behind the target no lexeme has been begun. -/
theorem lexeme_of_target? {text : String} {target : Option String} {c : Cursor}
    (h : target? (.ofText text) = (target, c)) : c.lexeme = "" := by
  cases target with
  | none => exact (target?_none h).1
  | some name => exact (target?_some h).1

/-- The reader of a whole formula behind its target. -/
def formula (scope : Scope) (text : String) : Reader Unit := do
  expression scope ((Cursor.ofText text).ahead.length + 1)
  require (!·.hasMore) .expectedOperator

/-- What a reading comes to: its tokens, the place where it ended, and its error if it failed. -/
theorem read_cases {scope : Scope} {text : String} {target : Option String} {c : Cursor}
    (ht : target? (.ofText text) = (target, c)) {good : Unit → State → Prop} {bad : ReadError → State → Prop}
    (h : Ends (formula scope text) { cursor := c } good bad) :
    (∃ s, good () s ∧ read scope text = ⟨target, s.tokens.reverse, s.cursor, none⟩) ∨
      ∃ e s, bad e s ∧ read scope text = ⟨target, s.tokens.reverse, s.cursor, some e⟩ := by
  unfold Ends at h
  unfold read
  dsimp only
  rw [ht]
  split at h
  · rename_i s hs
    unfold formula at hs
    exact .inl ⟨s, h, by rw [hs]⟩
  · rename_i e s hs
    unfold formula at hs
    exact .inr ⟨e, s, h, by rw [hs]⟩

theorem ends_formula (scope : Scope) (text : String) {s : State} (hl : s.cursor.lexeme = "") :
    Ends (formula scope text) s (fun _ s' => s'.cursor.ahead = [] ∧ ∃ p : Phrase .expression, Took scope p s s')
      fun _ s' => ∃ p : Phrase .expression, Began scope p s s' := by
  unfold formula
  simp only [ends_bind, ends_require]
  refine (sound_expression scope _ s hl).mono ?_ fun _ _ h => h
  rintro - s' ⟨p, hp⟩
  split
  · rename_i hend
    exact ⟨by simpa [Cursor.hasMore] using hend, p, hp⟩
  · exact ⟨p, hp.began⟩

/-- What is read without an error is a formula, and these are its tokens. -/
theorem read_sound {scope : Scope} {text : String} (h : (read scope text).error? = none) :
    ∃ φ : Formula, φ.Spells text.toList ∧ φ.Admitted scope ∧ (read scope text).target = φ.target.map String.ofList ∧
      (read scope text).tokens = φ.body.tokens := by
  rcases ht : target? (.ofText text) with ⟨target, c⟩
  rcases read_cases ht (ends_formula scope text (lexeme_of_target? ht)) with
    ⟨s, ⟨hend, p, hp⟩, hread⟩ | ⟨e, s, -, hread⟩
  · have spelled : p.Spells c.ahead [] := hend ▸ hp.spells
    have depth : p.depth ≤ scope.nestingLimit := hp.depth
    have tokens : s.tokens.reverse = p.tokens := by rw [hp.tokens]; simp
    rw [hread]
    cases target with
    | none =>
      refine ⟨⟨none, p⟩, ?_, ⟨hp.applied, hp.bound, depth⟩, rfl, tokens⟩
      rw [← (target?_none ht).2]
      exact .plain spelled
    | some name =>
      obtain ⟨-, before, after, w, rfl, hne, hw, hsingle, htext⟩ := target?_some ht
      refine ⟨⟨some w, p⟩, ?_, ⟨hp.applied, hp.bound, depth⟩, rfl, tokens⟩
      rw [htext]
      exact .assign before after hne hw hsingle spelled
  · rw [hread] at h
    cases h

end Formulary.Reading
