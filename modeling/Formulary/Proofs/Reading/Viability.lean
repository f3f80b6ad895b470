/-
What has been read before an error could have been completed. Where a reader fails, and not because a
name is not bound or brackets nest too deep, the text read since it began is the beginning of a phrase
that could be read: what is missing of the phrase can be written behind it, whatever was found there
instead.
-/
import Formulary.Proofs.Reading.Completeness
import Formulary.Proofs.Reading.Steps

namespace Formulary

open Text Symbols

/-- A fault that lies in what formulas are read against: a name that is not bound, or a limit. -/
def Fault.OfScope (fault : Fault) : Prop :=
  (∃ name, fault = .undefinedVariable name) ∨ ∃ limit, fault = .nestingTooDeep limit

namespace Reading

/-! ## Another rest -/

/-- One rest can stand in place of another: no name goes on in it that did not go on before. -/
def Replaces (rest' rest : List Char) : Prop :=
  ∀ c, rest'.head? = some c → isNameChar c = true → rest.head? = some c

theorem replaces_cons {c : Char} {rest' rest : List Char} : Replaces (c :: rest') (c :: rest) :=
  fun _ h _ => h

theorem Replaces.append {rest' rest : List Char} (h : Replaces rest' rest) (before : List Char) :
    Replaces (before ++ rest') (before ++ rest) := by
  cases before with
  | nil => exact h
  | cons c before => exact replaces_cons

theorem replaces_symbol (op : Operator) (rest' rest : List Char) :
    Replaces (op.symbol.toList ++ rest') (op.symbol.toList ++ rest) := by
  obtain ⟨c, more, hop, -⟩ := head_symbol op
  rw [hop]
  exact replaces_cons

/-- A word stays one. -/
theorem Word.replace {w rest rest' : List Char} (h : Word w rest) (hr : Replaces rest' rest) : Word w rest' := by
  refine ⟨h.1, h.2.1, fun c hc => ?_⟩
  by_contra hname
  have hname : isNameChar c = true := by simpa using hname
  rw [h.2.2 c (hr c hc hname)] at hname
  cases hname

/-- The same text spells a phrase before another rest. -/
theorem Phrase.Spells.exists_read {k : Kind} {p : Phrase k} {text rest : List Char} (h : p.Spells text rest) :
    ∃ read, text = read ++ rest ∧ ∀ rest', Replaces rest' rest → p.Spells (read ++ rest') rest' := by
  induction h with
  | @number text rest hn => exact ⟨text, rfl, fun rest' _ => .number hn⟩
  | @name text rest hw hf => exact ⟨text, rfl, fun rest' hr => .name (hw.replace hr) hf⟩
  | @group inner text rest _ ih =>
    obtain ⟨read, rfl, hread⟩ := ih
    refine ⟨'(' :: (read ++ [')']), by simp, fun rest' _ => ?_⟩
    have := Phrase.Spells.group (hread (')' :: rest') replaces_cons)
    simpa using this
  | @constant f rest hw => exact ⟨f.symbol.toList, rfl, fun rest' hr => .constant (hw.replace hr)⟩
  | @call f args text rest _ ih =>
    obtain ⟨read, rfl, hread⟩ := ih
    refine ⟨f.symbol.toList ++ '(' :: (read ++ [')']), by simp, fun rest' _ => ?_⟩
    have := Phrase.Spells.call (f := f) (hread (')' :: rest') replaces_cons)
    simpa using this
  | @list items text rest _ ih =>
    obtain ⟨read, rfl, hread⟩ := ih
    refine ⟨'[' :: (read ++ [']']), by simp, fun rest' _ => ?_⟩
    have := Phrase.Spells.list (hread (']' :: rest') replaces_cons)
    simpa using this
  | @single operand text rest before after _ ih =>
    obtain ⟨read, rfl, hread⟩ := ih
    refine ⟨blanks before ++ (read ++ blanks after), by simp, fun rest' hr => ?_⟩
    have := Phrase.Spells.single before after (hread _ (hr.append _))
    simpa using this
  | @chain operand op more text next rest before after _ _ ih ih' =>
    obtain ⟨read, rfl, hread⟩ := ih
    obtain ⟨read', rfl, hread'⟩ := ih'
    refine ⟨blanks before ++ (read ++ (blanks after ++ (op.symbol.toList ++ read'))), by simp, fun rest' hr => ?_⟩
    have := Phrase.Spells.chain before after (hread _ ((replaces_symbol op _ _).append _)) (hread' rest' hr)
    simpa using this
  | argument _ ih =>
    obtain ⟨read, rfl, hread⟩ := ih
    exact ⟨read, rfl, fun rest' hr => .argument (hread rest' hr)⟩
  | @comma first more text next rest _ _ ih ih' =>
    obtain ⟨read, rfl, hread⟩ := ih
    obtain ⟨read', rfl, hread'⟩ := ih'
    refine ⟨read ++ ',' :: read', by simp, fun rest' hr => ?_⟩
    have := Phrase.Spells.comma (hread _ replaces_cons) (hread' rest' hr)
    simpa using this
  | item _ ih =>
    obtain ⟨read, rfl, hread⟩ := ih
    exact ⟨read, rfl, fun rest' hr => .item (hread rest' hr)⟩
  | @more first others text next rest _ _ ih ih' =>
    obtain ⟨read, rfl, hread⟩ := ih
    obtain ⟨read', rfl, hread'⟩ := ih'
    refine ⟨read ++ ',' :: read', by simp, fun rest' hr => ?_⟩
    have := Phrase.Spells.more (hread _ replaces_cons) (hread' rest' hr)
    simpa using this

/-! ## Phrases that have been begun -/

/-- No name goes on in a rest. -/
def Unnamed (rest : List Char) : Prop :=
  ∀ c, rest.head? = some c → isNameChar c = false

theorem unnamed_cons {c : Char} (h : isNameChar c = false) (rest : List Char) : Unnamed (c :: rest) := by
  rintro _ ⟨⟩
  exact h

theorem Unnamed.replaces {rest' : List Char} (h : Unnamed rest') (rest : List Char) : Replaces rest' rest := by
  intro c hc hname
  rw [h c hc] at hname
  cases hname

namespace Phrase

/-- A text begins with the beginning of a phrase, up to a rest: with more of it in place of that rest,
the phrase would be complete. -/
def Continues {k : Kind} (p : Phrase k) (text rest : List Char) : Prop :=
  ∃ read more, text = read ++ rest ∧ ∀ rest', Unnamed rest' → p.Spells (read ++ (more ++ rest')) rest'

section Continues

variable {k : Kind} {text next rest : List Char} {inner : Phrase .expression} {args : Phrase .arguments}
  {items : Phrase .items} {operand : Phrase .primary}

/-- Of a phrase that has been read nothing is missing. -/
theorem Spells.continues {p : Phrase k} (h : p.Spells text rest) : p.Continues text rest := by
  obtain ⟨read, htext, hread⟩ := h.exists_read
  exact ⟨read, [], htext, fun rest' hr => hread rest' (hr.replaces rest)⟩

theorem continues_shortest (k : Kind) (text : List Char) : (shortest k).Continues text text := by
  have zero : ∀ rest, Spells (.number ['0']) (['0'] ++ rest) rest := fun _ => .number (numeral_digit rfl)
  have digit : ∀ rest, Spells (.single (.number ['0'])) (['0'] ++ rest) rest := fun rest => .single 0 0 (zero rest)
  refine ⟨[], ['0'], rfl, fun rest _ => ?_⟩
  cases k with
  | primary => exact zero rest
  | expression => exact digit rest
  | arguments => exact .argument (digit rest)
  | items => exact .item (digit rest)

theorem Continues.argument (h : inner.Continues text rest) : (argument inner).Continues text rest := by
  obtain ⟨read, more, htext, hmore⟩ := h
  exact ⟨read, more, htext, fun rest' hr => .argument (hmore rest' hr)⟩

theorem Continues.item (h : inner.Continues text rest) : (item inner).Continues text rest := by
  obtain ⟨read, more, htext, hmore⟩ := h
  exact ⟨read, more, htext, fun rest' hr => .item (hmore rest' hr)⟩

theorem Continues.comma (h : inner.Spells text (',' :: next)) (h' : args.Continues next rest) :
    (comma inner args).Continues text rest := by
  obtain ⟨read, rfl, hread⟩ := h.exists_read
  obtain ⟨read', more, rfl, hmore⟩ := h'
  refine ⟨read ++ ',' :: read', more, by simp, fun rest' hr => ?_⟩
  have := Spells.comma (hread _ replaces_cons) (hmore rest' hr)
  simpa using this

theorem Continues.more (h : inner.Spells text (',' :: next)) (h' : items.Continues next rest) :
    (more inner items).Continues text rest := by
  obtain ⟨read, rfl, hread⟩ := h.exists_read
  obtain ⟨read', more, rfl, hmore⟩ := h'
  refine ⟨read ++ ',' :: read', more, by simp, fun rest' hr => ?_⟩
  have := Spells.more (hread _ replaces_cons) (hmore rest' hr)
  simpa using this

theorem exists_spells_zeros (n : Nat) : ∃ text, ∀ rest, Spells (.zeros n) (text ++ rest) rest := by
  have zero : ∀ rest, Spells (shortest .expression) ('0' :: rest) rest := fun _ =>
    .single 0 0 (.number (numeral_digit rfl))
  induction n with
  | zero => exact ⟨['0'], fun rest => .argument (zero rest)⟩
  | succ n ih =>
    obtain ⟨zeros, hzeros⟩ := ih
    exact ⟨'0' :: ',' :: zeros, fun rest => .comma (zero _) (hzeros rest)⟩

/-- Behind an argument that has been begun, the others are missing. -/
theorem Continues.comma_zeros (h : inner.Continues text rest) (n : Nat) :
    (Phrase.comma inner (.zeros n)).Continues text rest := by
  obtain ⟨zeros, hzeros⟩ := exists_spells_zeros n
  obtain ⟨read, more, rfl, hmore⟩ := h
  refine ⟨read, more ++ ',' :: zeros, rfl, fun rest' _ => ?_⟩
  have := Spells.comma (hmore _ (unnamed_cons rfl (zeros ++ rest'))) (hzeros rest')
  simpa using this

theorem Continues.group (h : inner.Continues text rest) : (group inner).Continues ('(' :: text) rest := by
  obtain ⟨read, more, rfl, hmore⟩ := h
  refine ⟨'(' :: read, more ++ [')'], rfl, fun rest' _ => ?_⟩
  have := Spells.group (hmore _ (unnamed_cons rfl rest'))
  simpa using this

theorem Continues.call (f : Builtin) (h : args.Continues text rest) :
    (call f args).Continues (f.symbol.toList ++ '(' :: text) rest := by
  obtain ⟨read, more, rfl, hmore⟩ := h
  refine ⟨f.symbol.toList ++ '(' :: read, more ++ [')'], by simp, fun rest' _ => ?_⟩
  have := Spells.call (f := f) (hmore _ (unnamed_cons rfl rest'))
  simpa using this

/-- Behind the name of a function, its arguments are missing. -/
theorem continues_symbol (f : Builtin) (n : Nat) (rest : List Char) :
    (Phrase.call f (.zeros n)).Continues (f.symbol.toList ++ rest) rest := by
  obtain ⟨zeros, hzeros⟩ := exists_spells_zeros n
  refine ⟨f.symbol.toList, '(' :: (zeros ++ [')']), rfl, fun rest' _ => ?_⟩
  have := Spells.call (f := f) (hzeros (')' :: rest'))
  simpa using this

theorem Continues.list (h : items.Continues text rest) : (list items).Continues ('[' :: text) rest := by
  obtain ⟨read, more, rfl, hmore⟩ := h
  refine ⟨'[' :: read, more ++ [']'], rfl, fun rest' _ => ?_⟩
  have := Spells.list (hmore _ (unnamed_cons rfl rest'))
  simpa using this

/-- Blanks before an expression belong to it. -/
theorem Continues.blanks_append (n : Nat) (h : inner.Continues text rest) :
    inner.Continues (blanks n ++ text) rest := by
  obtain ⟨read, more, rfl, hmore⟩ := h
  refine ⟨blanks n ++ read, more, by simp, fun rest' hr => ?_⟩
  have := (hmore rest' hr).blanks_append n
  simpa using this

theorem Continues.single (before : Nat) (h : operand.Continues text rest) :
    (single operand).Continues (blanks before ++ text) rest := by
  obtain ⟨read, more, rfl, hmore⟩ := h
  refine ⟨blanks before ++ read, more, by simp, fun rest' hr => ?_⟩
  have := Spells.single before 0 (hmore rest' hr)
  simpa using this

theorem Continues.chain {op : Operator} (before after : Nat)
    (h : operand.Spells text (blanks after ++ (op.symbol.toList ++ next))) (h' : inner.Continues next rest) :
    (chain operand op inner).Continues (blanks before ++ text) rest := by
  obtain ⟨read, rfl, hread⟩ := h.exists_read
  obtain ⟨read', more, rfl, hmore⟩ := h'
  refine ⟨blanks before ++ (read ++ (blanks after ++ (op.symbol.toList ++ read'))), more, by simp, fun rest' hr => ?_⟩
  have := Spells.chain before after (hread _ ((replaces_symbol op _ _).append _)) (hmore rest' hr)
  simpa using this

end Continues

/-- What may be read against a scope, whatever its limit. -/
structure Readable (scope : Scope) {k : Kind} (p : Phrase k) : Prop where
  applied : p.Applied
  bound : ∀ n ∈ p.names, scope.binds n = true
  found : ∀ op ∈ p.operators, scope.policy.Finds op

section Readable

variable {scope : Scope} {inner : Phrase .expression} {args : Phrase .arguments} {items : Phrase .items}
  {operand : Phrase .primary}

theorem readable_number (scope : Scope) (text : List Char) : (number text).Readable scope :=
  ⟨trivial, by simp [names], by simp [operators]⟩

theorem readable_shortest (scope : Scope) (k : Kind) : (shortest k).Readable scope := by
  refine ⟨?_, ?_, ?_⟩ <;> cases k <;> simp [shortest, Applied, names, operators]

theorem readable_zeros (scope : Scope) (n : Nat) : (zeros n).Readable scope := by
  refine ⟨applied_zeros n, by simp [names_zeros], ?_⟩
  induction n with
  | zero => simp [zeros, shortest, operators]
  | succ n ih => simpa [zeros, shortest, operators] using ih

theorem Readable.group (h : inner.Readable scope) : (group inner).Readable scope :=
  ⟨h.applied, h.bound, h.found⟩

theorem Readable.call {f : Builtin} (h : args.Readable scope) (hf : args.count = f.arity) :
    (call f args).Readable scope :=
  ⟨⟨hf, h.applied⟩, h.bound, h.found⟩

theorem Readable.list (h : items.Readable scope) : (list items).Readable scope :=
  ⟨h.applied, h.bound, h.found⟩

theorem Readable.single (h : operand.Readable scope) : (single operand).Readable scope :=
  ⟨h.applied, h.bound, h.found⟩

theorem Readable.chain {op : Operator} (h : operand.Readable scope) (h' : inner.Readable scope)
    (hop : scope.policy.Finds op) : (chain operand op inner).Readable scope :=
  ⟨⟨h.applied, h'.applied⟩, List.forall_mem_append.2 ⟨h.bound, h'.bound⟩,
    List.forall_mem_append.2 ⟨h.found, List.forall_mem_cons.2 ⟨hop, h'.found⟩⟩⟩

theorem Readable.argument (h : inner.Readable scope) : (argument inner).Readable scope :=
  ⟨h.applied, h.bound, h.found⟩

theorem Readable.comma (h : inner.Readable scope) (h' : args.Readable scope) : (comma inner args).Readable scope :=
  ⟨⟨h.applied, h'.applied⟩, List.forall_mem_append.2 ⟨h.bound, h'.bound⟩, List.forall_mem_append.2 ⟨h.found, h'.found⟩⟩

theorem Readable.item (h : inner.Readable scope) : (item inner).Readable scope :=
  ⟨h.applied, h.bound, h.found⟩

theorem Readable.more (h : inner.Readable scope) (h' : items.Readable scope) : (more inner items).Readable scope :=
  ⟨⟨h.applied, h'.applied⟩, List.forall_mem_append.2 ⟨h.bound, h'.bound⟩, List.forall_mem_append.2 ⟨h.found, h'.found⟩⟩

end Readable

end Phrase

/-- What has been read in steps may be read. -/
theorem Took.readable {scope : Scope} {k : Kind} {p : Phrase k} {s s' start : State} (h : Took scope p s s')
    (run : State.Run scope start s') (hs : start.tokens = s.tokens) : p.Readable scope := by
  obtain ⟨new, hnew, hfound⟩ := run.tokens
  rw [hs] at hnew
  have same : p.tokens.reverse = new := List.append_cancel_right (h.tokens.symm.trans hnew)
  refine ⟨h.applied, h.bound, fun op hop => ?_⟩
  obtain ⟨token, ht, hkind⟩ := Phrase.mem_operators.1 hop
  exact hfound token (same ▸ List.mem_reverse.2 ht) op hkind

/-! ## Failing readers -/

/-- A reader got stuck: the scope is to blame, or what it read can be completed to a phrase. -/
def Stuck (scope : Scope) (k : Kind) (s : State) (e : ReadError) (s' : State) : Prop :=
  e.fault.OfScope ∨ ∃ p : Phrase k, p.Readable scope ∧ p.Continues s.cursor.ahead s'.cursor.ahead

/-- A reader takes a phrase from a state, or gets stuck in one. -/
def Viable (scope : Scope) (k : Kind) (r : Reader Unit) (s : State) : Prop :=
  Ends r s (fun _ s' => s'.cursor.lexeme = "" ∧ ∃ p : Phrase k, p.Readable scope ∧
    p.Spells s.cursor.ahead s'.cursor.ahead) (Stuck scope k s)

section Readers

variable {scope : Scope} {k : Kind} {s : State} {inner : Reader Unit}

theorem viable_of_stuck {r : Reader Unit} (ht : Takes scope k r s) (hr : Stepwise scope r)
    (hs : Ends r s (fun _ _ => True) (Stuck scope k s)) : Viable scope k r s := by
  refine ((ht.and (hr s)).and hs).mono ?_ fun e s' h => h.2
  rintro - s' ⟨⟨⟨p, hp⟩, run⟩, -⟩
  exact ⟨hp.lexeme, p, hp.readable run rfl, hp.spells⟩

/-- A reader gets stuck where a part of it does, if what has been begun there is part of a phrase. -/
theorem Stuck.imp {k' : Kind} {start s' : State} {e : ReadError} (h : Stuck scope k s e s')
    (hp : ∀ p : Phrase k, p.Readable scope → p.Continues s.cursor.ahead s'.cursor.ahead →
      ∃ q : Phrase k', q.Readable scope ∧ q.Continues start.cursor.ahead s'.cursor.ahead) :
    Stuck scope k' start e s' :=
  h.imp_right fun ⟨p, readable, continues⟩ => hp p readable continues

/-- Where nothing has been read, all is missing. -/
theorem stuck_start {e : ReadError} {s' : State} (h : s'.cursor.ahead = s.cursor.ahead) : Stuck scope k s e s' := by
  refine .inr ⟨.shortest k, Phrase.readable_shortest scope k, ?_⟩
  rw [h]
  exact Phrase.continues_shortest k _

/-- Behind the beginning of a numeral, a digit is missing. -/
theorem stuck_digit (read rest : List Char) (hn : Numeral (read ++ ['0'])) {e : ReadError} {s' : State}
    (h : s.cursor.ahead = read ++ rest) (h' : s'.cursor.ahead = rest) : Stuck scope .primary s e s' := by
  refine .inr ⟨.number (read ++ ['0']), Phrase.readable_number scope _, read, ['0'], ?_, fun rest' _ => ?_⟩
  · rw [h, h']
  · rw [← List.append_assoc]
    exact .number hn

theorem digits_zero : Digits ['0'] :=
  ⟨by simp, by simp [isDigit]⟩

theorem stuck_unsigned {sign : List Char} (hs : sign = [] ∨ sign = ['-']) {s' : State}
    (h : s.cursor.ahead = sign ++ s'.cursor.ahead) :
    Ends unsigned s' (fun _ _ => True) (Stuck scope .primary s) := by
  unfold unsigned digits
  simp only [ends_bind, ends_look, ends_ite, ends_move, ends_require, ends_emit]
  split
  · rename_i hd
    split
    · rename_i hdot
      obtain ⟨rest, hrest⟩ := isAt_iff.1 hdot
      split
      · trivial
      · have hwhole := digits_takeWhile hd
        have hsplit : s'.cursor.ahead = s'.cursor.ahead.takeWhile isDigit ++ '.' :: rest := by
          rw [← hrest]
          exact List.takeWhile_append_dropWhile.symm
        refine stuck_digit (sign ++ (s'.cursor.ahead.takeWhile isDigit ++ ['.'])) rest ?_ ?_ ?_
        · exact ⟨sign, _, ['.', '0'], by simp, hs, hwhole, .inr ⟨['0'], rfl, digits_zero⟩⟩
        · rw [h]
          conv => lhs; rw [hsplit]
          simp
        · simp [Cursor.gather, hrest]
    · trivial
  · exact stuck_digit sign _ ⟨sign, ['0'], [], by simp, hs, digits_zero, .inl rfl⟩ h rfl

theorem stuck_numeral : Ends numeral s (fun _ _ => True) (Stuck scope .primary s) := by
  rw [ends_numeral]
  split
  · rename_i hsign
    obtain ⟨rest, hrest⟩ := isAt_iff.1 hsign
    exact stuck_unsigned (.inr rfl) (by simp [Cursor.gather, hrest])
  · exact stuck_unsigned (.inl rfl) rfl

theorem stuck_boundName : Ends (boundName scope) s (fun _ _ => True) (Stuck scope .primary s) := by
  unfold boundName
  simp only [ends_bind, ends_move, ends_look, ends_require, ends_emit]
  split
  · trivial
  · exact .inl (.inl ⟨_, rfl⟩)

/-! ## Brackets and primaries -/

variable (hi : ∀ s : State, s.cursor.lexeme = "" → Viable scope .expression inner s)
include hi

theorem stuck_group (hat : s.cursor.isAt '(' = true) :
    Ends (group scope inner) s (fun _ _ => True) (Stuck scope .primary s) := by
  rcases s with ⟨⟨past, ahead, lexeme⟩, brackets, tokens⟩
  obtain ⟨rest, rfl⟩ := isAt_iff.1 hat
  unfold group expect
  simp only [ends_bind, ends_enter, ends_move, ends_require, ends_emit, ends_leave]
  split
  · refine (hi _ rfl).mono ?_ ?_
    · rintro - s' ⟨hl', p, readable, hp⟩
      split
      · trivial
      · exact .inr ⟨.group p, readable.group, hp.continues.group⟩
    · exact fun e s' h => h.imp fun p readable continues => ⟨.group p, readable.group, continues.group⟩
  · exact .inl (.inr ⟨_, rfl⟩)

/-- As many arguments as are asked for. -/
theorem viable_arguments (n : Nat) {s : State} (hl : s.cursor.lexeme = "") : Ends (arguments inner (n + 1)) s
      (fun _ s' => ∃ p : Phrase .arguments, p.Spells s.cursor.ahead s'.cursor.ahead ∧ p.count = n + 1 ∧
        p.Readable scope)
      fun e s' => e.fault.OfScope ∨ ∃ p : Phrase .arguments, p.count = n + 1 ∧ p.Readable scope ∧
        p.Continues s.cursor.ahead s'.cursor.ahead := by
  induction n generalizing s with
  | zero =>
    refine (hi s hl).mono ?_ ?_
    · rintro - s' ⟨hl', p, readable, hp⟩
      exact ⟨.argument p, .argument hp, rfl, readable.argument⟩
    · rintro e s' (hf | ⟨p, readable, continues⟩)
      · exact .inl hf
      · exact .inr ⟨.argument p, rfl, readable.argument, continues.argument⟩
  | succ n ih =>
    unfold arguments expect
    simp only [ends_bind, ends_move, ends_require, ends_emit]
    -- an argument that is not followed by the rest of them
    have unfinished : ∀ {p : Phrase .expression} {rest : List Char}, p.Readable scope →
        p.Continues s.cursor.ahead rest → ∃ q : Phrase .arguments, q.count = n + 2 ∧ q.Readable scope ∧
          q.Continues s.cursor.ahead rest := fun {p rest} readable continues =>
      ⟨.comma p (.zeros n), by rw [Phrase.count, Phrase.count_zeros], readable.comma (Phrase.readable_zeros scope n),
        continues.comma_zeros n⟩
    refine (hi s hl).mono ?_ ?_
    · rintro - s' ⟨hl', p, readable, hp⟩
      split
      · rename_i hcomma
        obtain ⟨rest, hrest⟩ := isAt_iff.1 hcomma
        have spells : p.Spells s.cursor.ahead (',' :: rest) := hrest ▸ hp
        have next : (s'.cursor.gather 1).ahead = rest := by simp [Cursor.gather, hrest]
        refine (ih rfl).mono ?_ ?_
        · rintro - s'' ⟨q, hq, hcount, readable'⟩
          exact ⟨.comma p q, .comma spells (next ▸ hq), by rw [Phrase.count, hcount], readable.comma readable'⟩
        · rintro e s'' (hf | ⟨q, hcount, readable', continues⟩)
          · exact .inl hf
          · exact .inr ⟨.comma p q, by rw [Phrase.count, hcount], readable.comma readable',
              .comma spells (next ▸ continues)⟩
      · exact .inr (unfinished readable hp.continues)
    · rintro e s' (hf | ⟨p, readable, continues⟩)
      · exact .inl hf
      · exact .inr (unfinished readable continues)

theorem stuck_call {f : Builtin} {n : Nat} (hf : functionAt? scope s.cursor = some (f, n)) :
    Ends (call scope inner f n) s (fun _ _ => True) (Stuck scope .primary s) := by
  obtain ⟨hn, rest, hahead, -⟩ := functionAt?_eq_some hf
  rcases s with ⟨⟨past, ahead, lexeme⟩, brackets, tokens⟩
  simp only at hahead
  subst hahead hn
  unfold call expect
  simp only [ends_bind, ends_ite, ends_enter, ends_move, ends_require, ends_emit, ends_leave, ends_pure, Cursor.gather,
    List.drop_left]
  split
  · trivial
  · rename_i harity
    obtain ⟨k, hk⟩ := Nat.exists_eq_succ_of_ne_zero harity
    split
    · rename_i hopen
      obtain ⟨inside, hinside⟩ := isAt_iff.1 hopen
      simp only at hinside
      subst hinside
      split
      · rw [hk]
        refine (viable_arguments hi k rfl).mono ?_ ?_
        · rintro - s' ⟨p, hp, hcount, readable⟩
          split
          · trivial
          · exact .inr ⟨.call f p, readable.call (hcount.trans hk.symm), hp.continues.call f⟩
        · rintro e s' (hf | ⟨p, hcount, readable, continues⟩)
          · exact .inl hf
          · exact .inr ⟨.call f p, readable.call (hcount.trans hk.symm), continues.call f⟩
      · exact .inl (.inr ⟨_, rfl⟩)
    · refine .inr ⟨.call f (.zeros k), (Phrase.readable_zeros scope k).call ((Phrase.count_zeros k).trans hk.symm), ?_⟩
      exact Phrase.continues_symbol f k rest

theorem viable_listItems (n : Nat) {s : State} (hl : s.cursor.lexeme = "") :
    Viable scope .items (listItems inner n) s := by
  induction n generalizing s with
  | zero => exact stuck_start rfl
  | succ n ih =>
    obtain ⟨before, hbefore⟩ := exists_blanks s.cursor.ahead
    unfold Viable listItems
    simp only [ends_bind, ends_move, ends_note, ends_look, ends_ite, ends_pure]
    refine (hi { s with cursor := s.cursor.skipBlanks } hl).mono ?_ ?_
    · rintro - s' ⟨hl', p, readable, hp⟩
      -- the blanks before an item belong to the expression in it
      have spells := hp.blanks_append before
      simp only [Cursor.skipBlanks] at spells
      rw [← hbefore] at spells
      split
      · rename_i hcomma
        obtain ⟨rest, hrest⟩ := isAt_iff.1 hcomma
        rw [hrest] at spells
        have next : s'.cursor.skip.ahead = rest := by simp [Cursor.skip, hrest]
        have taken : s'.cursor.skip.lexeme = "" := by simpa [Cursor.skip, hrest] using hl'
        refine (ih taken).mono ?_ ?_
        · rintro - s'' ⟨hl'', q, readable', hq⟩
          exact ⟨hl'', .more p q, readable.more readable', .more spells (next ▸ hq)⟩
        · exact fun e s'' h => h.imp fun q readable' continues =>
            ⟨.more p q, readable.more readable', .more spells (next ▸ continues)⟩
      · exact ⟨hl', .item p, readable.item, .item spells⟩
    · refine fun e s' h => h.imp fun p readable continues => ⟨.item p, readable.item, ?_⟩
      have continues' := continues.blanks_append before
      simp only [Cursor.skipBlanks] at continues'
      rw [← hbefore] at continues'
      exact continues'.item

theorem stuck_listLiteral (n : Nat) (hl : s.cursor.lexeme = "") (hat : s.cursor.isAt '[' = true) :
    Ends (listLiteral scope inner n) s (fun _ _ => True) (Stuck scope .primary s) := by
  rcases s with ⟨⟨past, ahead, lexeme⟩, brackets, tokens⟩
  obtain ⟨rest, rfl⟩ := isAt_iff.1 hat
  cases hl
  unfold listLiteral
  simp only [ends_bind, ends_enter, ends_move, ends_note, ends_require, ends_emit, ends_leave]
  split
  · refine (viable_listItems hi n rfl).mono ?_ ?_
    · rintro - s' ⟨hl', p, readable, hp⟩
      split
      · trivial
      · exact .inr ⟨.list p, readable.list, hp.continues.list⟩
    · exact fun e s' h => h.imp fun p readable continues => ⟨.list p, readable.list, continues.list⟩
  · exact .inl (.inr ⟨_, rfl⟩)

/-- A primary begins behind the blanks at the cursor. -/
theorem stuck_primary (n : Nat) (hl : s.cursor.lexeme = "") : Ends (primary scope inner n) s (fun _ _ => True)
      (Stuck scope .primary { s with cursor := s.cursor.skipBlanks }) := by
  have hl' : s.cursor.skipBlanks.lexeme = "" := hl
  unfold primary
  simp only [ends_bind, ends_move, ends_look, ends_ite, id]
  split
  · rename_i hopen
    exact stuck_group hi hopen
  · split
    · exact stuck_numeral
    · split
      · rename_i f length hf
        exact stuck_call (s := { s with cursor := s.cursor.skipBlanks }) hi hf
      · simp only [ends_ite]
        split
        · exact stuck_boundName
        · split
          · rename_i hlist
            exact stuck_listLiteral hi n hl' hlist
          · exact stuck_start rfl

end Readers

/-! ## Expressions and formulas -/

/-- An expression is read, or could have been completed. -/
theorem viable_expression (scope : Scope) (bound : Nat) {s : State} (hl : s.cursor.lexeme = "") :
    Viable scope .expression (expression scope bound) s := by
  refine viable_of_stuck (sound_expression scope bound s hl) (stepwise_expression scope bound) ?_
  induction bound generalizing s with
  | zero => exact stuck_start rfl
  | succ bound ih =>
    have hi : ∀ s : State, s.cursor.lexeme = "" → Viable scope .expression (expression scope bound) s := fun s hl =>
      viable_of_stuck (sound_expression scope bound s hl) (stepwise_expression scope bound) (ih hl)
    have stepwise := stepwise_primary (stepwise_expression scope bound) bound s
    obtain ⟨before, hbefore⟩ := exists_blanks s.cursor.ahead
    unfold expression
    simp only [ends_bind, ends_move, ends_look, ends_get, ends_ite, ends_pure]
    refine (((takes_primary (sound_expression scope bound) bound hl).and stepwise).and (stuck_primary hi bound hl)).mono
      ?_ ?_
    · rintro - s' ⟨⟨⟨p, hp⟩, run⟩, -⟩
      have readable := hp.readable run rfl
      obtain ⟨after, hafter⟩ := exists_blanks s'.cursor.ahead
      have spells : p.Spells (s.cursor.ahead.dropWhile isBlank) s'.cursor.ahead := hp.spells
      rw [hafter] at spells
      split
      · trivial
      · split
        · have continues := (Phrase.Spells.single before after spells).continues
          rw [← hbefore] at continues
          exact .inr ⟨.single p, readable.single, continues⟩
        · rename_i op length hop
          obtain ⟨-, hsymbol⟩ := operatorAt_sound hop
          simp only [Cursor.skipBlanks] at hsymbol
          have hrest : s'.cursor.ahead.dropWhile isBlank =
              op.symbol.toList ++ (s'.cursor.ahead.dropWhile isBlank).drop length := by
            rw [hsymbol, List.take_append_drop]
          rw [hrest] at spells
          simp only [ends_bind, ends_move, ends_emit]
          refine (ih rfl).mono (fun _ _ h => h) ?_
          refine fun e s'' h => h.imp fun q readable' continues =>
            ⟨.chain p op q, readable.chain readable' (finds_of_operatorAt hop), ?_⟩
          rw [hbefore]
          exact .chain before after spells continues
    · refine fun e s' h => h.2.imp fun p readable continues => ⟨.single p, readable.single, ?_⟩
      rw [hbefore]
      exact continues.single before

theorem viable_formula (scope : Scope) (text : String) {s : State} (hl : s.cursor.lexeme = "") :
    Ends (formula scope text) s (fun _ _ => True) (Stuck scope .expression s) := by
  unfold formula
  simp only [ends_bind, ends_require]
  refine (viable_expression scope _ hl).mono ?_ fun _ _ h => h
  rintro - s' ⟨-, p, readable, hp⟩
  split
  · trivial
  · exact .inr ⟨p, readable, hp.continues⟩

/-- An error stands where the text read ends. If the scope is not to blame for it, the text read is the
beginning of a formula that could be read, at least if its brackets may nest as deep as they do. -/
theorem read_viable {scope : Scope} {text : String} {e : ReadError} (he : (read scope text).error? = some e) :
    (∃ rest, text.toList = e.parsed.toList ++ rest ∧ e.found = rest.head?) ∧
    (e.fault.OfScope ∨ ∃ (more : List Char) (φ : Formula), φ.Spells (e.parsed.toList ++ more) ∧
      φ.body.Readable scope) := by
  rcases ht : target? (.ofText text) with ⟨target, c⟩
  have ends_ := (viable_formula scope text (s := { cursor := c }) (lexeme_of_target? ht)).and
    (stepwise_formula scope text { cursor := c })
  rcases read_cases ht ends_ with ⟨s, -, hread⟩ | ⟨e', s, ⟨stuck, run, fault, rfl⟩, hread⟩
  · rw [hread] at he
    cases he
  · rw [hread] at he
    cases he
    have whole : s.cursor.past.reverse ++ s.cursor.ahead = c.past.reverse ++ c.ahead := run.along.text
    have parsed : (s.cursor.error fault).parsed.toList = s.cursor.past.reverse := by
      simp [Cursor.error, Cursor.consumed]
    rw [parsed]
    refine ⟨⟨s.cursor.ahead, by rw [whole, text_of_target? ht], rfl⟩, ?_⟩
    rcases stuck with hf | ⟨p, readable, read, more, hahead, hmore⟩
    · exact .inl hf
    · right
      have spells : p.Spells (read ++ more) [] := by simpa using hmore [] (by simp [Unnamed])
      have split : s.cursor.past.reverse ++ s.cursor.ahead = c.past.reverse ++ read ++ s.cursor.ahead := by
        rw [whole, List.append_assoc]
        exact congrArg _ hahead
      have begun : s.cursor.past.reverse = c.past.reverse ++ read := List.append_cancel_right split
      rcases past_of_target? ht with ⟨-, hpast⟩ | ⟨before, after, w, -, hne, hw, hpast⟩
      · rw [hpast] at begun
        exact ⟨more, ⟨none, p⟩, .plain (begun ▸ spells), readable⟩
      · refine ⟨more, ⟨some w, p⟩, ?_, readable⟩
        have assigned := Formula.Spells.assign before after hne hw spells.head_ne_equals spells
        rw [begun, hpast]
        simpa using assigned

end Reading

end Formulary
