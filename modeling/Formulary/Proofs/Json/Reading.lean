/-
Reading JSON texts. Lexeme by lexeme, a part of a text takes the reading from one stage to another: a
value is put in its place, whatever stands around it and however deep it nests. So every text of the
grammar is read, and as the value it writes.
-/
import Formulary.Proofs.Json.Spelling

namespace Formulary.Json

/-! ## Lexemes -/

theorem lexFrom_step {mode next : Mode} {c : Char} {lexemes : List Lexeme} (h : mode.step c = some (lexemes, next))
    (done : List Lexeme) (rest : List Char) :
    lexFrom mode done (c :: rest) = lexFrom next (lexemes ++ done) rest := by
  rw [lexFrom, h]

/-- White space is no lexeme. -/
theorem lexFrom_space {space : List Char} (h : Space space) (done : List Lexeme) (rest : List Char) :
    lexFrom .gap done (space ++ rest) = lexFrom .gap done rest := by
  induction space with
  | nil => rfl
  | cons c space ih =>
    obtain ⟨hc, hspace⟩ := List.forall_mem_cons.1 h
    have blank : Mode.gap.step c = some ([], .gap) := by
      simp only [List.mem_cons, List.not_mem_nil, or_false] at hc
      rcases hc with rfl | rfl | rfl | rfl <;> rfl
    rw [List.cons_append, lexFrom_step blank]
    exact ih hspace

theorem IsHex.hexDigit?_eq {c : Char} {value : Nat} (h : IsHex c value) : hexDigit? c = some value := by
  have lower : ∀ digit ∈ "0123456789abcdef".toList.zipIdx, hexDigit? digit.1 = some digit.2 := by decide
  have upper : ∀ digit ∈ "0123456789ABCDEF".toList.zipIdx, hexDigit? digit.1 = some digit.2 := by decide
  rcases h with h | h
  · exact lower _ h
  · exact upper _ h

/-- A digit of a `\u` escape: the last one completes the unit. -/
theorem IsHex.step_codeUnit {c : Char} {digit : Nat} (h : IsHex c digit) (pieces : List Piece) (missing value : Nat) :
    (Mode.codeUnit pieces missing value).step c = some ([],
      if missing ≤ 1 then .string (.codeUnit (16 * value + digit) :: pieces)
      else .codeUnit pieces (missing - 1) (16 * value + digit)) := by
  simp only [Mode.step, h.hexDigit?_eq, Option.map_some]
  split <;> rfl

/-- A piece goes to the pieces of the string that has been begun. -/
theorem Piece.Spells.lexFrom_eq {piece : Piece} {text : List Char} (h : piece.Spells text) (pieces : List Piece)
    (done : List Lexeme) (rest : List Char) :
    lexFrom (.string pieces) done (text ++ rest) = lexFrom (.string (piece :: pieces)) done rest := by
  cases h with
  | @char c hc hle =>
    have step : (Mode.string pieces).step c = some ([], .string (.char c :: pieces)) := by
      simp only [List.mem_cons, List.not_mem_nil, or_false, not_or] at hc
      simp [Mode.step, hc, Nat.not_lt.2 hle]
    exact lexFrom_step step done rest
  | @escape c d hmem =>
    have known : ∀ pair ∈ shortEscapes, pair.1 ≠ 'u' ∧ escaped? pair.1 = some pair.2 := by decide
    obtain ⟨hu, hd⟩ := known _ hmem
    have step : (Mode.escape pieces).step c = some ([], .string (.char d :: pieces)) := by
      simp only [Mode.step, if_neg hu, hd, Option.map_some]
    have begun : (Mode.string pieces).step '\\' = some ([], .escape pieces) := rfl
    exact (lexFrom_step begun done _).trans (lexFrom_step step done rest)
  | @codeUnit a b c d i j k l ha hb hc hd =>
    have begun : (Mode.string pieces).step '\\' = some ([], .escape pieces) := rfl
    have unit : (Mode.escape pieces).step 'u' = some ([], .codeUnit pieces 4 0) := rfl
    have value : 16 * (16 * (16 * (16 * 0 + i) + j) + k) + l = 0x1000 * i + 0x100 * j + 0x10 * k + l := by omega
    calc lexFrom (.string pieces) done (['\\', 'u', a, b, c, d] ++ rest)
      _ = lexFrom (.codeUnit pieces 4 0) done (a :: b :: c :: d :: rest) :=
        (lexFrom_step begun done _).trans (lexFrom_step unit done _)
      _ = lexFrom (.codeUnit pieces 3 (16 * 0 + i)) done (b :: c :: d :: rest) :=
        lexFrom_step (ha.step_codeUnit pieces 4 0) done _
      _ = lexFrom (.codeUnit pieces 2 (16 * (16 * 0 + i) + j)) done (c :: d :: rest) :=
        lexFrom_step (hb.step_codeUnit pieces 3 _) done _
      _ = lexFrom (.codeUnit pieces 1 (16 * (16 * (16 * 0 + i) + j) + k)) done (d :: rest) :=
        lexFrom_step (hc.step_codeUnit pieces 2 _) done _
      _ = lexFrom (.string (.codeUnit (16 * (16 * (16 * (16 * 0 + i) + j) + k) + l) :: pieces)) done rest :=
        lexFrom_step (hd.step_codeUnit pieces 1 _) done _
      _ = _ := by rw [value]

/-- A string up to its second quote is one lexeme. -/
theorem SpellsPieces.lexFrom_eq {pieces : List Piece} {text : List Char} (h : SpellsPieces pieces text)
    (begun : List Piece) (done : List Lexeme) (rest : List Char) :
    lexFrom (.string begun) done (text ++ '"' :: rest) =
      lexFrom .gap (.string (begun.reverse ++ pieces) :: done) rest := by
  induction h generalizing begun with
  | nil =>
    have ended : (Mode.string begun).step '"' = some ([.string begun.reverse], .gap) := rfl
    rw [List.append_nil]
    exact lexFrom_step ended done rest
  | @cons piece pieces text more hp _ ih =>
    rw [List.append_assoc, hp.lexFrom_eq, ih, List.reverse_cons, List.append_assoc]
    rfl

/-! ## Numbers -/

/-- A number cannot go on with what follows. -/
def Ended (rest : List Char) : Prop :=
  ∀ c, rest.head? = some c → c ∈ [' ', '\t', '\n', '\r', ',', ']', '\x7d']

/-- How far a number has come after some more characters, if they continue it. -/
def Numeral.run? (n : Numeral) (text : List Char) : Option Numeral :=
  text.foldlM next? n

namespace Numeral

theorem run?_append {n m : Numeral} {text : List Char} (h : n.run? text = some m) (rest : List Char) :
    n.run? (text ++ rest) = m.run? rest := by
  rw [run?, List.foldlM_append]
  rw [run?] at h
  rw [h]
  rfl

theorem run?_cons {n m : Numeral} {c : Char} (h : n.next? c = some m) (rest : List Char) :
    n.run? (c :: rest) = m.run? rest := by
  rw [run?, List.foldlM_cons, h]
  rfl

/-- More digits lead no further where a digit does not. -/
theorem run?_digits {n : Numeral} (loop : ∀ c : Char, c.isDigit = true → n.next? c = some n) {digits : List Char}
    (h : ∀ c ∈ digits, c.isDigit = true) : n.run? digits = some n := by
  induction digits with
  | nil => rfl
  | cons c digits ih =>
    obtain ⟨hc, hdigits⟩ := List.forall_mem_cons.1 h
    rw [run?_cons (loop c hc), ih hdigits]

/-- Digits lead as far as the first of them. -/
theorem run?_some_digits {n m : Numeral} (first : ∀ c : Char, c.isDigit = true → n.next? c = some m)
    (loop : ∀ c : Char, c.isDigit = true → m.next? c = some m) {digits : List Char} (h : Digits digits) :
    n.run? digits = some m := by
  obtain ⟨hne, hd⟩ := h
  obtain ⟨c, rest, rfl⟩ := List.exists_cons_of_ne_nil hne
  obtain ⟨hc, hrest⟩ := List.forall_mem_cons.1 hd
  rw [run?_cons (first c hc), run?_digits loop hrest]

theorem run?_point {digits : List Char} (h : Digits digits) : point.run? digits = some fraction :=
  run?_some_digits (fun c hc => by simp [next?, hc]) (fun c hc => by simp [next?, hc]) h

theorem run?_power {n : Numeral} (hn : n ∈ [exponent, exponentSign]) {digits : List Char} (h : Digits digits) :
    n.run? digits = some power := by
  simp only [List.mem_cons, List.not_mem_nil, or_false] at hn
  refine run?_some_digits (fun c hc => ?_) (fun c hc => by simp [next?, hc]) h
  rcases hn with rfl | rfl <;> simp [next?, hc]

/-- Behind a fraction, or without one, an exponent may follow. -/
theorem run?_fraction {n : Numeral} (hn : n ∈ [zero, whole]) {text : List Char} (h : Fraction text) :
    ∃ m ∈ [zero, whole, fraction], n.run? text = some m := by
  rcases h with rfl | ⟨digits, rfl, hd⟩
  · exact ⟨n, List.mem_append_left [fraction] hn, rfl⟩
  · have point : n.next? '.' = some .point := by
      simp only [List.mem_cons, List.not_mem_nil, or_false] at hn
      rcases hn with rfl | rfl <;> rfl
    refine ⟨fraction, by simp, ?_⟩
    rw [run?_cons point, run?_point hd]

/-- Behind an exponent, or without one, the number may end. -/
theorem run?_exponent {n : Numeral} (hn : n ∈ [zero, whole, fraction]) {text : List Char} (h : Exponent text) :
    ∃ m, n.run? text = some m ∧ m.isComplete = true := by
  simp only [List.mem_cons, List.not_mem_nil, or_false] at hn
  rcases h with rfl | ⟨e, sign, digits, rfl, he, hsign, hd⟩
  · exact ⟨n, rfl, by rcases hn with rfl | rfl | rfl <;> rfl⟩
  · have letter : n.next? e = some .exponent := by
      simp only [List.mem_cons, List.not_mem_nil, or_false] at he
      rcases hn with rfl | rfl | rfl <;> rcases he with rfl | rfl <;> rfl
    refine ⟨power, ?_, rfl⟩
    rw [run?_cons letter]
    simp only [List.mem_cons, List.not_mem_nil, or_false] at hsign
    rcases hsign with rfl | rfl | rfl
    · exact run?_power (by simp) hd
    · exact run?_power (n := exponentSign) (by simp) hd
    · exact run?_power (n := exponentSign) (by simp) hd

/-- A whole number begins alike with a sign before it and without. -/
theorem exists_start {text : List Char} (h : Whole text) : ∃ c rest, text = c :: rest ∧
    ∃ n ∈ [zero, whole], start? c = some n ∧ sign.next? c = some n ∧ n.run? rest = some n := by
  rcases h with rfl | ⟨⟨hne, hd⟩, hzero⟩
  · exact ⟨'0', [], rfl, zero, by simp, rfl, rfl, rfl⟩
  · obtain ⟨c, rest, rfl⟩ := List.exists_cons_of_ne_nil hne
    obtain ⟨hc, hrest⟩ := List.forall_mem_cons.1 hd
    have notZero : c ≠ '0' := fun h => hzero (congrArg some h)
    have notSign : c ≠ '-' := by
      rintro rfl
      exact absurd hc (by decide)
    refine ⟨c, rest, rfl, whole, by simp, ?_, ?_, run?_digits (fun c hc => by simp [next?, hc]) hrest⟩
    · rw [start?, if_neg notSign, if_neg notZero, if_pos hc]
    · rw [next?, if_neg notZero, if_pos hc]

end Numeral

/-- A number is taken from its first character to where it may end. -/
theorem IsNumber.run? {text : List Char} (h : IsNumber text) : ∃ c rest n m, text = c :: rest ∧
    Numeral.start? c = some n ∧ n.run? rest = some m ∧ m.isComplete = true := by
  obtain ⟨sign, whole, fraction, exponent, rfl, hsign, hwhole, hfraction, hexponent⟩ := h
  obtain ⟨c, rest, rfl, n, hn, hstart, hnext, hrun⟩ := Numeral.exists_start hwhole
  obtain ⟨k, hk, hrunk⟩ := Numeral.run?_fraction hn hfraction
  obtain ⟨m, hrunm, hm⟩ := Numeral.run?_exponent hk hexponent
  have onward : n.run? (rest ++ (fraction ++ exponent)) = some m := by
    rw [Numeral.run?_append hrun, Numeral.run?_append hrunk, hrunm]
  simp only [List.mem_cons, List.not_mem_nil, or_false] at hsign
  rcases hsign with rfl | rfl
  · exact ⟨c, _, n, m, rfl, hstart, onward, hm⟩
  · exact ⟨'-', _, .sign, m, rfl, rfl, (Numeral.run?_cons hnext _).trans onward, hm⟩

theorem begin?_of_start? {c : Char} {n : Numeral} (h : Numeral.start? c = some n) :
    begin? c = some ([], .number n [c]) := by
  unfold begin?
  split
  case h_11 =>
    have notSpace : isSpace c = false := by
      refine Bool.eq_false_iff.2 fun hs => ?_
      simp only [isSpace, Bool.or_eq_true, beq_iff_eq] at hs
      rcases hs with ((rfl | rfl) | rfl) | rfl <;> exact absurd h (by simp [Numeral.start?])
    simp [notSpace, h]
  all_goals exact absurd h (by simp [Numeral.start?])

theorem lexFrom_run? {n m : Numeral} {text : List Char} (h : n.run? text = some m) (written : List Char)
    (done : List Lexeme) (rest : List Char) :
    lexFrom (.number n written) done (text ++ rest) = lexFrom (.number m (text.reverse ++ written)) done rest := by
  induction text generalizing n written with
  | nil =>
    cases h
    rfl
  | cons c text ih =>
    rw [Numeral.run?, List.foldlM_cons] at h
    obtain ⟨k, hk, hrun⟩ := Option.bind_eq_some_iff.1 h
    have step : (Mode.number n written).step c = some ([], .number k (c :: written)) := by
      simp only [Mode.step, hk]
    rw [List.cons_append, lexFrom_step step, List.nil_append, ih hrun, List.reverse_cons, List.append_assoc]
    rfl

/-- A number that may end does so where it cannot go on. -/
theorem lexFrom_ended {n : Numeral} (hn : n.isComplete = true) {rest : List Char} (h : Ended rest)
    (written : List Char) (done : List Lexeme) :
    lexFrom (.number n written) done rest = lexFrom .gap (.number written.reverse :: done) rest := by
  cases rest with
  | nil => simp [lexFrom, Mode.finish?, hn]
  | cons c rest =>
    have stop : n.next? c = none := by
      have hc := h c rfl
      simp only [List.mem_cons, List.not_mem_nil, or_false] at hc
      rcases hc with rfl | rfl | rfl | rfl | rfl | rfl | rfl <;> cases n <;> rfl
    have step : (Mode.number n written).step c =
        (begin? c).map fun begun => (begun.1 ++ [.number written.reverse], begun.2) := by
      simp only [Mode.step, stop, if_pos hn]
    have gap : Mode.gap.step c = begin? c := rfl
    rw [lexFrom, lexFrom, step, gap]
    cases begin? c with
    | none => rfl
    | some begun => simp

/-- A number that cannot go on is one lexeme. -/
theorem IsNumber.lexFrom_eq {text : List Char} (h : IsNumber text) (done : List Lexeme) {rest : List Char}
    (hr : Ended rest) : lexFrom .gap done (text ++ rest) = lexFrom .gap (.number text :: done) rest := by
  obtain ⟨c, more, n, m, rfl, hstart, hrun, hm⟩ := h.run?
  have step : Mode.gap.step c = some ([], .number n [c]) := begin?_of_start? hstart
  rw [List.cons_append, lexFrom_step step, lexFrom_run? hrun, lexFrom_ended hm hr]
  simp

theorem ended_cons {c : Char} (h : c ∈ [' ', '\t', '\n', '\r', ',', ']', '\x7d']) (rest : List Char) :
    Ended (c :: rest) := by
  rintro _ ⟨⟩
  exact h

theorem ended_space {space rest : List Char} (h : Space space) (hr : Ended rest) : Ended (space ++ rest) := by
  cases space with
  | nil => exact hr
  | cons c space => exact ended_cons (List.mem_append_left [',', ']', '\x7d'] (h c (List.mem_cons_self ..))) _

/-! ## Stages of a reading -/

namespace Progress

theorem steps?_append {p q : Progress} {lexemes : List Lexeme} (h : p.steps? lexemes = some q) (more : List Lexeme) :
    p.steps? (lexemes ++ more) = q.steps? more := by
  induction lexemes generalizing p with
  | nil =>
    cases h
    rfl
  | cons lexeme lexemes ih =>
    rw [List.cons_append, steps?]
    rw [steps?] at h
    cases hp : p.step? lexeme with
    | none => simp [hp] at h
    | some next =>
      simp only [hp] at h
      exact ih h

theorem close?_eq_none {containers : List Unfinished} {lexeme : Lexeme} (hbracket : lexeme ≠ .closeBracket)
    (hbrace : lexeme ≠ .closeBrace) : close? containers lexeme = none := by
  unfold close?
  split
  · exact absurd rfl hbracket
  · exact absurd rfl hbrace
  · rfl

/-- The first value of an array is begun like any other. -/
theorem step?_itemOrEnd {containers : List Unfinished} {lexeme : Lexeme} {p : Progress}
    (h : step? ⟨containers, .value⟩ lexeme = some p) : step? ⟨containers, .itemOrEnd⟩ lexeme = some p := by
  have unclosed : close? containers lexeme = none :=
    close?_eq_none (by rintro rfl; cases h) (by rintro rfl; cases h)
  have begun : begin? containers lexeme = some p := h
  simp only [step?, unclosed, begun, Option.none_or, Option.orElse_eq_orElse, Option.orElse_eq_or]

/-- The first key of an object is taken like any other. -/
theorem step?_keyOrEnd {containers : List Unfinished} {lexeme : Lexeme} {p : Progress}
    (h : step? ⟨containers, .key⟩ lexeme = some p) : step? ⟨containers, .keyOrEnd⟩ lexeme = some p := by
  have given : key? containers lexeme = some p := h
  have unclosed : close? containers lexeme = none := by
    refine close?_eq_none ?_ ?_ <;> rintro rfl <;> simp [key?] at given
  simp only [step?, unclosed, given, Option.none_or, Option.orElse_eq_orElse, Option.orElse_eq_or]

end Progress

/-- A text, where it ends, takes the reading from one stage to another. -/
def Takes (text : List Char) (p q : Progress) : Prop :=
  ∃ lexemes : List Lexeme, p.steps? lexemes = some q ∧ ∀ done rest, Ended rest →
    lexFrom .gap done (text ++ rest) = lexFrom .gap (lexemes.reverse ++ done) rest

namespace Takes

variable {text rest : List Char} {p q r s : Progress}

theorem nil (p : Progress) : Takes [] p p :=
  ⟨[], rfl, fun _ _ _ => rfl⟩

/-- White space takes the reading nowhere. -/
theorem space_append {space : List Char} (hs : Space space) (h : Takes text p q) : Takes (space ++ text) p q := by
  obtain ⟨lexemes, hsteps, hlex⟩ := h
  refine ⟨lexemes, hsteps, fun done rest hr => ?_⟩
  rw [List.append_assoc, lexFrom_space hs, hlex done rest hr]

theorem append_space {space : List Char} (h : Takes text p q) (hs : Space space) : Takes (text ++ space) p q := by
  obtain ⟨lexemes, hsteps, hlex⟩ := h
  refine ⟨lexemes, hsteps, fun done rest hr => ?_⟩
  rw [List.append_assoc, hlex done _ (ended_space hs hr), lexFrom_space hs]

/-- A single lexeme. -/
theorem lexeme {lexeme : Lexeme} (hp : p.step? lexeme = some q)
    (hlex : ∀ done rest, Ended rest → lexFrom .gap done (text ++ rest) = lexFrom .gap (lexeme :: done) rest) :
    Takes text p q :=
  ⟨[lexeme], by rw [Progress.steps?, hp]; rfl, hlex⟩

/-- A mark, then what follows it. -/
theorem cons {c : Char} {mark : Lexeme} (hc : begin? c = some ([mark], .gap)) (hp : p.step? mark = some q)
    (h : Takes text q r) : Takes (c :: text) p r := by
  obtain ⟨lexemes, hsteps, hlex⟩ := h
  refine ⟨mark :: lexemes, ?_, fun done rest hr => ?_⟩
  · rw [Progress.steps?, hp]
    exact hsteps
  · have step : Mode.gap.step c = some ([mark], .gap) := hc
    rw [List.cons_append, lexFrom_step step, hlex _ rest hr]
    simp

/-- A string, then what follows it. -/
theorem string_cons {pieces : List Piece} (hs : SpellsPieces pieces text) (hp : p.step? (.string pieces) = some q)
    (h : Takes rest q r) : Takes ('"' :: (text ++ '"' :: rest)) p r := by
  obtain ⟨lexemes, hsteps, hlex⟩ := h
  refine ⟨.string pieces :: lexemes, ?_, fun done more hr => ?_⟩
  · rw [Progress.steps?, hp]
    exact hsteps
  · have step : Mode.gap.step '"' = some ([], .string []) := rfl
    rw [List.cons_append, lexFrom_step step, List.append_assoc, List.cons_append, hs.lexFrom_eq, hlex _ more hr]
    simp

/-- Up to a mark that ends numbers, the mark, then what follows it. -/
theorem append_cons {c : Char} {mark : Lexeme} (h : Takes text p q) (hc : begin? c = some ([mark], .gap))
    (hend : c ∈ [' ', '\t', '\n', '\r', ',', ']', '\x7d']) (hq : q.step? mark = some r) (h' : Takes rest r s) :
    Takes (text ++ c :: rest) p s := by
  obtain ⟨lexemes, hsteps, hlex⟩ := h
  obtain ⟨lexemes', hsteps', hlex'⟩ := cons hc hq h'
  refine ⟨lexemes ++ lexemes', ?_, fun done more hr => ?_⟩
  · rw [Progress.steps?_append hsteps, hsteps']
  · rw [List.append_assoc, List.cons_append, hlex done _ (ended_cons hend _), ← List.cons_append, hlex' _ more hr]
    simp

/-- A stage that takes all lexemes that another one takes does as well. -/
theorem widen (h : Takes text p q) (hne : q.awaiting ≠ p.awaiting)
    (hr : ∀ lexeme next, p.step? lexeme = some next → r.step? lexeme = some next) : Takes text r q := by
  obtain ⟨_ | ⟨lexeme, lexemes⟩, hsteps, hlex⟩ := h
  · cases hsteps
    exact absurd rfl hne
  · refine ⟨lexeme :: lexemes, ?_, hlex⟩
    rw [Progress.steps?] at hsteps ⊢
    cases hp : p.step? lexeme with
    | none => simp [hp] at hsteps
    | some next =>
      rw [hp] at hsteps
      rw [hr lexeme next hp]
      exact hsteps

end Takes

/-! ## Texts of the grammar -/

/-- What a text of a part does to the reading: a value comes to its place, elements and members come into the
container that has been begun. -/
def Part.Taken (text : List Char) : Part → Prop
  | .value v | .element v => ∀ containers, Takes text ⟨containers, .value⟩ (.put containers v)
  | .elements vs => ∀ done outer,
    Takes text ⟨.array done :: outer, .value⟩ ⟨.array (vs.reverse ++ done) :: outer, .commaOrEnd⟩
  | .member m => ∀ done outer, Takes text ⟨.object done :: outer, .key⟩ ⟨.object (m :: done) :: outer, .commaOrEnd⟩
  | .members ms => ∀ done outer,
    Takes text ⟨.object done :: outer, .key⟩ ⟨.object (ms.reverse ++ done) :: outer, .commaOrEnd⟩

/-- The stages follow the grammar: what a text of it does is composed of what the texts of its parts do. -/
theorem Spells.taken {part : Part} {text : List Char} (h : Spells part text) : part.Taken text := by
  induction h with
  | null | true | false => exact fun containers => .lexeme rfl fun _ _ _ => rfl
  | number hn => exact fun containers => .lexeme rfl fun done _ hr => hn.lexFrom_eq done hr
  | string hs => exact fun containers => .string_cons hs rfl (.nil _)
  | emptyArray hs => exact fun containers => .cons rfl rfl (.space_append hs (.cons rfl rfl (.nil _)))
  | @array vs text _ ih =>
    intro containers
    -- where the array might end at once, its first element is read as it would be behind a comma
    have inner := (ih [] containers).widen nofun fun _ _ => Progress.step?_itemOrEnd
    refine .cons rfl rfl (inner.append_cons rfl (by simp) ?_ (.nil _))
    simp [Progress.step?, Progress.close?]
  | emptyObject hs => exact fun containers => .cons rfl rfl (.space_append hs (.cons rfl rfl (.nil _)))
  | @object ms text _ ih =>
    intro containers
    have inner := (ih [] containers).widen nofun fun _ _ => Progress.step?_keyOrEnd
    refine .cons rfl rfl (inner.append_cons rfl (by simp) ?_ (.nil _))
    simp [Progress.step?, Progress.close?]
  | element before _ after ih => exact fun containers => .space_append before ((ih containers).append_space after)
  | lastElement _ ih => exact fun done outer => ih (.array done :: outer)
  | @moreElements v vs text rest _ _ ih ih' =>
    intro done outer
    have first : Takes text ⟨.array done :: outer, .value⟩ ⟨.array (v :: done) :: outer, .commaOrEnd⟩ := ih _
    have := first.append_cons (c := ',') rfl (by simp) rfl (ih' (v :: done) outer)
    rwa [List.reverse_cons, List.append_assoc]
  | @member key v before name after text hb hk ha _ ih =>
    intro done outer
    have value : Takes text ⟨.member done key :: outer, .value⟩ ⟨.object ((key, v) :: done) :: outer, .commaOrEnd⟩ :=
      ih _
    exact .space_append hb (.string_cons hk rfl (.space_append ha (.cons rfl rfl value)))
  | lastMember _ ih => exact ih
  | @moreMembers m ms text rest _ _ ih ih' =>
    intro done outer
    have := (ih done outer).append_cons (c := ',') rfl (by simp) rfl (ih' (m :: done) outer)
    rwa [List.reverse_cons, List.append_assoc]

/-- Every text of the grammar is read as the value it writes. -/
theorem ofText?_of_spells {v : Json} {text : List Char} (h : Spells (.element v) text) : ofText? text = some v := by
  obtain ⟨lexemes, hsteps, hlex⟩ := h.taken []
  have lexed : lex text = some lexemes := by
    have := hlex [] [] (fun c hc => by cases hc)
    rw [List.append_nil] at this
    rw [lex, this]
    simp [lexFrom, Mode.finish?]
  have start : Progress.steps? {} lexemes = some (.put [] v) := hsteps
  rw [ofText?, lexed, Option.bind_some, start, Option.bind_some]
  rfl

end Formulary.Json
