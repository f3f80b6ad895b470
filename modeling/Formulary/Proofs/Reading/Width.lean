/-
How wide a formula becomes. Between any two tokens the width of a draft, and how many items each of
its open lists has so far, can be told from the tokens alone, apart from the longest lists that names
reach. So once all tokens of a phrase have been taken, its list literals and its names have given the
width: each literal by the number of its items, each name by its longest list.
-/
import Formulary.Proofs.Reading.Frame
import Formulary.Proofs.Reading.Phrase

namespace Formulary.Reading

/-! ## The width of a phrase -/

namespace Phrase

/-- The number of items. -/
def itemCount : {k : Kind} → Phrase k → Nat
  | _, item _ => 1
  | _, more _ rest => rest.itemCount + 1
  | _, _ => 0

/-- The items of the list literals of a phrase, and of those inside of them. -/
def literals : {k : Kind} → Phrase k → List (Phrase .items)
  | _, number _ | _, name _ | _, constant _ => []
  | _, group inner => inner.literals
  | _, call _ args => args.literals
  | _, list items => items :: items.literals
  | _, single operand => operand.literals
  | _, chain operand _ rest => operand.literals ++ rest.literals
  | _, argument last | _, item last => last.literals
  | _, comma first rest | _, more first rest => first.literals ++ rest.literals

/-- The greatest number of items of a literal, or length of a list that a name reaches. -/
def width (longest : String → Nat) : {k : Kind} → Phrase k → Nat
  | _, number _ | _, constant _ => 0
  | _, name text => longest (String.ofList text)
  | _, group inner => inner.width longest
  | _, call _ args => args.width longest
  | _, list items => max (items.width longest) items.itemCount
  | _, single operand => operand.width longest
  | _, chain operand _ rest => max (operand.width longest) (rest.width longest)
  | _, argument last | _, item last => last.width longest
  | _, comma first rest | _, more first rest => max (first.width longest) (rest.width longest)

variable {k : Kind} {longest : String → Nat}

/-- The width is the least that covers all literals and names. -/
theorem width_le_iff (p : Phrase k) (n : Nat) : p.width longest ≤ n ↔
    (∀ items ∈ p.literals, items.itemCount ≤ n) ∧ ∀ name ∈ p.names, longest name ≤ n := by
  induction p with
  | number | name | constant => simp [width, literals, names]
  | group inner ih | call _ inner ih | single inner ih | argument inner ih | item inner ih => exact ih
  | list items ih => simp [width, literals, names, ih, and_comm, and_assoc]
  | chain first _ rest ih ih' | comma first rest ih ih' | more first rest ih ih' =>
    simp only [width, literals, names, max_le_iff, ih, ih', List.forall_mem_append]
    exact and_and_and_comm

end Phrase

/-! ## Counting over tokens -/

/-- The width met so far, and the numbers of items of the open lists, the innermost first. -/
structure Tally where
  width : Nat := 0
  counts : List Nat := []
  deriving DecidableEq, Repr

/-- Goes over one token. -/
def Tally.step (longest : String → Nat) (t : Tally) (token : Token) : Tally :=
  match token.kind with
  | .variable => { t with width := max t.width (longest token.text) }
  | .listStart => { t with counts := 0 :: t.counts }
  | .itemEnd => { t with counts := t.counts.modifyHead (· + 1) }
  | .listEnd => { width := max t.width (t.counts.headD 0), counts := t.counts.tail }
  | _ => t

/-- Goes over tokens in turn. -/
def Tally.follow (longest : String → Nat) (t : Tally) (tokens : List Token) : Tally :=
  tokens.foldl (Tally.step longest) t

section Follow

variable {k : Kind} {longest : String → Nat}

theorem Tally.follow_cons (t : Tally) (token : Token) (tokens : List Token) :
    t.follow longest (token :: tokens) = (t.step longest token).follow longest tokens :=
  rfl

theorem Tally.follow_append (t : Tally) (tokens more : List Token) :
    t.follow longest (tokens ++ more) = (t.follow longest tokens).follow longest more :=
  List.foldl_append

/-- Only items are counted, and the parts of a phrase that have none leave the counts alone. -/
theorem Phrase.itemCount_eq_zero (p : Phrase k) (hk : k ≠ .items) : p.itemCount = 0 := by
  cases p <;> first | rfl | exact absurd rfl hk

theorem modifyHead_add_add (counts : List Nat) (m n : Nat) :
    (counts.modifyHead (· + m)).modifyHead (· + n) = counts.modifyHead (· + (m + n)) := by
  cases counts <;> simp [Nat.add_assoc]

/-- The tokens of a phrase widen a tally to the width of the phrase, and add its items to those of the
innermost list. -/
theorem Tally.follow_tokens (p : Phrase k) (t : Tally) : t.follow longest p.tokens =
    ⟨max t.width (p.width longest), t.counts.modifyHead (· + p.itemCount)⟩ := by
  have still : ∀ counts : List Nat, counts.modifyHead (fun n => n) = counts := fun counts => by cases counts <;> rfl
  -- for any tally: the items of a list are counted while those of the lists around it wait
  induction p generalizing t with
  | number | constant | name =>
    simp [Phrase.tokens, follow, step, Phrase.width, Phrase.itemCount_eq_zero, still]
  | group inner ih | call _ inner ih =>
    simp only [Phrase.tokens, follow_cons, follow_append, ih]
    simp [follow, step, Phrase.opening, Phrase.closing, Phrase.width, Phrase.itemCount_eq_zero]
  | list items ih =>
    simp only [Phrase.tokens, follow_cons, follow_append, ih]
    simp [follow, step, Phrase.width, Phrase.itemCount, still, Nat.max_assoc]
  | single operand ih | argument operand ih =>
    simp only [Phrase.tokens, ih]
    simp [Phrase.width, Phrase.itemCount_eq_zero]
  | chain operand op rest ih ih' | comma operand rest ih ih' =>
    simp only [Phrase.tokens, follow_cons, follow_append, ih, ih']
    simp [step, Phrase.between, Phrase.width, Phrase.itemCount_eq_zero, Nat.max_assoc, still]
  | item last ih =>
    simp only [Phrase.tokens, follow_append, ih]
    simp [follow, step, Phrase.width, Phrase.itemCount, Phrase.itemCount_eq_zero, still]
  | more first rest ih ih' =>
    simp only [Phrase.tokens, follow_cons, follow_append, ih, ih', step, modifyHead_add_add]
    simp [Phrase.width, Phrase.itemCount, Phrase.itemCount_eq_zero first, Nat.max_assoc, Nat.add_comm]

end Follow

/-! ## Counting over a draft -/

/-- The length of the longest list that a name reaches. -/
def longestOf (b : Bindings) (f : Forest) (name : String) : Nat :=
  (b.lookup name).elim 0 fun target => (f.rewindLists target).1

namespace Draft

/-- What a draft has counted. -/
def tally (d : Draft) : Tally :=
  ⟨d.width, d.lists.map (·.items.size)⟩

variable {b : Bindings} {f : Forest} {d d' : Draft}

/-- One token. -/
theorem Over.tally_take (h : d.Over b f) {token : Token} (hd : d.take b token = some d') :
    d'.tally = d.tally.step (longestOf b f) token := by
  rcases token with ⟨text, _ | _ | op | g | m | _ | _ | _⟩ <;> simp only [Draft.take] at hd
  · cases hd
    rfl
  · obtain ⟨target, ht, rfl⟩ := Option.map_eq_some_iff.1 hd
    have same : (d.forest.rewindLists target).1 = longestOf b f text := by
      rw [longestOf, ht]
      exact Forest.longest_congr h.nodes target
    simp only [tally, Tally.step, ← same]
    rfl
  · cases hd
    rfl
  · cases hd
    rfl
  · cases hd
    rfl
  · cases hd
    rfl
  · obtain ⟨list, others, root, g, hl, -, rfl⟩ := endItem_eq_some.1 hd
    simp [tally, Tally.step, hl]
  · obtain ⟨list, others, hl, rfl⟩ := endList_eq_some.1 hd
    simp [tally, Tally.step, Draft.add, hl]

/-- Any number of tokens. -/
theorem Over.tally_takeAll (h : d.Over b f) {tokens : List Token} (hd : d.takeAll b tokens = some d') :
    d'.tally = d.tally.follow (longestOf b f) tokens := by
  induction tokens generalizing d with
  | nil =>
    cases hd
    rfl
  | cons token rest ih =>
    rw [Draft.takeAll] at hd
    split at hd
    · cases hd
    · rename_i e hstep
      rw [ih (h.take hstep) hd, h.tally_take hstep]
      rfl

/-- A draft that has taken a phrase is as wide as the phrase. -/
theorem width_takeAll (p : Phrase .expression) (hd : Draft.takeAll b { forest := f } p.tokens = some d) :
    d.width = p.width (longestOf b f) := by
  have counted := (Over.start b f).tally_takeAll hd
  rw [Tally.follow_tokens] at counted
  rw [show d.width = d.tally.width from rfl, counted]
  exact Nat.zero_max _

end Draft

end Formulary.Reading
