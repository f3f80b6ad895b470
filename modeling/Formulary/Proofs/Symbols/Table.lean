/-
A prefix tree is the table of the symbols entered. Whatever symbols they are, in whatever order they
came and however often, what is recognised in a text depends on nothing but which symbols begin the
text there and on the entry that each of them got last.
-/
import Formulary.Proofs.Symbols.Trie

namespace Formulary.Symbols

variable {α : Type} {symbols : List (String × α)} {symbol : String} {a : α}

/-- The last entry of a symbol: no later one has been entered for it. -/
def Latest (symbols : List (String × α)) (symbol : String) (a : α) : Prop :=
  ∃ before after, symbols = before ++ (symbol, a) :: after ∧ ∀ p ∈ after, p.1 ≠ symbol

/-- A symbol that has been entered begins a text. The empty one begins none. -/
def Heads (symbols : List (String × α)) (text : List Char) (symbol : String) : Prop :=
  symbol ≠ "" ∧ symbol.toList <+: text ∧ ∃ a, (symbol, a) ∈ symbols

/-- Every symbol that has been entered has a last entry. -/
theorem exists_latest (h : (symbol, a) ∈ symbols) : ∃ b, Latest symbols symbol b := by
  induction symbols generalizing a with
  | nil => cases h
  | cons p rest ih =>
    by_cases again : ∃ b, (symbol, b) ∈ rest
    · obtain ⟨b, hb⟩ := again
      obtain ⟨c, before, after, rfl, hafter⟩ := ih hb
      exact ⟨c, p :: before, after, rfl, hafter⟩
    · rcases List.mem_cons.1 h with rfl | h
      · refine ⟨a, [], rest, rfl, ?_⟩
        rintro ⟨other, b⟩ hb rfl
        exact again ⟨b, hb⟩
      · exact absurd ⟨a, h⟩ again

theorem Latest.mem (h : Latest symbols symbol a) : (symbol, a) ∈ symbols := by
  obtain ⟨before, after, rfl, -⟩ := h
  simp

namespace Row

/-- Looking a symbol up gives the last entry. -/
theorem get?_ofList_eq_some : (ofList symbols).get? symbol.toList = some a ↔ symbol ≠ "" ∧ Latest symbols symbol a := by
  rw [get?_ofList]
  simp only [String.toList_eq_nil_iff]
  split
  · rename_i hempty
    simp [hempty]
  · rename_i hne
    rw [Option.map_eq_some_iff]
    constructor
    · rintro ⟨⟨other, b⟩, hfind, rfl⟩
      obtain ⟨hsame, before, after, hrev, hbefore⟩ := List.find?_eq_some_iff_append.1 hfind
      obtain rfl : other = symbol := String.toList_inj.1 (by simpa using hsame)
      refine ⟨hne, after.reverse, before.reverse, ?_, fun p hp => ?_⟩
      · rw [← List.reverse_reverse symbols, hrev]
        simp
      · have := hbefore p (List.mem_reverse.1 hp)
        simpa [String.toList_inj] using this
    · rintro ⟨-, before, after, rfl, hafter⟩
      refine ⟨(symbol, a), List.find?_eq_some_iff_append.2 ⟨by simp, after.reverse, before.reverse, by simp, ?_⟩, rfl⟩
      intro p hp
      simpa [String.toList_inj] using hafter p (List.mem_reverse.1 hp)

/-- The first characters of a text have an entry exactly if they are a symbol. -/
theorem get?_take_eq_some {text : List Char} {n : Nat} (hn : n ≤ text.length) :
    (ofList symbols).get? (text.take n) = some a ↔
      ∃ symbol, Heads symbols text symbol ∧ n = symbol.length ∧ Latest symbols symbol a := by
  have spelled : (text.take n) = (String.ofList (text.take n)).toList := String.toList_ofList.symm
  rw [spelled, get?_ofList_eq_some]
  constructor
  · rintro ⟨hne, hlatest⟩
    refine ⟨_, ⟨hne, ?_, a, hlatest.mem⟩, ?_, hlatest⟩
    · rw [← spelled]
      exact List.take_prefix n text
    · rw [← String.length_toList, ← spelled, List.length_take_of_le hn]
  · rintro ⟨symbol, ⟨hne, hhead, -⟩, rfl, hlatest⟩
    rw [← String.length_toList, ← List.prefix_iff_eq_take.1 hhead, String.ofList_toList]
    exact ⟨hne, hlatest⟩

/-- A symbol that begins the text is an entry of the table. -/
theorem exists_get?_of_heads {text : List Char} (h : Heads symbols text symbol) :
    symbol.length ≤ text.length ∧ ∃ a, (ofList symbols).get? (text.take symbol.length) = some a := by
  obtain ⟨a, ha⟩ := h.2.2
  obtain ⟨b, hb⟩ := exists_latest ha
  have hle : symbol.length ≤ text.length := by
    rw [← String.length_toList]
    exact h.2.1.length_le
  exact ⟨hle, b, (get?_take_eq_some hle).2 ⟨symbol, h, rfl, hb⟩⟩

/-- What is recognised is a symbol that begins the text, with its last entry. -/
theorem exists_heads_of_find {policy : MatchPolicy} {text : List Char} {n : Nat}
    (h : (ofList symbols).find policy text = some (a, n)) :
    ∃ symbol, Heads symbols text symbol ∧ n = symbol.length ∧ Latest symbols symbol a := by
  obtain ⟨-, hle, hget⟩ := get?_of_find h
  exact (get?_take_eq_some hle).1 hget

/-- No symbol that begins the text would have been preferred. -/
theorem not_prefers_of_find {policy : MatchPolicy} {text : List Char} {n : Nat}
    (h : (ofList symbols).find policy text = some (a, n)) (hs : Heads symbols text symbol) :
    ¬ policy.prefers symbol.length n := by
  intro hprefers
  obtain ⟨hle, b, hb⟩ := exists_get?_of_heads hs
  rw [find_preferred h hprefers hle] at hb
  cases hb

/-- Nothing is recognised if no symbol begins the text, and only then. -/
theorem find_ofList_eq_none {policy : MatchPolicy} {text : List Char} :
    (ofList symbols).find policy text = none ↔ ∀ symbol, ¬ Heads symbols text symbol := by
  constructor
  · intro h symbol hs
    obtain ⟨-, a, ha⟩ := exists_get?_of_heads hs
    rw [find_eq_none.1 h] at ha
    cases ha
  · intro h
    cases hf : (ofList symbols).find policy text with
    | none => rfl
    | some p =>
      obtain ⟨symbol, hs, -⟩ := exists_heads_of_find hf
      exact absurd hs (h symbol)

/-- A symbol that begins the text is what is recognised if none of the others would be preferred. -/
theorem find_ofList_of_heads {policy : MatchPolicy} {text : List Char} (hs : Heads symbols text symbol)
    (hlatest : Latest symbols symbol a)
    (hlongest : policy = .longest → ∀ other, Heads symbols text other → other.length ≤ symbol.length)
    (hshortest : policy = .firstAccepting → ∀ other, Heads symbols text other → symbol.length ≤ other.length) :
    (ofList symbols).find policy text = some (a, symbol.length) := by
  cases hf : (ofList symbols).find policy text with
  | none => exact absurd hs (find_ofList_eq_none.1 hf symbol)
  | some p =>
    obtain ⟨b, m⟩ := p
    obtain ⟨other, hother, rfl, hb⟩ := exists_heads_of_find hf
    -- neither length is preferred to the other one, so both entries belong to the same prefix
    have same : other.length = symbol.length := by
      have := not_prefers_of_find hf hs
      cases policy with
      | longest => exact Nat.le_antisymm (hlongest rfl other hother) (Nat.le_of_not_lt this)
      | firstAccepting => exact Nat.le_antisymm (Nat.le_of_not_lt this) (hshortest rfl other hother)
    have hle := (exists_get?_of_heads hs).1
    have ha := (get?_take_eq_some hle).2 ⟨symbol, hs, rfl, hlatest⟩
    have hb := (get?_take_eq_some hle).2 ⟨other, hother, same.symm, hb⟩
    rw [Option.some.inj (hb.symm.trans ha), same]

end Row

namespace Trie

/-- After any symbols were entered, in any order: at no position of the input anything is recognised
unless a symbol begins there; else the longest of those symbols is, or the shortest one, as the policy
says, with its last entry and its number of characters. -/
theorem find_ofList (symbols : List (String × α)) (policy : MatchPolicy) (input : List Char) (position : Nat) :
    ((ofList symbols).find input position policy = none ↔ ∀ symbol, ¬ Heads symbols (input.drop position) symbol) ∧
    ∀ a n, (ofList symbols).find input position policy = some (a, n) ↔
      ∃ symbol, Heads symbols (input.drop position) symbol ∧ n = symbol.length ∧ Latest symbols symbol a ∧
        (policy = .longest → ∀ other, Heads symbols (input.drop position) other → other.length ≤ n) ∧
        (policy = .firstAccepting → ∀ other, Heads symbols (input.drop position) other → n ≤ other.length) := by
  rw [(represents_ofList symbols).find_eq]
  refine ⟨Row.find_ofList_eq_none, fun a n => ⟨fun h => ?_, ?_⟩⟩
  · obtain ⟨symbol, hs, hn, hlatest⟩ := Row.exists_heads_of_find h
    refine ⟨symbol, hs, hn, hlatest, ?_, ?_⟩
    · rintro rfl other hother
      exact Nat.le_of_not_lt (Row.not_prefers_of_find h hother)
    · rintro rfl other hother
      exact Nat.le_of_not_lt (Row.not_prefers_of_find h hother)
  · rintro ⟨symbol, hs, rfl, hlatest, hlongest, hshortest⟩
    exact Row.find_ofList_of_heads hs hlatest hlongest hshortest

/-- A path that leads on and then breaks off gives the symbol passed on the way, with its last entry. -/
example : (ofList [("a", 1), ("abc", 2), ("", 3), ("a", 4)]).find "xabd".toList 1 .longest = some (4, 1) := by
  decide +kernel

/-- Past the end of the input no symbol begins, not even the empty one. -/
example : (ofList [("", 3)]).find "x".toList 2 .longest = none := by
  decide +kernel

end Trie

end Formulary.Symbols
