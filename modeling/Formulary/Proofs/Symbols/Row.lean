/-
Prefix trees as values, and as tables of symbols. A row of branches is a tree without places: each
branch has a character, possibly an entry, the row below it and the rest of its own row. Looking a
symbol up after entering some gives the latest entry for it, and recognising gives the entry of a
symbol at the head of the text: of all of them the longest or the shortest, as the policy says, and
nothing only when there is none.
-/
import Formulary.Symbols.Trie
import Mathlib.Tactic

namespace Formulary.Symbols

/-- Of two symbols at the head of a text, whether the first length is recognised before the second. -/
def MatchPolicy.prefers : MatchPolicy → Nat → Nat → Prop
  | longest, m, n => n < m
  | firstAccepting, m, n => m < n

/-- A row of branches. -/
inductive Row (α : Type) where
  | nil
  | branch (char : Char) (entry : Option α) (below : Row α) (beside : Row α)

namespace Row

variable {α : Type}

/-- The entry of a branch on the way of a symbol: a new one where nothing is left of the symbol. -/
def entryFor (entry : Option α) (rest : List Char) (a : α) : Option α :=
  if rest = [] then some a else entry

/-- The row that holds a single symbol. -/
def single : List Char → α → Row α
  | [], _ => nil
  | c :: cs, a => branch c (entryFor none cs a) (single cs a) nil

/-- Enters a symbol; a symbol that is there already gets the new entry. The empty symbol begins
no text and is left out. -/
def insert : Row α → List Char → α → Row α
  | nil, symbol, a => single symbol a
  | t, [], _ => t
  | branch d entry below beside, c :: cs, a =>
    if c = d then branch d (entryFor entry cs a) (below.insert cs a) beside
    else branch d entry below (beside.insert (c :: cs) a)

/-- The row of a list of symbols; of two equal symbols the later one counts. -/
def ofList (symbols : List (String × α)) : Row α :=
  symbols.foldl (fun t s => t.insert s.1.toList s.2) nil

/-- The entry of the symbol at the head of the text, with the symbol's length. -/
def find (policy : MatchPolicy) : Row α → List Char → Option (α × Nat)
  | nil, _ => none
  | _, [] => none
  | branch d entry below beside, c :: cs =>
    if c = d then
      let here := entry.map fun a => (a, 1)
      let deeper := (below.find policy cs).map fun found => (found.1, found.2 + 1)
      match policy with
      | .longest => deeper <|> here
      | .firstAccepting => here <|> deeper
    else
      beside.find policy (c :: cs)

/-- The entry of a symbol. -/
def get? : Row α → List Char → Option α
  | nil, _ => none
  | branch _ _ _ _, [] => none
  | branch d entry below beside, c :: cs =>
    if c = d then if cs = [] then entry else below.get? cs
    else beside.get? (c :: cs)

@[simp] theorem get?_empty (t : Row α) : t.get? [] = none := by
  cases t <;> rfl

section Branch

variable {d c : Char} {entry : Option α} {below beside : Row α}

theorem get?_branch_self (cs : List Char) :
    (branch d entry below beside).get? (d :: cs) = if cs = [] then entry else below.get? cs :=
  if_pos rfl

theorem get?_branch_ne (h : c ≠ d) (cs : List Char) :
    (branch d entry below beside).get? (c :: cs) = beside.get? (c :: cs) :=
  if_neg h

end Branch

/-! ## Entering symbols -/

@[simp] theorem insert_empty (t : Row α) (a : α) : t.insert [] a = t := by
  cases t <;> rfl

theorem get?_single (s : List Char) (a : α) (u : List Char) :
    (single s a).get? u = if u = s ∧ s ≠ [] then some a else none := by
  induction s generalizing u with
  | nil => simp [single, get?]
  | cons c cs ih =>
    rcases u with - | ⟨d, ds⟩
    · simp
    · by_cases h : d = c
      · subst h
        rw [single, get?_branch_self, ih]
        by_cases hd : ds = [] <;> by_cases hc : cs = [] <;> simp [entryFor, hd, hc, eq_comm]
      · rw [single, get?_branch_ne h]
        simp [get?, h]

theorem get?_insert (t : Row α) (s : List Char) (a : α) (u : List Char) :
    (t.insert s a).get? u = if u = s ∧ s ≠ [] then some a else t.get? u := by
  induction t generalizing s u with
  | nil => simpa [insert, get?] using get?_single s a u
  | branch d entry below beside ihbelow ihbeside =>
    rcases s with - | ⟨c, cs⟩
    · simp
    · rcases u with - | ⟨e, es⟩
      · simp
      · rw [insert]
        by_cases hc : c = d
        · subst hc
          rw [if_pos rfl]
          by_cases he : e = c
          · subst he
            rw [get?_branch_self, get?_branch_self, ihbelow]
            by_cases hes : es = [] <;> by_cases hcs : cs = [] <;> simp [entryFor, hes, hcs, eq_comm]
          · rw [get?_branch_ne he, get?_branch_ne he, if_neg (by simp [he])]
        · rw [if_neg hc]
          by_cases he : e = d
          · have other : e ≠ c := fun h => hc (h.symm.trans he)
            subst he
            rw [get?_branch_self, get?_branch_self]
            simp [other]
          · rw [get?_branch_ne he, get?_branch_ne he, ihbeside]

/-- Of the symbols of a list, the latest one with this spelling counts. -/
theorem get?_ofList (symbols : List (String × α)) (s : List Char) :
    (ofList symbols).get? s = if s = [] then none else (symbols.reverse.find? fun p => p.1.toList = s).map (·.2) := by
  rw [ofList, ← List.foldr_reverse]
  induction symbols.reverse with
  | nil => simp [get?]
  | cons p rest ih =>
    rw [List.foldr_cons, get?_insert, ih]
    by_cases hs : s = []
    · simp [hs]
    · by_cases hp : p.1.toList = s
      · simp [hp, hs]
      · simp [hp, hs, Ne.symm hp]

/-- The table of a list of things with different symbols. -/
theorem get?_ofList_map {all : List α} {symbol : α → String}
    (differ : ∀ a ∈ all, ∀ b ∈ all, (symbol a).toList = (symbol b).toList → a = b)
    (written : ∀ a ∈ all, (symbol a).toList ≠ []) (s : List Char) (a : α) :
    (ofList (all.map fun a => (symbol a, a))).get? s = some a ↔ a ∈ all ∧ (symbol a).toList = s := by
  rw [get?_ofList]
  constructor
  · intro h
    split at h
    · cases h
    · obtain ⟨p, hp, rfl⟩ := Option.map_eq_some_iff.1 h
      have hmem := List.mem_of_find?_eq_some hp
      rw [List.mem_reverse, List.mem_map] at hmem
      obtain ⟨b, hb, rfl⟩ := hmem
      exact ⟨hb, by simpa using List.find?_some hp⟩
  · rintro ⟨ha, rfl⟩
    rw [if_neg (written a ha)]
    cases hf : (all.map fun a => (symbol a, a)).reverse.find? fun p => p.1.toList = (symbol a).toList with
    | none =>
      rw [List.find?_eq_none] at hf
      have absent := hf (symbol a, a) (List.mem_reverse.2 (List.mem_map_of_mem ha))
      simp at absent
    | some p =>
      have hmem := List.mem_of_find?_eq_some hf
      rw [List.mem_reverse, List.mem_map] at hmem
      obtain ⟨b, hb, rfl⟩ := hmem
      have hsame : (symbol b).toList = (symbol a).toList := by simpa using List.find?_some hf
      rw [differ b hb a ha hsame]
      rfl

/-! ## Recognising -/

section Branch

variable {d c : Char} {entry : Option α} {below beside : Row α}

/-- A symbol recognised below its first character ends there or goes on, and the policy says which
of the two it prefers. -/
theorem find_branch_self {policy : MatchPolicy} {cs : List Char} {a : α} {n : Nat}
    (h : (branch d entry below beside).find policy (d :: cs) = some (a, n)) :
    (entry = some a ∧ n = 1 ∧ (policy = .longest → below.find policy cs = none)) ∨
      ∃ k, below.find policy cs = some (a, k) ∧ n = k + 1 ∧ (policy = .firstAccepting → entry = none) := by
  cases policy <;> cases entry <;> cases hf : below.find _ cs <;> simp [find, hf] at h <;>
    simp [h, Prod.ext_iff, eq_comm]

end Branch

section Find

variable {policy : MatchPolicy} {text : List Char} {a : α} {n : Nat}

/-- Nothing is recognised exactly when no symbol is at the head of the text. -/
theorem find_eq_none {t : Row α} : t.find policy text = none ↔ ∀ n, t.get? (text.take n) = none := by
  induction t generalizing text with
  | nil => simp [find, get?]
  | branch d entry below beside ihbelow ihbeside =>
    rcases text with - | ⟨c, cs⟩
    · simp [find]
    · by_cases hc : c = d
      · subst hc
        have both : (branch c entry below beside).find policy (c :: cs) = none ↔
            entry = none ∧ below.find policy cs = none := by
          cases policy <;> cases entry <;> cases hf : below.find _ cs <;> simp [find, hf]
        rw [both, ihbelow]
        constructor
        · rintro ⟨he, hb⟩ n
          cases n with
          | zero => simp
          | succ n =>
            rw [List.take_succ_cons, get?_branch_self, he, hb]
            simp
        · intro h
          have he := h 1
          rw [List.take_succ_cons, List.take_zero, get?_branch_self, if_pos rfl] at he
          refine ⟨he, fun n => ?_⟩
          have hb := h (n + 1)
          rw [List.take_succ_cons, get?_branch_self] at hb
          split at hb
          · rename_i hnil
            rw [hnil, get?_empty]
          · exact hb
      · rw [find, if_neg hc, ihbeside]
        refine forall_congr' fun n => ?_
        cases n with
        | zero => simp
        | succ n => rw [List.take_succ_cons, get?_branch_ne hc]

/-- What is recognised is the entry of as much text as it says. -/
theorem get?_of_find {t : Row α} (h : t.find policy text = some (a, n)) :
    0 < n ∧ n ≤ text.length ∧ t.get? (text.take n) = some a := by
  induction t generalizing text n with
  | nil => simp [find] at h
  | branch d entry below beside ihbelow ihbeside =>
    rcases text with - | ⟨c, cs⟩
    · simp [find] at h
    · by_cases hc : c = d
      · subst hc
        rcases find_branch_self h with ⟨he, rfl, -⟩ | ⟨k, hk, rfl, -⟩
        · refine ⟨Nat.zero_lt_one, by simp, ?_⟩
          rw [List.take_succ_cons, List.take_zero, get?_branch_self, if_pos rfl, he]
        · obtain ⟨hpos, hle, hget⟩ := ihbelow hk
          refine ⟨Nat.succ_pos k, Nat.succ_le_succ hle, ?_⟩
          have hne : cs.take k ≠ [] := fun hnil => by
            rw [hnil, get?_empty] at hget
            cases hget
          rw [List.take_succ_cons, get?_branch_self, if_neg hne, hget]
      · rw [find, if_neg hc] at h
        obtain ⟨hpos, hle, hget⟩ := ihbeside h
        refine ⟨hpos, hle, ?_⟩
        obtain ⟨k, rfl⟩ : ∃ k, n = k + 1 := ⟨n - 1, by omega⟩
        rw [List.take_succ_cons] at hget ⊢
        rw [get?_branch_ne hc, hget]

/-- No symbol at the head of the text is preferred to the one recognised. -/
theorem find_preferred {t : Row α} (h : t.find policy text = some (a, n)) {m : Nat} (hm : policy.prefers m n)
    (hle : m ≤ text.length) : t.get? (text.take m) = none := by
  induction t generalizing text n m with
  | nil => simp [find] at h
  | branch d entry below beside ihbelow ihbeside =>
    rcases text with - | ⟨c, cs⟩
    · simp [find] at h
    · rcases m with - | m
      · simp
      · rw [List.length_cons, Nat.add_le_add_iff_right] at hle
        rw [List.take_succ_cons]
        by_cases hc : c = d
        · subst hc
          rw [get?_branch_self]
          rcases find_branch_self h with ⟨he, rfl, hdeeper⟩ | ⟨k, hk, rfl, hhere⟩
          · cases policy with
            | longest =>
              have hpos : 0 < m := by simpa [MatchPolicy.prefers] using hm
              have hne : cs.take m ≠ [] := fun hnil => by
                have hlen := congrArg List.length hnil
                rw [List.length_take, List.length_nil] at hlen
                omega
              rw [if_neg hne]
              exact find_eq_none.1 (hdeeper rfl) m
            | firstAccepting => simp [MatchPolicy.prefers] at hm
          · have hpos := (get?_of_find hk).1
            have onward : policy.prefers m k := by cases policy <;> simpa [MatchPolicy.prefers] using hm
            have hb := ihbelow hk onward hle
            split
            · rename_i hnil
              cases policy with
              | longest =>
                have hlen := congrArg List.length hnil
                rw [List.length_take, List.length_nil] at hlen
                simp only [MatchPolicy.prefers] at onward
                omega
              | firstAccepting => exact hhere rfl
            · exact hb
        · rw [find, if_neg hc] at h
          rw [get?_branch_ne hc]
          exact ihbeside (m := m + 1) h hm (by simpa using hle)

end Find

end Row

end Formulary.Symbols
