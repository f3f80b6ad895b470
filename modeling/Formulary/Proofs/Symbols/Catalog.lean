/-
What the symbols of formulas have in common. No function's name begins with another one, so both
policies find the same functions; an operator's symbol goes on after a shorter one only with an
equals sign, so where no such sign follows, the longest symbol is the one that was written.
-/
import Formulary.Symbols.Catalog
import Formulary.Proofs.Symbols.Trie
import Formulary.Text.Cursor

namespace Formulary

open Text

theorem Operator.mem_all (op : Operator) : op ∈ Operator.all := by
  cases op <;> decide

theorem Builtin.mem_all (f : Builtin) : f ∈ Builtin.all := by
  cases f <;> decide

theorem Operator.symbol_injective {op other : Operator} (h : op.symbol.toList = other.symbol.toList) : op = other :=
  (by decide : ∀ a ∈ all, ∀ b ∈ all, a.symbol.toList = b.symbol.toList → a = b) op op.mem_all other other.mem_all h

/-- Only an equals sign makes another operator out of one. -/
theorem Operator.eq_of_symbol_append {op other : Operator} {c : Char} {rest : List Char}
    (h : other.symbol.toList = op.symbol.toList ++ c :: rest) : c = '=' := by
  have longer : ∀ a ∈ all, ∀ b ∈ all, a.symbol.toList <+: b.symbol.toList →
      b.symbol.toList[a.symbol.toList.length]?.getD '=' = '=' := by decide
  have := longer op op.mem_all other other.mem_all ⟨_, h.symm⟩
  simpa [h] using this

/-- No function's name begins with that of another one. -/
theorem Builtin.eq_of_symbol_prefix {f g : Builtin} (h : f.symbol.toList <+: g.symbol.toList) : f = g :=
  (by decide : ∀ a ∈ all, ∀ b ∈ all, a.symbol.toList <+: b.symbol.toList → a = b) f f.mem_all g g.mem_all h

theorem Builtin.symbol_injective {f g : Builtin} (h : f.symbol.toList = g.symbol.toList) : f = g :=
  eq_of_symbol_prefix (h ▸ List.prefix_refl _)

theorem Builtin.symbol_ne_nil (f : Builtin) : f.symbol.toList ≠ [] :=
  (by decide : ∀ a ∈ all, a.symbol.toList ≠ []) f f.mem_all

theorem Builtin.symbol_nameChars (f : Builtin) : ∀ c ∈ f.symbol.toList, isNameChar c = true :=
  List.all_eq_true.1 ((by decide : ∀ a ∈ all, a.symbol.toList.all isNameChar = true) f f.mem_all)

namespace Symbols

/-- The symbols of all operators as a table. -/
def operatorRow : Row Operator :=
  Row.ofList (Operator.all.map fun op => (op.symbol, op))

/-- The names of all functions as a table. -/
def builtinRow : Row Builtin :=
  Row.ofList (Builtin.all.map fun f => (f.symbol, f))

theorem operatorAt_eq (policy : MatchPolicy) (text : List Char) :
    operatorAt policy text = operatorRow.find policy text :=
  (Trie.represents_ofList _).find_eq text 0 policy

theorem builtinAt_eq (policy : MatchPolicy) (text : List Char) :
    builtinAt policy text = builtinRow.find policy text :=
  (Trie.represents_ofList _).find_eq text 0 policy

theorem get?_operatorRow (s : List Char) (op : Operator) : operatorRow.get? s = some op ↔ op.symbol.toList = s := by
  rw [operatorRow, Row.get?_ofList_map (by decide) (by decide)]
  exact and_iff_right op.mem_all

theorem get?_builtinRow (s : List Char) (f : Builtin) : builtinRow.get? s = some f ↔ f.symbol.toList = s := by
  rw [builtinRow, Row.get?_ofList_map (by decide) (by decide)]
  exact and_iff_right f.mem_all

/-- An operator that is recognised stands at the head of the text. -/
theorem operatorAt_sound {policy : MatchPolicy} {text : List Char} {op : Operator} {n : Nat}
    (h : operatorAt policy text = some (op, n)) :
    n = op.symbol.toList.length ∧ op.symbol.toList = text.take n := by
  rw [operatorAt_eq] at h
  obtain ⟨-, hle, hget⟩ := Row.get?_of_find h
  rw [get?_operatorRow] at hget
  rw [hget]
  exact ⟨(List.length_take_of_le hle).symm, rfl⟩

/-- An operator that no equals sign follows is recognised, also where a shorter one begins it. -/
theorem operatorAt_longest (op : Operator) {rest : List Char} (hrest : rest.head? ≠ some '=') :
    operatorAt .longest (op.symbol.toList ++ rest) = some (op, op.symbol.toList.length) := by
  have here : operatorRow.get? ((op.symbol.toList ++ rest).take op.symbol.toList.length) = some op :=
    (get?_operatorRow _ _).2 (List.take_left ..).symm
  cases hf : operatorAt .longest (op.symbol.toList ++ rest) with
  | none =>
    rw [operatorAt_eq] at hf
    rw [Row.find_eq_none.1 hf] at here
    cases here
  | some found =>
    obtain ⟨other, n⟩ := found
    obtain ⟨hn, hsymbol⟩ := operatorAt_sound hf
    have hle : op.symbol.toList.length ≤ n := by
      by_contra hlt
      rw [operatorAt_eq] at hf
      have := Row.find_preferred hf (m := op.symbol.toList.length) (Nat.lt_of_not_le hlt) (by simp)
      rw [this] at here
      cases here
    rw [List.take_append, List.take_of_length_le hle] at hsymbol
    cases hmore : rest.take (n - op.symbol.toList.length) with
    | nil =>
      rw [hmore, List.append_nil] at hsymbol
      have same := Operator.symbol_injective hsymbol
      rw [hn, same]
    | cons c more =>
      rw [hmore] at hsymbol
      have hc := Operator.eq_of_symbol_append hsymbol
      have hhead := List.head?_take (l := rest) (i := n - op.symbol.toList.length)
      rw [hmore, List.head?_cons] at hhead
      split at hhead
      · cases hhead
      · exact absurd (hhead.symm.trans (congrArg some hc)) hrest

/-- A function that is recognised stands at the head of the text. -/
theorem builtinAt_sound {policy : MatchPolicy} {text : List Char} {f : Builtin} {n : Nat}
    (h : builtinAt policy text = some (f, n)) : n = f.symbol.toList.length ∧ f.symbol.toList = text.take n := by
  rw [builtinAt_eq] at h
  obtain ⟨-, hle, hget⟩ := Row.get?_of_find h
  rw [get?_builtinRow] at hget
  rw [hget]
  exact ⟨(List.length_take_of_le hle).symm, rfl⟩

/-- A function at the head of a text is recognised, whatever follows it. -/
theorem builtinAt_symbol (policy : MatchPolicy) (f : Builtin) (rest : List Char) :
    builtinAt policy (f.symbol.toList ++ rest) = some (f, f.symbol.toList.length) := by
  cases hf : builtinAt policy (f.symbol.toList ++ rest) with
  | none =>
    have here : builtinRow.get? ((f.symbol.toList ++ rest).take f.symbol.toList.length) = some f :=
      (get?_builtinRow _ _).2 (List.take_left ..).symm
    rw [builtinAt_eq] at hf
    rw [Row.find_eq_none.1 hf] at here
    cases here
  | some found =>
    obtain ⟨g, n⟩ := found
    obtain ⟨hn, hsymbol⟩ := builtinAt_sound hf
    have hg : g.symbol.toList <+: f.symbol.toList ++ rest := hsymbol ▸ List.take_prefix n _
    have same : g = f := by
      rcases List.prefix_or_prefix_of_prefix hg (List.prefix_append ..) with h | h
      · exact Builtin.eq_of_symbol_prefix h
      · exact (Builtin.eq_of_symbol_prefix h).symm
    rw [hn, same]

end Symbols

end Formulary
