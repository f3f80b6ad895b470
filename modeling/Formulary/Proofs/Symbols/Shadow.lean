/-
Operators whose symbol begins with that of another one. The policy that takes the first symbol it can
finds the shorter one in their place, and never them; every other operator it finds wherever the
symbol stands. So the two policies differ only where such an operator is written, and there the
shorter one is found right before the equals sign that the two symbols differ by.
-/
import Formulary.Proofs.Symbols.Catalog

namespace Formulary

open Symbols

/-- The operator that hides another one by the beginning of its symbol. -/
def Operator.shadow? : Operator → Option Operator
  | atLeast => some greater
  | atMost => some less
  | _ => none

namespace Operator

variable {op other : Operator}

theorem shadow?_eq_some : op.shadow? = some other ↔ op.symbol.toList = other.symbol.toList ++ ['='] :=
  (by decide : ∀ a ∈ all, ∀ b ∈ all, a.shadow? = some b ↔ a.symbol.toList = b.symbol.toList ++ ['='])
    op op.mem_all other other.mem_all

/-- A symbol begins with itself and with that of the operator that hides it, and with no other one. -/
theorem symbol_prefix (h : other.symbol.toList <+: op.symbol.toList) : other = op ∨ op.shadow? = some other :=
  (by decide : ∀ a ∈ all, ∀ b ∈ all, b.symbol.toList <+: a.symbol.toList → b = a ∨ a.shadow? = some b)
    op op.mem_all other other.mem_all h

theorem shadow?_of_shadow (h : op.shadow? = some other) : other.shadow? = none := by
  cases op <;> cases h <;> rfl

theorem symbol_of_shadow (h : op.shadow? = some other) : other = .greater ∨ other = .less := by
  cases op <;> cases h <;> simp

end Operator

namespace Symbols

/-- A policy can find an operator: under the one that takes the first symbol, nothing hides it. -/
def MatchPolicy.Finds (policy : MatchPolicy) (op : Operator) : Prop :=
  policy = .firstAccepting → op.shadow? = none

/-- An operator that nothing hides is found first, whatever follows it. -/
theorem operatorAt_first {op : Operator} (hop : op.shadow? = none) (rest : List Char) :
    operatorAt .firstAccepting (op.symbol.toList ++ rest) = some (op, op.symbol.toList.length) := by
  have here : operatorRow.get? ((op.symbol.toList ++ rest).take op.symbol.toList.length) = some op :=
    (get?_operatorRow _ _).2 (List.take_left ..).symm
  cases hf : operatorAt .firstAccepting (op.symbol.toList ++ rest) with
  | none =>
    rw [operatorAt_eq] at hf
    rw [Row.find_eq_none.1 hf] at here
    cases here
  | some found =>
    obtain ⟨other, n⟩ := found
    obtain ⟨hn, hsymbol⟩ := operatorAt_sound hf
    have hother : other.symbol.toList <+: op.symbol.toList ++ rest := hsymbol ▸ List.take_prefix n _
    have same : other = op := by
      rcases List.prefix_or_prefix_of_prefix hother (List.prefix_append ..) with h | h
      · exact (Operator.symbol_prefix h).resolve_right (by simp [hop])
      · -- a longer symbol would not have been preferred
        by_contra hne
        have hlt : op.symbol.toList.length < n := by
          rw [hn]
          refine Nat.lt_of_le_of_ne h.length_le fun hlen => hne ?_
          exact (Operator.symbol_injective (h.eq_of_length hlen)).symm
        rw [operatorAt_eq] at hf
        rw [Row.find_preferred hf (m := op.symbol.toList.length) hlt (by simp)] at here
        cases here
    rw [hn, same]

/-- What a policy can find is found where no equals sign follows. -/
theorem operatorAt_of_finds {policy : MatchPolicy} {op : Operator} (h : policy.Finds op) {rest : List Char}
    (hrest : rest.head? ≠ some '=') :
    operatorAt policy (op.symbol.toList ++ rest) = some (op, op.symbol.toList.length) := by
  cases policy with
  | longest => exact operatorAt_longest op hrest
  | firstAccepting => exact operatorAt_first (h rfl) rest

/-- And nothing else is found anywhere. -/
theorem finds_of_operatorAt {policy : MatchPolicy} {text : List Char} {op : Operator} {n : Nat}
    (h : operatorAt policy text = some (op, n)) : policy.Finds op := by
  rintro rfl
  obtain ⟨hn, hsymbol⟩ := operatorAt_sound h
  have htext : text = op.symbol.toList ++ text.drop n := by rw [hsymbol, List.take_append_drop]
  cases hop : op.shadow? with
  | none => rfl
  | some other =>
    rw [Operator.shadow?_eq_some.1 hop, List.append_assoc] at htext
    have first := operatorAt_first (Operator.shadow?_of_shadow hop) (['='] ++ text.drop n)
    rw [← htext, h] at first
    cases first
    rw [Operator.shadow?_of_shadow hop] at hop
    cases hop

/-- Where the policies differ, the longer symbol is that of a hidden operator, and the shorter one
stands right before its equals sign. -/
theorem operatorAt_policies (text : List Char) : operatorAt .longest text = operatorAt .firstAccepting text ∨
    ∃ other rest, (other = .greater ∨ other = .less) ∧ text = other.symbol.toList ++ '=' :: rest ∧
      operatorAt .firstAccepting text = some (other, other.symbol.toList.length) := by
  cases hl : operatorAt .longest text with
  | none =>
    rw [operatorAt_eq] at hl ⊢
    exact .inl (Row.find_eq_none.2 (Row.find_eq_none.1 hl)).symm
  | some found =>
    obtain ⟨op, n⟩ := found
    obtain ⟨hn, hsymbol⟩ := operatorAt_sound hl
    have htext : text = op.symbol.toList ++ text.drop n := by rw [hsymbol, List.take_append_drop]
    cases hop : op.shadow? with
    | none =>
      left
      rw [htext, operatorAt_first hop, hn]
    | some other =>
      right
      rw [Operator.shadow?_eq_some.1 hop, List.append_assoc] at htext
      refine ⟨other, _, Operator.symbol_of_shadow hop, htext, ?_⟩
      rw [htext]
      exact operatorAt_first (Operator.shadow?_of_shadow hop) _

/-- Functions are found alike under all policies. -/
theorem builtinAt_policies (policy policy' : MatchPolicy) (text : List Char) :
    builtinAt policy text = builtinAt policy' text := by
  cases hf : builtinAt policy' text with
  | none =>
    rw [builtinAt_eq] at hf ⊢
    exact Row.find_eq_none.2 (Row.find_eq_none.1 hf)
  | some found =>
    obtain ⟨f, n⟩ := found
    obtain ⟨hn, hsymbol⟩ := builtinAt_sound hf
    rw [← List.take_append_drop n text, ← hsymbol, builtinAt_symbol, hn]

end Symbols

end Formulary
