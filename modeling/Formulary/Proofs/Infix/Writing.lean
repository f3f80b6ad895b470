/-
Writing a tree down. Parentheses stand at least around those operands of an operator that
would otherwise go to another one, and anywhere else as one likes. However a tree is written, the
yard lets its atoms out in reverse Polish order, and the tree can be assembled from them.
-/
import Formulary.Proofs.Infix.Pushing

namespace Formulary

open Infix

/-! ## Where parentheses are needed -/

/-- An operand on one side of an operator needs parentheses if its own topmost operator binds more
weakly, or as strongly while the two group to the other side. -/
def Operator.Demands (op : Operator) (side : Side) (operand : Operator) : Prop :=
  operand.precedence < op.precedence ∨ operand.precedence = op.precedence ∧ op.side ≠ side

instance (op : Operator) (side : Side) (operand : Operator) : Decidable (op.Demands side operand) :=
  inferInstanceAs (Decidable (_ ∨ _ ∧ _))

namespace Operator

/-- Operators of equal precedence group to the same side. -/
theorem side_eq {op o : Operator} (h : o.precedence = op.precedence) : o.side = op.side := by
  revert h
  cases op <;> cases o <;> decide

/-- The left operand needs none exactly if its operator gets the operand between the two. -/
theorem not_demands_left {op o : Operator} : ¬ op.Demands .left o ↔ o.Outbinds op := by
  unfold Demands Outbinds
  by_cases hside : op.side = .left
  · simp only [hside, ne_eq, not_true_eq_false, and_false, or_false, and_true]
    omega
  · simp only [hside, ne_eq, not_false_eq_true, and_true, and_false, or_false]
    omega

/-- The right operand needs none exactly if the operator before it does not get the operand between
the two. -/
theorem not_demands_right {op o : Operator} : ¬ op.Demands .right o ↔ ¬ op.Outbinds o := by
  have hsides : o.precedence = op.precedence → (op.side ≠ .right ↔ o.side = .left) := by
    intro h
    rw [← side_eq h]
    cases o.side <;> decide
  unfold Demands Outbinds
  tauto

end Operator

/-- The atoms write the tree down. What comes last is the operator that stands open at the top, without
parentheses around it. -/
inductive Writes : List Atom → Tree → Option Operator → Prop
  | leaf (text : String) (x : Operand) : Writes [⟨text, .operand x⟩] (.leaf text x) none
  | constant {f : Builtin} (text : String) : f.arity = 0 → Writes [⟨text, .builtin f⟩] (.call text f []) none
  | call {f : Builtin} (text opening comma closing : String) {rows : Fin f.arity → List Atom}
      {params : Fin f.arity → Tree} {tops : Fin f.arity → Option Operator} : 0 < f.arity →
      (∀ i, Writes (rows i) (params i) (tops i)) →
      Writes (⟨text, .builtin f⟩ :: ⟨opening, .mark .opening⟩ ::
        (List.intercalate [⟨comma, .mark .comma⟩] (List.ofFn rows) ++ [⟨closing, .mark .closing⟩]))
        (.call text f (List.ofFn params)) none
  | group (opening closing : String) {as : List Atom} {t : Tree} {top : Option Operator} : Writes as t top →
      Writes (⟨opening, .mark .opening⟩ :: (as ++ [⟨closing, .mark .closing⟩])) t none
  | binary (text : String) (op : Operator) {left right : List Atom} {lhs rhs : Tree} {l r : Option Operator} :
      Writes left lhs l → Writes right rhs r → (∀ o ∈ l, ¬ op.Demands .left o) → (∀ o ∈ r, ¬ op.Demands .right o) →
      Writes (left ++ ⟨text, .operator op⟩ :: right) (.binary text op lhs rhs) (some op)

theorem exists_ofFn {α : Type} {n : Nat} {xs : List α} (h : xs.length = n) : ∃ x : Fin n → α, xs = List.ofFn x := by
  subst h
  exact ⟨xs.get, (List.ofFn_get xs).symm⟩

/-- With parentheses around every operand, any tree can be written down. -/
theorem exists_writes {t : Tree} (h : t.Applied) : ∃ as top, Writes as t top := by
  induction h with
  | leaf text x => exact ⟨_, _, .leaf text x⟩
  | @binary text op lhs rhs _ _ ihl ihr =>
    obtain ⟨left, l, hl⟩ := ihl
    obtain ⟨right, r, hr⟩ := ihr
    exact ⟨_, _, .binary text op (hl.group "(" ")") (hr.group "(" ")") (by simp) (by simp)⟩
  | @call text f params hlen _ ih =>
    rcases Nat.eq_zero_or_pos f.arity with hzero | hpos
    · obtain rfl := List.length_eq_zero_iff.1 (hlen.trans hzero)
      exact ⟨_, _, .constant text hzero⟩
    · obtain ⟨params, rfl⟩ := exists_ofFn hlen
      have written : ∀ i, ∃ as top, Writes as (params i) top := fun i => ih _ (List.mem_ofFn.2 ⟨i, rfl⟩)
      choose rows tops h using written
      exact ⟨_, _, .call text "(" "," ")" hpos h⟩

/-- Only trees whose functions have all their parameters are written down. -/
theorem Writes.applied {as : List Atom} {t : Tree} {top : Option Operator} (h : Writes as t top) : t.Applied := by
  induction h with
  | leaf text x => exact .leaf text x
  | constant text hzero => exact .call hzero.symm (List.forall_mem_nil _)
  | call text opening comma closing _ _ ih =>
    refine .call List.length_ofFn fun t ht => ?_
    obtain ⟨i, rfl⟩ := List.mem_ofFn.1 ht
    exact ih i
  | group _ _ _ ih => exact ih
  | binary _ _ _ _ _ _ ihl ihr => exact .binary ihl ihr

/-! ## What the yard makes of it -/

theorem convertsAll_row (comma : String) {rows : List (List Atom)} {ts : List Tree}
    (h : List.Forall₂ (fun as t => ∃ top, Converts as t top) rows ts) :
    ConvertsAll (List.intercalate [⟨comma, .mark .comma⟩] rows) ts := by
  induction h with
  | nil => exact fun y _ => ⟨[], [], rfl, by simp, .refl y⟩
  | @cons as t rows ts hfirst hrest ih =>
    obtain ⟨top, hfirst⟩ := hfirst
    cases hrest with
    | nil => simpa [List.intercalate] using hfirst.all
    | @cons as' t' rows ts =>
      have split : List.intercalate [⟨comma, .mark .comma⟩] (as :: as' :: rows) =
          as ++ ⟨comma, .mark .comma⟩ :: List.intercalate [⟨comma, .mark .comma⟩] (as' :: rows) := by
        simp [List.intercalate]
      rw [split]
      exact hfirst.comma comma ih

theorem forall₂_ofFn {α β : Type} {R : α → β → Prop} {n : Nat} {xs : Fin n → α} {ys : Fin n → β}
    (h : ∀ i, R (xs i) (ys i)) : List.Forall₂ R (List.ofFn xs) (List.ofFn ys) :=
  List.forall₂_iff_get.2 ⟨by simp, fun i _ _ => by simpa using h _⟩

theorem Writes.converts {as : List Atom} {t : Tree} {top : Option Operator} (h : Writes as t top) :
    Converts as t top := by
  induction h with
  | leaf text x => exact converts_leaf text x
  | constant text _ => exact converts_constant text _
  | call text opening comma closing _ _ ih =>
    exact (convertsAll_row comma (forall₂_ofFn fun i => ⟨_, ih i⟩)).call text opening closing _
  | group opening closing _ ih => exact converts_group ih
  | binary text op _ _ hleft hright ihl ihr =>
    exact converts_binary ihl ihr (fun o ho => Operator.not_demands_left.1 (hleft o ho))
      fun o ho => Operator.not_demands_right.1 (hright o ho)

/-- However a tree is written, a fresh yard ends with no parenthesis open and its atoms in reverse Polish
order, and finishing puts the tree into any forest. -/
theorem Writes.rebuilds {as : List Atom} {t : Tree} {top : Option Operator} (h : Writes as t top) :
    (Yard.pushAll {} as).depth = 0 ∧ (Yard.pushAll {} as).atoms = t.atoms ∧
      ∀ f : Forest, ∃ root g, (Yard.pushAll {} as).finish f = (some root, g) ∧ f.Extends g ∧ g.Stands root t := by
  obtain ⟨hatoms, hdepth⟩ := h.converts.atoms_pushAll
  refine ⟨hdepth, hatoms, fun f => ?_⟩
  exact ⟨_, _, Forest.finish_atoms h.applied hatoms hdepth f, Forest.extends_plant t f, Forest.stands_plant t f⟩

/-- The tree of `(8 - 2) ^ 3 ^ PI - log(8, (2))`. -/
def powersLessLogarithm : Tree :=
  .binary "-" .minus
    (.binary "^" .power (.binary "-" .minus (.leaf "8" (.number 8)) (.leaf "2" (.number 2)))
      (.binary "^" .power (.leaf "3" (.number 3)) (.call "PI" .pi [])))
    (.call "log" .log [.leaf "8" (.number 8), .leaf "2" (.number 2)])

/-- Its atoms as written, with parentheses that are needed and others that are not. -/
def writtenPowersLessLogarithm : List Atom :=
  [Mark.opening.atom, ⟨"8", .operand (.number 8)⟩, Operator.minus.atom, ⟨"2", .operand (.number 2)⟩,
    Mark.closing.atom, Operator.power.atom, ⟨"3", .operand (.number 3)⟩, Operator.power.atom, Builtin.pi.atom,
    Operator.minus.atom, Builtin.log.atom, Mark.opening.atom, ⟨"8", .operand (.number 8)⟩, Mark.comma.atom,
    Mark.opening.atom, ⟨"2", .operand (.number 2)⟩, Mark.closing.atom, Mark.closing.atom]

theorem writes_powersLessLogarithm :
    Writes writtenPowersLessLogarithm powersLessLogarithm (some .minus) := by
  have base := (Writes.binary "-" .minus (.leaf "8" (.number 8)) (.leaf "2" (.number 2))
    (by simp) (by simp)).group "(" ")"
  have exponent := Writes.binary "^" .power (.leaf "3" (.number 3)) (.constant "PI" (f := .pi) rfl)
    (by simp) (by simp)
  have powers := Writes.binary "^" .power base exponent (by simp) (by rintro o ⟨⟩; decide)
  have arguments : ∀ i : Fin 2, Writes
      (![[⟨"8", .operand (.number 8)⟩], [Mark.opening.atom, ⟨"2", .operand (.number 2)⟩, Mark.closing.atom]] i)
      (![.leaf "8" (.number 8), .leaf "2" (.number 2)] i) (![none, none] i)
    | 0 => .leaf "8" (.number 8)
    | 1 => (Writes.leaf "2" (.number 2)).group "(" ")"
  have logarithm := @Writes.call .log "log" "(" "," ")" _ _ _ (by decide) arguments
  exact .binary "-" .minus powers logarithm (by rintro o ⟨⟩; decide) (by simp)

theorem rebuilds_powersLessLogarithm : Writes writtenPowersLessLogarithm powersLessLogarithm (some .minus) ∧
    ∃ root g, (Yard.pushAll {} writtenPowersLessLogarithm).finish .empty = (some root, g) ∧
      g.Stands root powersLessLogarithm := by
  obtain ⟨-, -, hfinish⟩ := writes_powersLessLogarithm.rebuilds
  obtain ⟨root, g, heq, -, stands⟩ := hfinish .empty
  exact ⟨writes_powersLessLogarithm, root, g, heq, stands⟩

end Formulary
