/-
How operators group. Of two operators one after the other the left one takes the operand between
them if it binds more strongly, or as strongly and the right one groups to the left. Operands with
operators between them have exactly one tree in which this holds of every operator, and the yard
lets atoms go out in the order of that tree.
-/
import Formulary.Proofs.Infix.Tree
import Formulary.Proofs.Infix.Yard

namespace Formulary

open Infix

/-- Of two operators one after the other, the left one takes the operand between them. -/
def Operator.Outbinds (left right : Operator) : Prop :=
  right.precedence < left.precedence ∨ right.precedence = left.precedence ∧ right.side = .left

instance (left right : Operator) : Decidable (left.Outbinds right) :=
  inferInstanceAs (Decidable (_ ∨ _ ∧ _))

namespace Operator.Outbinds

variable {o p q : Operator}

theorem not_of_outbinds (h : q.Outbinds p) (ho : ¬ o.Outbinds p) : ¬ o.Outbinds q := by
  unfold Outbinds at *
  by_cases hp : p.side = .left
  · simp only [hp, and_true] at h ho
    omega
  · simp only [hp, and_false, or_false] at h ho
    omega

theorem not_trans (hp : ¬ o.Outbinds p) (hq : ¬ p.Outbinds q) : ¬ o.Outbinds q := by
  unfold Outbinds at *
  by_cases hside : q.side = .left
  · simp only [hside, and_true] at hq ⊢
    omega
  · simp only [hside, and_false, or_false] at hq ⊢
    omega

end Operator.Outbinds

/-- Operands with operators between them, and a tree of them. The operators on the left of the
topmost one outbind it, and it outbinds none of those on its right. -/
inductive Groups : List Operator → List Tree → Tree → Prop
  | single (t : Tree) : Groups [] [t] t
  | binary {left right : List Operator} {op : Operator} {ts us : List Tree} {l r : Tree} :
      Groups left ts l → Groups right us r → (∀ o ∈ left, o.Outbinds op) → (∀ o ∈ right, ¬ op.Outbinds o) →
      Groups (left ++ op :: right) (ts ++ us) (.binary op.symbol op l r)

namespace Groups

variable {ops : List Operator} {ts : List Tree} {t u : Tree}

theorem length (h : Groups ops ts t) : ts.length = ops.length + 1 := by
  induction h with
  | single t => rfl
  | binary _ _ _ _ ihl ihr => simp only [List.length_append, List.length_cons, ihl, ihr]; omega

/-- One more operand in front. It goes down on the left as far as operators are outbound. -/
theorem exists_cons (h : Groups ops ts t) (op : Operator) (u : Tree) : ∃ v, Groups (op :: ops) (u :: ts) v := by
  induction h with
  | single t => exact ⟨_, .binary (.single u) (.single t) (by simp) (by simp)⟩
  | @binary left right top ts us l r hl hr hleft hright ihl _ =>
    by_cases hop : op.Outbinds top
    · obtain ⟨v, hv⟩ := ihl
      refine ⟨_, .binary hv hr ?_ hright⟩
      simpa using ⟨hop, hleft⟩
    · refine ⟨_, .binary (.single u) (.binary hl hr hleft hright) (by simp) ?_⟩
      intro o ho
      rcases List.mem_append.1 ho with ho | ho
      · exact (hleft o ho).not_of_outbinds hop
      · rcases List.mem_cons.1 ho with rfl | ho
        · exact hop
        · exact Operator.Outbinds.not_trans hop (hright o ho)

theorem exists_of_length {ops : List Operator} {ts : List Tree} (h : ts.length = ops.length + 1) :
    ∃ t, Groups ops ts t := by
  induction ops generalizing ts with
  | nil =>
    obtain ⟨t, rfl⟩ := List.length_eq_one_iff.1 h
    exact ⟨t, .single t⟩
  | cons op ops ih =>
    obtain ⟨u, ts, rfl⟩ := List.exists_cons_of_length_eq_add_one h
    obtain ⟨t, ht⟩ := ih (Nat.succ.inj h)
    exact ht.exists_cons op u

/-- The topmost operator stands in one place only: of two different ones, the first would have to
outbind the second and must not. -/
theorem unique (ht : Groups ops ts t) (hu : Groups ops ts u) : t = u := by
  induction ht generalizing u with
  | single t =>
    generalize hops : ([] : List Operator) = ops at hu
    generalize hts : [t] = ts at hu
    cases hu with
    | single u => exact (List.cons.inj hts).1
    | binary => simp at hops
  | @binary left right op ts us l r hl hr hleft hright ihl ihr =>
    generalize hops : left ++ op :: right = ops at hu
    generalize hts : ts ++ us = rows at hu
    cases hu with
    | single u => simp at hops
    | @binary left' right' op' ts' us' l' r' hl' hr' hleft' hright' =>
      -- with the topmost operators in one place, both sides are the same rows
      have same : left = left' → op = op' → right = right' →
          Tree.binary op.symbol op l r = .binary op'.symbol op' l' r' := by
        rintro rfl rfl rfl
        obtain ⟨rfl, rfl⟩ := List.append_inj hts (by rw [hl.length, hl'.length])
        rw [ihl hl', ihr hr']
      rcases List.append_eq_append_iff.1 hops with ⟨between, hbetween, hrest⟩ | ⟨between, hbetween, hrest⟩
      · cases between with
        | nil => exact same (by rw [hbetween, List.append_nil]) (List.cons.inj hrest).1 (List.cons.inj hrest).2
        | cons o between =>
          obtain ⟨rfl, rfl⟩ := List.cons.inj hrest
          exact absurd (hleft' op (by simp [hbetween])) (hright op' (by simp))
      · cases between with
        | nil =>
          exact same (by rw [hbetween, List.append_nil]) (List.cons.inj hrest).1.symm (List.cons.inj hrest).2.symm
        | cons o between =>
          obtain ⟨rfl, rfl⟩ := List.cons.inj hrest
          exact absurd (hleft op' (by simp [hbetween])) (hright' op (by simp))

end Groups

/-- Operands with operators between them have exactly one tree. -/
theorem existsUnique_groups {ops : List Operator} {ts : List Tree} (h : ts.length = ops.length + 1) :
    ∃! t, Groups ops ts t := by
  obtain ⟨t, ht⟩ := Groups.exists_of_length h
  exact ⟨t, ht, fun _ hu => hu.unique ht⟩

end Formulary
