/-
What pushing the atoms of a formula does to a yard, whatever the yard holds already. The atoms of
its tree go out in reverse Polish order, except for the last ones, which wait on top of those that
waited before. On these the formula has no bearing: an opening parenthesis shields them, or they
are outbound by its operators.
-/
import Formulary.Proofs.Infix.Grouping

namespace Formulary

open Infix

/-- A mark as the atom that is read for it. -/
def Infix.Mark.atom (m : Mark) : Atom :=
  ⟨m.symbol, .mark m⟩

/-! ## Who goes before whom -/

theorem goesBefore_builtin (op : Operator) (text : String) (f : Builtin) :
    goesBefore op ⟨text, .builtin f⟩ = true := by
  cases op <;> rfl

theorem goesBefore_operator (op : Operator) (text : String) (o : Operator) :
    goesBefore op ⟨text, .operator o⟩ = true ↔ o.Outbinds op := by
  unfold goesBefore Operator.Outbinds Atom.precedence?
  cases op.side <;> simp [Nat.le_iff_lt_or_eq]

theorem goesBefore_opening (op : Operator) {a : Atom} (h : a.isOpening = true) : goesBefore op a = false := by
  rcases a with ⟨text, _ | _ | _ | _⟩
  case mark => rfl
  all_goals cases h

namespace Infix.Yard

/-! ## Growing -/

/-- Between two states of a yard some atoms have gone out, and others wait on top of those that
waited before. -/
structure Grows (y : Yard) (out wait : List Atom) (z : Yard) : Prop where
  output : z.output.toList = y.output.toList ++ out
  waiting : z.waiting = wait ++ y.waiting
  depth : z.depth = y.depth

/-- Pushes atoms in turn. -/
def pushAll (y : Yard) (as : List Atom) : Yard :=
  as.foldl push y

theorem pushAll_append (y : Yard) (as bs : List Atom) : y.pushAll (as ++ bs) = (y.pushAll as).pushAll bs :=
  List.foldl_append

theorem pushAll_append_singleton (y : Yard) (as : List Atom) (a : Atom) :
    y.pushAll (as ++ [a]) = (y.pushAll as).push a := by
  rw [pushAll_append]
  rfl

/-- Where a yard lets atoms go out up to one that stays. -/
theorem release_eq {y : Yard} {wait rest : List Atom} (test : Atom → Bool) (hy : y.waiting = wait ++ rest)
    (hw : ∀ a ∈ wait, test a = true) (hr : ∀ a, rest.head? = some a → test a = false) :
    (y.release test).output.toList = y.output.toList ++ wait ∧ (y.release test).waiting = rest := by
  have stop : rest.takeWhile test = [] ∧ rest.dropWhile test = rest := by
    cases rest with
    | nil => exact ⟨rfl, rfl⟩
    | cons a rest => simp [hr a rfl]
  unfold release
  rw [toList_foldl_push, hy, List.takeWhile_append_of_pos hw, List.dropWhile_append_of_pos hw, stop.1, stop.2,
    List.append_nil]
  exact ⟨rfl, rfl⟩

namespace Grows

variable {y z w : Yard} {out wait : List Atom}

theorem refl (y : Yard) : y.Grows [] [] y :=
  ⟨by simp, by simp, rfl⟩

theorem trans {out' wait' : List Atom} (h : y.Grows out wait z) (h' : z.Grows out' wait' w) :
    y.Grows (out ++ out') (wait' ++ wait) w :=
  ⟨by rw [h'.output, h.output, List.append_assoc], by rw [h'.waiting, h.waiting, List.append_assoc],
    h'.depth.trans h.depth⟩

theorem operand (y : Yard) (text : String) (operand : Operand) :
    y.Grows [⟨text, .operand operand⟩] [] (y.push ⟨text, .operand operand⟩) :=
  ⟨by simp [push], rfl, rfl⟩

theorem builtin (y : Yard) (text : String) (f : Builtin) :
    y.Grows [] [⟨text, .builtin f⟩] (y.push ⟨text, .builtin f⟩) :=
  ⟨by simp [push, hold], rfl, rfl⟩

/-- An operator sends out what waits for it on its left and waits itself. -/
theorem operator {op : Operator} (text : String) (h : y.Grows out wait z) (hw : ∀ a ∈ wait, goesBefore op a = true)
    (hy : ∀ a, y.waiting.head? = some a → goesBefore op a = false) :
    y.Grows (out ++ wait) [⟨text, .operator op⟩] (z.push ⟨text, .operator op⟩) := by
  obtain ⟨ho, hr⟩ := release_eq _ h.waiting hw hy
  refine ⟨?_, ?_, h.depth⟩
  · show (z.release (goesBefore op)).output.toList = _
    rw [ho, h.output, List.append_assoc]
  · show ⟨text, .operator op⟩ :: (z.release (goesBefore op)).waiting = _
    rw [hr]
    rfl

/-- A comma sends out everything since the last opening parenthesis. -/
theorem comma (text : String) (h : y.Grows out wait z) (hw : ∀ a ∈ wait, a.isOpening = false)
    (hy : ∀ a, y.waiting.head? = some a → a.isOpening = true) :
    y.Grows (out ++ wait) [] (z.push ⟨text, .mark .comma⟩) := by
  obtain ⟨ho, hr⟩ := release_eq (!·.isOpening) h.waiting (fun a ha => by simp [hw a ha]) fun a ha => by simp [hy a ha]
  refine ⟨?_, ?_, h.depth⟩
  · show (z.release (!·.isOpening)).output.toList = _
    rw [ho, h.output, List.append_assoc]
  · exact hr

theorem isOpening_head (y : Yard) (text : String) :
    ∀ a, (y.push ⟨text, .mark .opening⟩).waiting.head? = some a → a.isOpening = true := by
  rintro a ⟨⟩
  rfl

/-- A closing parenthesis sends out everything since the one it closes, which it takes away. -/
theorem enclosed {opening : String} (closing : String) (h : (y.push ⟨opening, .mark .opening⟩).Grows out wait z)
    (hw : ∀ a ∈ wait, a.isOpening = false) : y.Grows (out ++ wait) [] (z.push ⟨closing, .mark .closing⟩) := by
  obtain ⟨ho, hr⟩ := release_eq (!·.isOpening) h.waiting (fun a ha => by simp [hw a ha])
    fun a ha => by simp [isOpening_head y opening a ha]
  refine ⟨?_, ?_, ?_⟩
  · show (z.release (!·.isOpening)).output.toList = _
    rw [ho, h.output, List.append_assoc]
    rfl
  · show (z.release (!·.isOpening)).waiting.tail = _
    rw [hr]
    rfl
  · show z.depth - 1 = _
    rw [h.depth]
    rfl

end Grows

end Infix.Yard

/-! ## Trees -/

/-- A waiting atom that an operator does not send out is not sent out by one that outbinds it either. -/
theorem goesBefore_of_outbinds {op o : Operator} {a : Atom} (h : o.Outbinds op) (ha : goesBefore op a = false) :
    goesBefore o a = false := by
  rcases a with ⟨text, x | p | f | m⟩
  · rfl
  · rw [Bool.eq_false_iff, Ne, goesBefore_operator] at ha ⊢
    exact h.not_of_outbinds ha
  · rw [goesBefore_builtin] at ha
    cases ha
  · rfl

/-- On top of atoms that its open operator does not send out, a tree goes through the yard in reverse
Polish order, up to atoms that wait behind it. An operator sends these out if the open one outbinds it. -/
def Converts (as : List Atom) (t : Tree) (top : Option Operator) : Prop :=
  ∀ y : Yard, (∀ a, y.waiting.head? = some a → ∀ o ∈ top, goesBefore o a = false) →
    ∃ out wait, out ++ wait = t.atoms ∧
      (∀ a ∈ wait, a.isOpening = false ∧ ∀ op : Operator, (∀ o ∈ top, o.Outbinds op) → goesBefore op a = true) ∧
      y.Grows out wait (y.pushAll as)

theorem converts_leaf (text : String) (x : Operand) : Converts [⟨text, .operand x⟩] (.leaf text x) none :=
  fun y _ => ⟨_, [], List.append_nil _, by simp, .operand y text x⟩

theorem converts_constant (text : String) (f : Builtin) : Converts [⟨text, .builtin f⟩] (.call text f []) none := by
  refine fun y _ => ⟨[], _, rfl, fun a ha => ?_, .builtin y text f⟩
  rw [List.mem_singleton.1 ha]
  exact ⟨rfl, fun op _ => goesBefore_builtin op text f⟩

theorem converts_binary {text : String} {op : Operator} {left right : List Atom} {lhs rhs : Tree}
    {l r : Option Operator} (hl : Converts left lhs l) (hr : Converts right rhs r)
    (hleft : ∀ o ∈ l, o.Outbinds op) (hright : ∀ o ∈ r, ¬ op.Outbinds o) :
    Converts (left ++ ⟨text, .operator op⟩ :: right) (.binary text op lhs rhs) (some op) := by
  intro y hy
  -- the left operand, all of which the operator sends out
  obtain ⟨out, wait, hpost, hwait, grows⟩ := hl y fun a ha o ho => goesBefore_of_outbinds (hleft o ho) (hy a ha op rfl)
  have grows := grows.operator text (fun a ha => (hwait a ha).2 op hleft) fun a ha => hy a ha op rfl
  -- the right operand, on top of the operator, which none of it sends out
  obtain ⟨out', wait', hpost', hwait', grows'⟩ := hr _ fun a ha o ho => by
    rw [grows.waiting] at ha
    cases ha
    exact Bool.eq_false_iff.2 fun h => hright o ho ((goesBefore_operator o text op).1 h)
  refine ⟨out ++ wait ++ out', wait' ++ [⟨text, .operator op⟩], ?_, fun a ha => ?_, ?_⟩
  · rw [Tree.atoms, ← hpost, ← hpost']
    simp
  · rcases List.mem_append.1 ha with ha | ha
    · refine ⟨(hwait' a ha).1, fun p hp => (hwait' a ha).2 p fun o ho => ?_⟩
      by_contra hno
      exact Operator.Outbinds.not_trans (hright o ho) hno (hp op rfl)
    · rw [List.mem_singleton.1 ha]
      exact ⟨rfl, fun p hp => (goesBefore_operator p text op).2 (hp op rfl)⟩
  · rw [Yard.pushAll_append]
    exact grows.trans grows'

/-- Behind an opening parenthesis nothing that waited before goes out. -/
theorem Converts.opened {as : List Atom} {t : Tree} {top : Option Operator} (h : Converts as t top) {y : Yard}
    (hy : ∀ a, y.waiting.head? = some a → a.isOpening = true) :
    ∃ out wait, out ++ wait = t.atoms ∧ (∀ a ∈ wait, a.isOpening = false) ∧ y.Grows out wait (y.pushAll as) := by
  obtain ⟨out, wait, hpost, hwait, grows⟩ := h y fun a ha o _ => goesBefore_opening o (hy a ha)
  exact ⟨out, wait, hpost, fun a ha => (hwait a ha).1, grows⟩

/-- What stands closed leaves the parentheses open that were, whatever waits in the yard. -/
theorem Converts.depth {as : List Atom} {t : Tree} (h : Converts as t none) (y : Yard) :
    (y.pushAll as).depth = y.depth := by
  obtain ⟨out, wait, -, -, grows⟩ := h y (by simp)
  exact grows.depth

theorem converts_group {opening closing : String} {as : List Atom} {t : Tree} {top : Option Operator}
    (h : Converts as t top) : Converts (⟨opening, .mark .opening⟩ :: (as ++ [⟨closing, .mark .closing⟩])) t none := by
  intro y _
  obtain ⟨out, wait, hpost, hwait, grows⟩ := h.opened (Yard.Grows.isOpening_head y opening)
  have closed := grows.enclosed closing hwait
  rw [← Yard.pushAll_append_singleton] at closed
  exact ⟨out ++ wait, [], by rw [List.append_nil, hpost], by simp, closed⟩

/-! ## Arguments -/

/-- Behind an opening parenthesis all of the trees go through the yard, up to some atoms that wait on top of
the parenthesis. -/
def ConvertsAll (as : List Atom) (ts : List Tree) : Prop :=
  ∀ y : Yard, (∀ a, y.waiting.head? = some a → a.isOpening = true) → ∃ out wait, out ++ wait = Tree.atomsAll ts ∧
    (∀ a ∈ wait, a.isOpening = false) ∧ y.Grows out wait (y.pushAll as)

theorem Converts.all {as : List Atom} {t : Tree} {top : Option Operator} (h : Converts as t top) :
    ConvertsAll as [t] := by
  intro y hy
  obtain ⟨out, wait, hatoms, hwait, grows⟩ := h.opened hy
  exact ⟨out, wait, by rw [hatoms, Tree.atomsAll, Tree.atomsAll, List.append_nil], hwait, grows⟩

/-- A comma sends out all of the tree before it. -/
theorem Converts.comma (comma : String) {as bs : List Atom} {t : Tree} {us : List Tree} {top : Option Operator}
    (h : Converts as t top) (hs : ConvertsAll bs us) : ConvertsAll (as ++ ⟨comma, .mark .comma⟩ :: bs) (t :: us) := by
  intro y hy
  obtain ⟨out, wait, hatoms, hwait, grows⟩ := h.opened hy
  have grows := grows.comma comma hwait hy
  obtain ⟨out', wait', hatoms', hwait', grows'⟩ := hs _ (by rw [grows.waiting]; exact hy)
  refine ⟨out ++ wait ++ out', wait', ?_, hwait', ?_⟩
  · rw [Tree.atomsAll, ← hatoms, ← hatoms', List.append_assoc]
  · have both := grows.trans grows'
    rw [List.append_nil] at both
    rwa [Yard.pushAll_append]

theorem ConvertsAll.call {as : List Atom} {ts : List Tree} (text opening closing : String) (f : Builtin)
    (h : ConvertsAll as ts) :
    Converts (⟨text, .builtin f⟩ :: ⟨opening, .mark .opening⟩ :: (as ++ [⟨closing, .mark .closing⟩]))
      (.call text f ts) none := by
  intro y _
  obtain ⟨out, wait, hatoms, hwait, grows⟩ := h _ (Yard.Grows.isOpening_head (y.push ⟨text, .builtin f⟩) opening)
  have closed := (Yard.Grows.builtin y text f).trans (grows.enclosed closing hwait)
  rw [← Yard.pushAll_append_singleton] at closed
  refine ⟨out ++ wait, [⟨text, .builtin f⟩], by rw [hatoms, Tree.atoms], fun a ha => ?_, closed⟩
  rw [List.mem_singleton.1 ha]
  exact ⟨rfl, fun op _ => goesBefore_builtin op text f⟩

/-! ## Operands with operators between them -/

/-- The atoms of operands, with those of the operators between them. -/
def weave : List (List Atom) → List Operator → List Atom
  | [], _ => []
  | as :: _, [] => as
  | as :: rows, op :: ops => as ++ op.atom :: weave rows ops

theorem weave_append {rows : List (List Atom)} {left : List Operator} (h : rows.length = left.length + 1)
    (others : List (List Atom)) (op : Operator) (right : List Operator) :
    weave (rows ++ others) (left ++ op :: right) = weave rows left ++ op.atom :: weave others right := by
  induction left generalizing rows with
  | nil =>
    obtain ⟨as, rfl⟩ := List.length_eq_one_iff.1 h
    rfl
  | cons o left ih =>
    obtain ⟨as, rows, rfl⟩ := List.exists_cons_of_length_eq_add_one h
    simp only [List.cons_append, weave, ih (Nat.succ.inj h), List.append_assoc]

/-- Operands with operators between them go through the yard as the tree that these make of them. Its open
operator, if it has one, is one of them. -/
theorem Groups.converts {ops : List Operator} {ts : List Tree} {t : Tree} (h : Groups ops ts t)
    {rows : List (List Atom)} (hr : List.Forall₂ (Converts · · none) rows ts) :
    ∃ top, (∀ o ∈ top, o ∈ ops) ∧ Converts (weave rows ops) t top := by
  induction h generalizing rows with
  | single t =>
    obtain ⟨as, rest, has, -, rfl⟩ := List.forall₂_cons_right_iff.1 hr
    exact ⟨none, by simp, has⟩
  | @binary left right op ts us l r hl _ hleft hright ihl ihr =>
    have hfirst := List.forall₂_take_append rows ts us hr
    have hsecond := List.forall₂_drop_append rows ts us hr
    obtain ⟨topl, hmeml, convertsl⟩ := ihl hfirst
    obtain ⟨topr, hmemr, convertsr⟩ := ihr hsecond
    have split : weave rows (left ++ op :: right) =
        weave (rows.take ts.length) left ++ op.atom :: weave (rows.drop ts.length) right := by
      rw [← weave_append (hfirst.length_eq.trans hl.length), List.take_append_drop]
    refine ⟨some op, by simp, ?_⟩
    rw [split]
    exact converts_binary convertsl convertsr (fun o ho => hleft o (hmeml o ho)) fun o ho => hright o (hmemr o ho)

/-! ## Whole formulas -/

/-- From an empty yard, nothing is left but the atoms of the tree. -/
theorem Converts.atoms_pushAll {as : List Atom} {t : Tree} {top : Option Operator} (h : Converts as t top) :
    (Yard.pushAll {} as).atoms = t.atoms ∧ (Yard.pushAll {} as).depth = 0 := by
  obtain ⟨out, wait, hatoms, -, grows⟩ := h {} (by rintro a ⟨⟩)
  refine ⟨?_, grows.depth⟩
  rw [Yard.atoms, grows.output, grows.waiting, ← hatoms]
  simp

end Formulary
