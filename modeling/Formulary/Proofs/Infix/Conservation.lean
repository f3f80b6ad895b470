/-
What becomes of atoms in the yard, whatever atoms they are and whether or not they make a formula.
None of them is lost and none comes twice: operands, operators and functions either have gone out or
still wait, operands go out in the order in which they came, and the only marks that are ever kept
are opening parentheses that have not been closed, whose number is the depth.
-/
import Formulary.Proofs.Infix.Assembly
import Formulary.Proofs.Infix.Pushing
import Mathlib.Data.List.TakeWhile

namespace Formulary

open Infix

/-! ## Parentheses that stay open -/

namespace Infix

/-- Whether the atom is a closing parenthesis. -/
def Atom.isClosing (a : Atom) : Bool :=
  match a.meaning with
  | .mark .closing => true
  | _ => false

/-- A row of atoms closes a parenthesis that was open before it: somewhere in it more have been closed
than opened. -/
def ClosesEarlier (as : List Atom) : Prop :=
  ∃ read ∈ as.inits, read.countP (·.isOpening) < read.countP (·.isClosing)

instance (as : List Atom) : Decidable (ClosesEarlier as) :=
  inferInstanceAs (Decidable (∃ read ∈ as.inits, _))

/-- The opening parentheses of a row that none behind them closes. -/
def leftOpen : List Atom → List Atom
  | [] => []
  | a :: rest => if a.isOpening = true ∧ ¬ ClosesEarlier rest then a :: leftOpen rest else leftOpen rest

/-- How many parentheses that were open before it a row closes. -/
def closers : List Atom → Nat
  | [] => 0
  | a :: rest =>
    if a.isOpening then closers rest - 1
    else if a.isClosing then closers rest + 1
    else closers rest

namespace Atom

variable {a : Atom}

theorem meaning_of_isOpening (h : a.isOpening = true) : a.meaning = .mark .opening := by
  unfold isOpening at h
  split at h
  · assumption
  · cases h

theorem isClosing_of_isOpening (h : a.isOpening = true) : a.isClosing = false := by
  rw [isClosing, meaning_of_isOpening h]

theorem isMark_of_isOpening (h : a.isOpening = true) : a.isMark = true := by
  rw [isMark, meaning_of_isOpening h]

theorem isOperand_of_isOpening (h : a.isOpening = true) : a.isOperand = false := by
  rw [isOperand, meaning_of_isOpening h]

end Atom

/-- A row closes as many as it has, in some place, closed more than opened. -/
theorem closers_le_iff {as : List Atom} {n : Nat} : closers as ≤ n ↔
    ∀ read, read <+: as → read.countP (·.isClosing) ≤ read.countP (·.isOpening) + n := by
  induction as generalizing n with
  | nil => simp [closers]
  | cons a rest ih =>
    -- a beginning of the row is empty or goes on behind its first atom
    have beginnings : (∀ read, read <+: a :: rest → read.countP (·.isClosing) ≤ read.countP (·.isOpening) + n) ↔
        ∀ read, read <+: rest → (a :: read).countP (·.isClosing) ≤ (a :: read).countP (·.isOpening) + n := by
      constructor
      · exact fun h read hread => h _ ((List.prefix_cons_inj a).2 hread)
      · intro h read hread
        rcases List.prefix_cons_iff.1 hread with rfl | ⟨more, rfl, hmore⟩
        · exact Nat.zero_le _
        · exact h more hmore
    rw [beginnings]
    unfold closers
    simp only [List.countP_cons]
    split
    · rename_i ho
      rw [Nat.sub_le_iff_le_add, ih]
      simp [Atom.isClosing_of_isOpening ho, Nat.add_assoc, Nat.add_comm 1]
    · split
      · constructor
        · intro h read hread
          have := ih.1 (Nat.le_sub_one_of_lt h) read hread
          omega
        · intro h
          have first := h [] List.nil_prefix
          have others : closers rest ≤ n - 1 := ih.2 fun read hread => by
            have := h read hread
            omega
          simp only [List.countP_nil] at first
          omega
      · exact ih

theorem closesEarlier_iff {as : List Atom} : ClosesEarlier as ↔ closers as ≠ 0 := by
  rw [Ne, ← Nat.le_zero, closers_le_iff]
  simp [ClosesEarlier, List.mem_inits]

namespace Yard

variable {y : Yard}

/-! ## One atom -/

/-- The opening parentheses that wait, the latest first. -/
def openings (y : Yard) : List Atom :=
  y.waiting.filter (·.isOpening)

/-- What every atom leaves in order: the depth counts the opening parentheses that wait, beside which
only operators and functions do, and no mark has gone out. -/
structure Orderly (y : Yard) : Prop where
  depth : y.depth = y.openings.length
  output : ∀ a ∈ y.output.toList, a.isMark = false
  waiting : ∀ a ∈ y.waiting, a.isOperand = false ∧ (a.isMark = true → a.isOpening = true)

theorem orderly_empty : Orderly {} :=
  ⟨rfl, by simp, by simp⟩

/-- What is not an opening parenthesis goes out without a change to those that wait. -/
theorem openings_release {test : Atom → Bool} (h : ∀ a, test a = true → a.isOpening = false) :
    (y.release test).openings = y.openings := by
  have gone : (y.waiting.takeWhile test).filter (·.isOpening) = [] :=
    List.filter_eq_nil_iff.2 fun a ha => by simp [h a (List.mem_takeWhile_imp ha)]
  have split := List.filter_append (p := (·.isOpening)) (y.waiting.takeWhile test) (y.waiting.dropWhile test)
  rw [gone, List.nil_append, List.takeWhile_append_dropWhile] at split
  exact split.symm

theorem isOpening_of_goesBefore {op : Operator} {a : Atom} (h : goesBefore op a = true) : a.isOpening = false := by
  by_contra ho
  rw [goesBefore_opening op (by simpa using ho)] at h
  cases h

/-- Below what a closing parenthesis sends out waits the opening one that it takes away, if there is
one at all. -/
theorem waiting_release_isOpening (y : Yard) : (y.release (!·.isOpening)).waiting = [] ∨
    ∃ a rest, (y.release (!·.isOpening)).waiting = a :: rest ∧ a.isOpening = true := by
  have stop := List.head?_dropWhile_not (!·.isOpening) y.waiting
  show y.waiting.dropWhile (!·.isOpening) = [] ∨ ∃ a rest, y.waiting.dropWhile (!·.isOpening) = a :: rest ∧ _
  cases h : y.waiting.dropWhile (!·.isOpening) with
  | nil => exact .inl rfl
  | cons a rest =>
    rw [h] at stop
    exact .inr ⟨a, rest, rfl, by simpa using stop⟩

/-- An opening parenthesis waits on top of the others, and a closing one takes the topmost away. -/
theorem openings_push (y : Yard) (a : Atom) : (y.push a).openings =
    if a.isOpening then a :: y.openings else if a.isClosing then y.openings.tail else y.openings := by
  rcases a with ⟨text, x | op | f | (_ | _ | _)⟩
  · rfl
  · exact openings_release fun a => isOpening_of_goesBefore
  · rfl
  · exact openings_release (by simp)
  · rfl
  · have same : (y.release (!·.isOpening)).openings = y.openings := openings_release (by simp)
    show (y.release (!·.isOpening)).waiting.tail.filter (·.isOpening) = y.openings.tail
    rw [← same]
    unfold openings
    rcases y.waiting_release_isOpening with h | ⟨a, rest, h, ha⟩
    · rw [h]
      rfl
    · rw [h, List.filter_cons_of_pos ha]
      rfl

theorem depth_push (y : Yard) (a : Atom) : (y.push a).depth =
    if a.isOpening then y.depth + 1 else if a.isClosing then y.depth - 1 else y.depth := by
  rcases a with ⟨text, x | op | f | (_ | _ | _)⟩ <;> rfl

/-- A waiting atom that goes out is an operator or a function. -/
theorem Orderly.release {test : Atom → Bool} (h : y.Orderly) (ht : ∀ a, test a = true → a.isOpening = false) :
    (y.release test).Orderly where
  depth := by
    rw [openings_release ht]
    exact h.depth
  output a ha := by
    unfold Yard.release at ha
    rw [toList_foldl_push] at ha
    rcases List.mem_append.1 ha with ha | ha
    · exact h.output a ha
    · have hwait := (h.waiting a ((List.takeWhile_sublist test).mem ha)).2
      have hopen := ht a (List.mem_takeWhile_imp ha)
      by_contra hm
      rw [hwait (by simpa using hm)] at hopen
      cases hopen
  waiting a ha := h.waiting a ((List.dropWhile_sublist test).mem ha)

theorem Orderly.hold {a : Atom} (h : y.Orderly) (hx : a.isOperand = false) (hm : a.isMark = false) :
    (y.hold a).Orderly where
  depth := by
    have ho : ¬ a.isOpening = true := fun ho => by simp [Atom.isMark_of_isOpening ho] at hm
    rw [openings, Yard.hold, List.filter_cons_of_neg ho]
    exact h.depth
  output := h.output
  waiting := List.forall_mem_cons.2 ⟨⟨hx, fun h => by rw [hm] at h; cases h⟩, h.waiting⟩

/-- Every atom leaves the yard in order. -/
theorem Orderly.push (h : y.Orderly) (a : Atom) : (y.push a).Orderly := by
  have ended : (y.release (!·.isOpening)).Orderly := h.release (by simp)
  rcases a with ⟨text, x | op | f | (_ | _ | _)⟩
  · refine ⟨h.depth, fun a ha => ?_, h.waiting⟩
    rw [show (y.push ⟨text, .operand x⟩).output = y.output.push ⟨text, .operand x⟩ from rfl, Array.toList_push] at ha
    rcases List.mem_append.1 ha with ha | ha
    · exact h.output a ha
    · rw [List.mem_singleton.1 ha]
      rfl
  · exact (h.release fun a => isOpening_of_goesBefore).hold rfl rfl
  · exact h.hold rfl rfl
  · exact ended
  · refine ⟨?_, h.output, List.forall_mem_cons.2 ⟨⟨rfl, fun _ => rfl⟩, h.waiting⟩⟩
    rw [depth_push, openings_push]
    exact congrArg (· + 1) h.depth
  · refine ⟨?_, ended.output, fun a ha => ended.waiting a (List.mem_of_mem_tail ha)⟩
    rw [depth_push, openings_push]
    show y.depth - 1 = y.openings.tail.length
    rw [List.length_tail, h.depth]

/-- The row of a yard without the opening parenthesis that a closing one takes away. -/
theorem filter_push_closing {test : Atom → Bool} (ht : ∀ a, a.isOpening = true → test a = false) (y : Yard)
    (text : String) : (y.push ⟨text, .mark .closing⟩).atoms.filter test = y.atoms.filter test := by
  rw [← atoms_release y (!·.isOpening)]
  show ((y.release (!·.isOpening)).output.toList ++ (y.release (!·.isOpening)).waiting.tail).filter test = _
  unfold atoms
  rcases y.waiting_release_isOpening with h | ⟨a, rest, h, ha⟩
  · rw [h, List.tail_nil]
  · rw [h, List.tail_cons, List.filter_append, List.filter_append, List.filter_cons_of_neg (by simp [ht a ha])]

/-- An atom that is no mark is kept, and those that were kept before still are. -/
theorem kept_push (y : Yard) (a : Atom) :
    ((y.push a).atoms.filter (!·.isMark)).Perm (y.atoms.filter (!·.isMark) ++ [a].filter (!·.isMark)) := by
  have held : ∀ z : Yard, z.atoms = y.atoms →
      ((z.hold a).atoms.filter (!·.isMark)).Perm (y.atoms.filter (!·.isMark) ++ [a].filter (!·.isMark)) := by
    intro z hz
    rw [← List.filter_append, ← hz]
    unfold atoms hold
    rw [List.append_assoc]
    exact ((List.perm_append_singleton a z.waiting).symm.append_left _).filter _
  rcases a with ⟨text, x | op | f | (_ | _ | _)⟩
  · rw [← List.filter_append]
    unfold atoms push
    rw [Array.toList_push, List.append_assoc, List.append_assoc]
    exact (List.perm_append_comm.append_left _).filter _
  · exact held _ (atoms_release ..)
  · exact held y rfl
  · show ((y.release (!·.isOpening)).atoms.filter (!·.isMark)).Perm _
    rw [atoms_release]
    exact .of_eq (List.append_nil _).symm
  · exact held y rfl
  · rw [filter_push_closing fun a ha => by simp [Atom.isMark_of_isOpening ha]]
    exact .of_eq (List.append_nil _).symm

/-- Operands go out behind those that came before them. -/
theorem Orderly.operands_push (h : y.Orderly) (a : Atom) :
    (y.push a).atoms.filter (·.isOperand) = y.atoms.filter (·.isOperand) ++ [a].filter (·.isOperand) := by
  have waiting : y.waiting.filter (·.isOperand) = [] :=
    List.filter_eq_nil_iff.2 fun a ha => by simp [(h.waiting a ha).1]
  have held : ∀ z : Yard, z.atoms = y.atoms → a.isOperand = false →
      (z.hold a).atoms.filter (·.isOperand) = y.atoms.filter (·.isOperand) ++ [a].filter (·.isOperand) := by
    intro z hz ha
    rw [← hz]
    simp [atoms, Yard.hold, ha]
  rcases a with ⟨text, x | op | f | (_ | _ | _)⟩
  · unfold atoms Yard.push
    rw [Array.toList_push, List.filter_append, List.filter_append, List.filter_append, waiting, List.append_nil,
      List.append_nil]
  · exact held _ (atoms_release ..) rfl
  · exact held y rfl rfl
  · show (y.release (!·.isOpening)).atoms.filter (·.isOperand) = _
    rw [atoms_release]
    exact (List.append_nil _).symm
  · exact held y rfl rfl
  · rw [filter_push_closing fun a ha => Atom.isOperand_of_isOpening ha]
    exact (List.append_nil _).symm

/-! ## Any number of atoms -/

theorem Orderly.pushAll (h : y.Orderly) (as : List Atom) : (y.pushAll as).Orderly := by
  induction as generalizing y with
  | nil => exact h
  | cons a as ih => exact ih (h.push a)

theorem kept_pushAll (y : Yard) (as : List Atom) :
    ((y.pushAll as).atoms.filter (!·.isMark)).Perm (y.atoms.filter (!·.isMark) ++ as.filter (!·.isMark)) := by
  induction as generalizing y with
  | nil => rw [List.filter_nil, List.append_nil, pushAll, List.foldl_nil]
  | cons a as ih =>
    refine (ih (y.push a)).trans ?_
    rw [show a :: as = [a] ++ as from rfl, List.filter_append, ← List.append_assoc]
    exact (kept_push y a).append_right _

theorem Orderly.operands_pushAll (h : y.Orderly) (as : List Atom) :
    (y.pushAll as).atoms.filter (·.isOperand) = y.atoms.filter (·.isOperand) ++ as.filter (·.isOperand) := by
  induction as generalizing y with
  | nil => rw [List.filter_nil, List.append_nil, Yard.pushAll, List.foldl_nil]
  | cons a as ih =>
    refine (ih (h.push a)).trans ?_
    rw [h.operands_push, List.append_assoc, ← List.filter_append]
    rfl

/-- Of the parentheses that waited before, the atoms take as many away as they close, and on top of the
others wait those of their own that stay open. -/
theorem openings_pushAll (y : Yard) (as : List Atom) :
    (y.pushAll as).openings = (leftOpen as).reverse ++ y.openings.drop (closers as) := by
  induction as generalizing y with
  | nil => rfl
  | cons a as ih =>
    refine (ih (y.push a)).trans ?_
    simp only [openings_push, leftOpen, closers, closesEarlier_iff, not_not]
    split
    · rename_i ho
      -- an opening parenthesis waits for the first of those that the others close
      cases hn : closers as with
      | zero => simp [ho]
      | succ n => simp [ho]
    · rename_i ho
      split
      · simp [ho]
      · simp [ho]

example : (pushAll {} [⟨"(1", .mark .opening⟩, ⟨"(2", .mark .opening⟩, Mark.closing.atom]).openings.map (·.text) =
    ["(1"] := rfl

/-- The marks that a yard in order still has are the opening parentheses that wait. -/
theorem Orderly.filter_isMark (h : y.Orderly) : y.atoms.filter (·.isMark) = y.openings := by
  have gone : y.output.toList.filter (·.isMark) = [] := List.filter_eq_nil_iff.2 fun a ha => by simp [h.output a ha]
  have same : ∀ a ∈ y.waiting, a.isMark = a.isOpening := by
    intro a ha
    rw [Bool.eq_iff_iff]
    exact ⟨(h.waiting a ha).2, Atom.isMark_of_isOpening⟩
  rw [atoms, List.filter_append, gone, List.nil_append, List.filter_congr same]
  rfl

/-- Whatever atoms a fresh yard takes: at any time the depth is the number of opening parentheses that
wait, and operands, operators and functions are all there, each as often as it came. In the end they
are in the row of the yard, the operands in the order in which they came, and beside them only the
opening parentheses that no later one has closed. So if the depth does not forbid to finish, it is
atoms without any mark among them that are put together. -/
theorem conserves (as : List Atom) :
    (∀ sofar, sofar <+: as →
      (pushAll {} sofar).depth = (pushAll {} sofar).waiting.countP (·.isOpening) ∧
      (((pushAll {} sofar).output.toList ++ (pushAll {} sofar).waiting).filter (!·.isMark)).Perm
        (sofar.filter (!·.isMark))) ∧
    (pushAll {} as).atoms.Perm (as.filter (!·.isMark) ++ leftOpen as) ∧
    (pushAll {} as).atoms.filter (·.isOperand) = as.filter (·.isOperand) ∧
    ((pushAll {} as).depth = 0 → (∀ a ∈ (pushAll {} as).atoms, a.isMark = false) ∧
      ∀ f : Forest, (pushAll {} as).finish f = f.assemble [] (pushAll {} as).atoms) := by
  have orderly : ∀ as, (pushAll {} as).Orderly := orderly_empty.pushAll
  have marks : (pushAll {} as).atoms.filter (·.isMark) = (leftOpen as).reverse := by
    rw [(orderly as).filter_isMark, openings_pushAll]
    exact (congrArg _ List.drop_nil).trans (List.append_nil _)
  have operands := orderly_empty.operands_pushAll as
  refine ⟨fun sofar _ => ⟨?_, kept_pushAll {} sofar⟩, ?_, operands, fun hd => ⟨?_, fun f => ?_⟩⟩
  · rw [(orderly sofar).depth, List.countP_eq_length_filter]
    rfl
  · have parts := List.filter_append_perm (!·.isMark) (pushAll {} as).atoms
    simp only [Bool.not_not, marks] at parts
    exact parts.symm.trans ((kept_pushAll {} as).append (List.reverse_perm _))
  · have gone : (pushAll {} as).atoms.filter (·.isMark) = [] := by
      rw [(orderly as).filter_isMark]
      exact List.length_eq_zero_iff.1 ((orderly as).depth.symm.trans hd)
    simpa using List.filter_eq_nil_iff.1 gone
  · exact if_pos hd

/-- Atoms that make no formula: `) + (8, * (2)) sqrt 3`. -/
def scrambled : List Atom :=
  [Mark.closing.atom, Operator.plus.atom, Mark.opening.atom, ⟨"8", .operand (.number 8)⟩, Mark.comma.atom,
    Operator.times.atom, Mark.opening.atom, ⟨"2", .operand (.number 2)⟩, Mark.closing.atom, Mark.closing.atom,
    Builtin.sqrt.atom, ⟨"3", .operand (.number 3)⟩]

theorem conserves_scrambled : (pushAll {} scrambled).depth = 0 ∧
    (pushAll {} scrambled).atoms.Perm (scrambled.filter (!·.isMark)) ∧
    ∀ a ∈ (pushAll {} scrambled).atoms, a.isMark = false := by
  obtain ⟨sofar, listed, -, finished⟩ := conserves scrambled
  have closed : leftOpen scrambled = [] := rfl
  have depth : (pushAll {} scrambled).depth = 0 := (sofar scrambled (List.prefix_refl _)).1.trans rfl
  rw [closed, List.append_nil] at listed
  exact ⟨depth, listed, (finished depth).1⟩

end Yard

end Infix

end Formulary
