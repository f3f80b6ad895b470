/-
What goes through the yard. Letting atoms go out only moves them from the waiting ones to those gone
out, so that a yard never holds an atom that was not pushed.
-/
import Formulary.Infix.Yard
import Mathlib.Tactic

namespace Formulary.Infix.Yard

theorem toList_foldl_push {α : Type} (xs : List α) (ys : Array α) :
    (xs.foldl Array.push ys).toList = ys.toList ++ xs := by
  induction xs generalizing ys with
  | nil => simp
  | cons x xs ih => rw [List.foldl_cons, ih, Array.toList_push, List.append_assoc, List.singleton_append]

theorem atoms_release (y : Yard) (test : Atom → Bool) : (y.release test).atoms = y.atoms := by
  unfold atoms release
  rw [toList_foldl_push, List.append_assoc, List.takeWhile_append_dropWhile]

/-- No atom comes from nowhere. -/
theorem mem_atoms_push {y : Yard} {a b : Atom} (h : b ∈ (y.push a).atoms) : b ∈ y.atoms ∨ b = a := by
  have held : ∀ {z : Yard}, b ∈ (z.hold a).atoms → b ∈ z.atoms ∨ b = a := by
    intro z hb
    simp only [atoms, hold, List.mem_append, List.mem_cons] at hb ⊢
    tauto
  rcases a with ⟨text, operand | op | g | (_ | _ | _)⟩ <;> simp only [push] at h
  · simp only [atoms, Array.toList_push, List.mem_append, List.mem_singleton] at h ⊢
    tauto
  · have := held h
    rwa [atoms_release] at this
  · exact held h
  · rw [atoms_release] at h
    exact .inl h
  · exact held h
  · left
    rw [← atoms_release y (!·.isOpening)]
    simp only [atoms, List.mem_append] at h ⊢
    exact h.imp_right fun ht => List.mem_of_mem_tail ht

end Formulary.Infix.Yard
