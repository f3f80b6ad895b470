/-
What comes of a reader: one condition for the state in which it ends well, another for the state in
which it fails. The conditions of a sequence of steps are found by going through the steps, one rule
for each kind of step.
-/
import Formulary.Proofs.Reading.Reader
import Mathlib.Tactic

namespace Formulary.Reading

open Text

/-- Run from a state, a reader ends well in a state that is `good`, or fails in one that is `bad`. -/
def Ends {α : Type} (r : Reader α) (s : State) (good : α → State → Prop) (bad : ReadError → State → Prop) : Prop :=
  match r s with
  | .ok a s' => good a s'
  | .error e s' => bad e s'

section Rules

variable {α β : Type} {s : State} {good : α → State → Prop} {bad : ReadError → State → Prop}

theorem Ends.mono {r : Reader α} {good' : α → State → Prop} {bad' : ReadError → State → Prop} (h : Ends r s good bad)
    (hgood : ∀ a s', good a s' → good' a s') (hbad : ∀ e s', bad e s' → bad' e s') : Ends r s good' bad' := by
  unfold Ends at h ⊢
  split at h
  · exact hgood _ _ h
  · exact hbad _ _ h

theorem Ends.and {r : Reader α} {good' : α → State → Prop} {bad' : ReadError → State → Prop} (h : Ends r s good bad)
    (h' : Ends r s good' bad') : Ends r s (fun a s' => good a s' ∧ good' a s') fun e s' => bad e s' ∧ bad' e s' := by
  unfold Ends at h h' ⊢
  cases hr : r s with
  | ok a s' =>
    rw [hr] at h h'
    exact ⟨h, h'⟩
  | error e s' =>
    rw [hr] at h h'
    exact ⟨h, h'⟩

/-- What holds of an end for each of some things, holds of it for all of them. -/
theorem Ends.all {ι : Type} {r : Reader α} {claim : ι → Prop} {good : ι → α → State → Prop}
    {bad : ι → ReadError → State → Prop} (h : ∀ i, claim i → Ends r s (good i) (bad i)) :
    Ends r s (fun a s' => ∀ i, claim i → good i a s') fun e s' => ∀ i, claim i → bad i e s' := by
  unfold Ends at h ⊢
  split
  · rename_i hr
    rw [hr] at h
    exact h
  · rename_i hr
    rw [hr] at h
    exact h

/-- A reader that has ended well has ended in a state that is good. -/
theorem Ends.ok {r : Reader α} {a : α} {s' : State} (h : Ends r s good bad) (hr : r s = .ok a s') : good a s' := by
  unfold Ends at h
  rwa [hr] at h

/-- What holds however a reader ends, holds. -/
theorem Ends.const {r : Reader α} {claim : Prop} (h : Ends r s good bad) (hgood : ∀ a s', good a s' → claim)
    (hbad : ∀ e s', bad e s' → claim) : claim := by
  unfold Ends at h
  split at h
  · exact hgood _ _ h
  · exact hbad _ _ h

@[simp] theorem ends_pure (a : α) : Ends (pure a) s good bad ↔ good a s := Iff.rfl

@[simp] theorem ends_bind (r : Reader β) (k : β → Reader α) :
    Ends (r >>= k) s good bad ↔ Ends r s (fun b s' => Ends (k b) s' good bad) bad := by
  unfold Ends
  show (match EStateM.bind r k s with | .ok a s' => good a s' | .error e s' => bad e s') ↔ _
  unfold EStateM.bind
  cases r s <;> rfl

@[simp] theorem ends_fail (fault : Fault) :
    Ends (fail fault : Reader α) s good bad ↔ bad (s.cursor.error fault) s := Iff.rfl

@[simp] theorem ends_look {view : Cursor → α} : Ends (look view) s good bad ↔ good (view s.cursor) s := Iff.rfl

@[simp] theorem ends_get {good : State → State → Prop} : Ends get s good bad ↔ good s s := Iff.rfl

@[simp] theorem ends_ite (c : Prop) [Decidable c] (r r' : Reader α) :
    Ends (if c then r else r') s good bad ↔ if c then Ends r s good bad else Ends r' s good bad := by
  split <;> rfl

variable {good : Unit → State → Prop}

@[simp] theorem ends_require {condition : Cursor → Bool} {fault : Fault} : Ends (require condition fault) s good bad ↔
    if condition s.cursor then good () s else bad (s.cursor.error fault) s := by
  by_cases h : condition s.cursor = true <;> simp [Ends, require, h]

@[simp] theorem ends_move {step : Cursor → Cursor} :
    Ends (move step) s good bad ↔ good () { s with cursor := step s.cursor } := Iff.rfl

@[simp] theorem ends_emit {kind : TokenKind} : Ends (emit kind) s good bad ↔
    good () { s with cursor := { s.cursor with lexeme := "" }, tokens := ⟨s.cursor.lexeme, kind⟩ :: s.tokens } :=
  Iff.rfl

@[simp] theorem ends_note {kind : TokenKind} :
    Ends (note kind) s good bad ↔ good () { s with tokens := ⟨"", kind⟩ :: s.tokens } := Iff.rfl

@[simp] theorem ends_enter {limit : Nat} {bracket : Bracket} : Ends (enter limit bracket) s good bad ↔
    if s.brackets.length < limit then good () { s with brackets := bracket :: s.brackets }
    else bad (s.cursor.error (.nestingTooDeep limit)) s := by
  by_cases h : s.brackets.length < limit <;> simp [Ends, enter, h]

@[simp] theorem ends_leave : Ends leave s good bad ↔ good () { s with brackets := s.brackets.tail } := Iff.rfl

end Rules

end Formulary.Reading
