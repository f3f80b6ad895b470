/-
The width of a session. A text that is accepted is a single formula, and it makes the session just as
wide as what is written in it demands: the number of items of a list literal, wherever it stands, or
the length of the longest list that a name in it reached before. No list that its tree reaches is
longer than that.
-/
import Formulary.Proofs.Reading.Unambiguous
import Formulary.Proofs.Reading.Width
import Formulary.Proofs.Session.Recall
import Formulary.Proofs.Forest.Search

namespace Formulary.Session

open Reading Text

/-- The lengths that a formula demands: for each list literal in it, also inside of others, the number
of its items, and for each name the length of the longest list that its tree reaches. -/
def demands (s : Session) (φ : Formula) : Set Nat :=
  {n | ∃ items ∈ φ.body.literals, n = items.itemCount} ∪
    {n | ∃ name ∈ φ.body.names, ∃ target, s.bindings.lookup name = some target ∧
      IsGreatest (insert 0 (s.forest.lengths target)) n}

variable {s : Session} {text : String}

theorem longestOf_le_iff (s : Session) {φ : Formula} (hb : ∀ name ∈ φ.body.names, s.scope.binds name = true)
    (n : Nat) : φ.body.width (longestOf s.bindings s.forest) ≤ n ↔ ∀ size ∈ s.demands φ, size ≤ n := by
  have longest : ∀ target, IsGreatest (insert 0 (s.forest.lengths target)) (s.forest.rewindLists target).1 :=
    fun target => Forest.isGreatest_of_le_iff (Forest.longest_le_iff s.forest target)
  rw [Phrase.width_le_iff]
  constructor
  · rintro ⟨hitems, hnames⟩ size (⟨items, hi, rfl⟩ | ⟨name, hn, target, hl, hsize⟩)
    · exact hitems items hi
    · have := hnames name hn
      rwa [longestOf, hl, Option.elim_some, (longest target).unique hsize] at this
  · intro h
    refine ⟨fun items hi => h _ (.inl ⟨items, hi, rfl⟩), fun name hn => ?_⟩
    obtain ⟨target, hl⟩ := Option.isSome_iff_exists.1 (hb name hn)
    rw [longestOf, hl]
    exact h _ (.inr ⟨name, hn, target, hl, longest target⟩)

/-- What the width of a session is after a formula: the greatest length that the formula demands, and
zero if it demands none. -/
structure Measured (s : Session) (text : String) (φ : Formula) (root : NodeId) (s' : Session) : Prop where
  spells : φ.Spells text.toList
  only : ∀ ψ : Formula, ψ.Spells text.toList → ψ = φ
  exact : IsGreatest (insert 0 (s.demands φ)) s'.width
  current : s'.root? = some root
  covers : ∀ size ∈ s'.forest.lengths root, size ≤ s'.width

/-- In any session, whatever text is accepted. -/
theorem Reachable.measured (h : s.Reachable) (hok : (s.parse text).1.result = .ok ()) :
    ∃ φ root, s.Measured text φ root (s.parse text).2 := by
  obtain ⟨φ, spells, admitted, -, htokens⟩ := read_sound ((result_parse_iff s text).1 hok)
  obtain ⟨d, root, g, hd, hfin, hp⟩ := parse_of_ok hok
  have current : (s.parse text).2.root? = some root := by rw [hp, root?_accept]
  have width : (s.parse text).2.width = φ.body.width (longestOf s.bindings s.forest) := by
    rw [hp, width_accept]
    exact Draft.width_takeAll φ.body (htokens ▸ hd)
  refine ⟨φ, root, spells, fun ψ hψ => spells.unique hψ, ?_, current, ?_⟩
  · rw [width]
    exact Forest.isGreatest_of_le_iff (longestOf_le_iff s admitted.bound)
  · exact (Forest.longest_le_iff _ _ _).1 (h.longest_le_width hok current)

/-- A list inside of a list beside an old one: the longest of them is the one inside. -/
theorem measured_listBound : listBound.Reachable ∧ (listBound.parse "a+[[1,2,3]]").1.result = .ok () ∧
    (∃ φ root, listBound.Measured "a+[[1,2,3]]" φ root (listBound.parse "a+[[1,2,3]]").2) ∧
    (listBound.parse "a+[[1,2,3]]").2.width = 3 := by
  have reached : listBound.Reachable := .parse _ (.new {})
  have hok : (listBound.parse "a+[[1,2,3]]").1.result = .ok () := by
    rw [result_parse_iff, scope_listBound]
    decide +kernel
  exact ⟨reached, hok, reached.measured hok, by decide +kernel⟩

end Formulary.Session
