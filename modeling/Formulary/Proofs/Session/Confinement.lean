/-
How far an evaluation reaches in a session. Its trees share what their names stand for, and with it the
cursors of lists; but beyond what a tree reaches, an evaluation sees nothing and moves nothing.
-/
import Formulary.Proofs.Session.Layout
import Formulary.Proofs.Session.Refusal
import Formulary.Proofs.Forest.Apart

namespace Formulary

open Reading

namespace Reading.Draft

variable {b : Bindings} {d d' : Draft}

theorem bounded_endItem (h : d.forest.Bounded) (hd : d.endItem = some d') : d'.forest.Bounded := by
  obtain ⟨list, others, root, g, -, hfin, rfl⟩ := endItem_eq_some.1 hd
  have grown := Forest.grown_finish hfin
  exact ((h.grown grown.toExtends).evaluate root).truncate list.mark

/-- One token leaves every cursor within its list. -/
theorem bounded_take {token : Token} (h : d.forest.Bounded) (hd : d.take b token = some d') : d'.forest.Bounded := by
  rcases token with ⟨text, _ | _ | op | g | m | _ | _ | _⟩ <;> simp only [Draft.take] at hd
  · cases hd
    exact h
  · obtain ⟨target, -, rfl⟩ := Option.map_eq_some_iff.1 hd
    exact h.rewindLists target
  · cases hd
    exact h
  · cases hd
    exact h
  · cases hd
    exact h
  · cases hd
    exact h
  · exact bounded_endItem h hd
  · obtain ⟨list, others, -, rfl⟩ := endList_eq_some.1 hd
    exact h

/-- Any number of tokens do. -/
theorem bounded_takeAll {tokens : List Token} (h : d.forest.Bounded) (hd : d.takeAll b tokens = some d') :
    d'.forest.Bounded :=
  takeAll_keeps (P := fun d => d.forest.Bounded) bounded_take h hd

end Reading.Draft

namespace Session

variable {s : Session}

/-- One formula, accepted or refused. -/
theorem bounded_parse (h : s.forest.Bounded) (text : String) : (s.parse text).2.forest.Bounded := by
  obtain ⟨d, hd⟩ := s.exists_takeAll text
  have taken : d.forest.Bounded := Draft.bounded_takeAll (d := s.draft) h hd
  cases he : (read s.scope text).error? with
  | some error =>
    rw [parse_of_error hd he]
    exact taken.truncate s.forest.size
  | none =>
    obtain ⟨d', root, g, hd', hfin, hp⟩ := parse_of_ok ((result_parse_iff s text).2 he)
    cases hd.symm.trans hd'
    rw [hp, forest_accept]
    exact taken.grown (Forest.grown_finish hfin).toExtends

/-- In every session that comes about no cursor is past the end of its list. -/
theorem Reachable.bounded (h : s.Reachable) : s.forest.Bounded := by
  induction h with
  | new options => exact .empty
  | parse text _ ih => exact bounded_parse ih text
  | values _ ih =>
    unfold Session.values
    split
    · exact ih
    · exact ih.broadcast _ _
  | evaluate id _ ih => exact ih.evaluate id
  | broadcast id width _ ih => exact ih.broadcast id width
  | rewind id _ ih => exact ih.rewindLists id

/-- Asking for the values of a tree that reaches no list leaves the session as it is. -/
theorem values_still {root : NodeId} (hroot : s.root? = some root) (hg : s.forest.Grounded root)
    (hl : s.forest.lengths root = ∅) : s.values.2 = s := by
  unfold Session.values
  split
  · rfl
  · rename_i root' hroot'
    cases hroot.symm.trans hroot'
    simp only [hg.broadcast_still hl]

/-- For every session that has come about: the evaluation of any of its nodes is confined to what the
node reaches; nodes that reach no list in common can be evaluated in either order; and as long as the
current tree reaches no list, it can be asked for its values any number of times, gives the same ones
and changes nothing. -/
theorem Reachable.confined (h : s.Reachable) :
    (∀ root, root < s.forest.size → s.forest.Confined root) ∧
    (∀ a b, a < s.forest.size → b < s.forest.size → s.forest.Apart a b → s.forest.Commutes a b) ∧
    ∀ root, s.root? = some root → s.forest.lengths root = ∅ → ∀ calls : Nat,
      (fun s => s.values.2)^[calls] s = s ∧ ((fun s => s.values.2)^[calls] s).values.1 = s.values.1 := by
  have laid := h.laid
  refine ⟨fun root hr => (laid.descends.grounded hr).confined_of_bounded h.bounded, fun a b ha hb apart => ?_,
    fun root hroot hl calls => ?_⟩
  · exact apart.commutes (laid.descends.grounded ha) (laid.descends.grounded hb)
  · have current : root ∈ s.trees := Array.mem_of_back? (laid.latest ▸ hroot)
    have still := values_still hroot (laid.descends.grounded (laid.lt_size current)) hl
    have same : (fun s => s.values.2)^[calls] s = s := Function.iterate_fixed still calls
    exact ⟨same, by rw [same]⟩

/-- Two lists and a number. -/
def listsAndNumber : Session :=
  (((((new {}).parse "a=[1,2]").2.parse "b=[3]").2.parse "4").2)

theorem confined_listsAndNumber : listsAndNumber.Reachable ∧ listsAndNumber.forest.Commutes 0 1 ∧
    (fun s => s.values.2)^[3] listsAndNumber = listsAndNumber := by
  have reached : listsAndNumber.Reachable := .parse _ (.parse _ (.parse _ (.new {})))
  have leaf : ∀ id, (listsAndNumber.forest.get? id).map Node.references = some [] → ∀ place,
      listsAndNumber.forest.Reaches id place → place = id := by
    intro id hid place hr
    rcases Relation.ReflTransGen.cases_head hr with same | ⟨next, ⟨node, hn, hnext⟩, -⟩
    · exact same.symm
    · rw [hn] at hid
      rw [Option.some.inj hid] at hnext
      cases hnext
  have first := leaf 0 (by decide +kernel)
  have second := leaf 1 (by decide +kernel)
  have last := leaf 2 (by decide +kernel)
  have size : listsAndNumber.forest.size = 3 := by decide +kernel
  obtain ⟨-, commutes, still⟩ := reached.confined
  refine ⟨reached, commutes 0 1 (by omega) (by omega) fun place ha hb => ?_, (still 2 (by decide +kernel) ?_ 3).1⟩
  · cases (first place ha).symm.trans (second place hb)
  · refine Set.eq_empty_iff_forall_notMem.2 fun n => ?_
    rintro ⟨place, hr, hs⟩
    rw [last place hr] at hs
    revert hs
    have none : listsAndNumber.forest.listSize? 2 = none := by decide +kernel
    rw [none]
    nofun

end Session

end Formulary
