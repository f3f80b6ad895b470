/-
How the width of a formula bounds its lists. While a formula is read, its width covers whatever is
at hand: the items of every list that has been completed, and the longest list that a variable
reaches. So no list of the finished tree is longer than the formula is wide.
-/
import Formulary.Proofs.Reading.Frame

namespace Formulary

open Infix

/-- The length of the longest list that an atom brings into a tree: of the list itself, or of those
that a variable reaches. -/
def Infix.Atom.breadth (f : Forest) (a : Atom) : Nat :=
  match a.meaning with
  | .operand (.list items) => items.size
  | .operand (.variable _ target) => (f.rewindLists target).1
  | _ => 0

theorem Infix.Atom.breadth_of_target? {f : Forest} {a : Atom} {target : NodeId} (h : a.target? = some target) :
    a.breadth f = (f.rewindLists target).1 := by
  rcases a with ⟨text, (x | ⟨name, place⟩ | items) | op | g | m⟩ <;> cases h
  rfl

/-- All atoms of a yard are covered by a width. -/
def Infix.Yard.Covered (f : Forest) (y : Yard) (width : Nat) : Prop :=
  ∀ a ∈ y.atoms, a.breadth f ≤ width

namespace Infix.Yard.Covered

variable {f : Forest} {y : Yard} {width more : Nat}

theorem empty (f : Forest) (width : Nat) : ({} : Yard).Covered f width := by
  intro a ha
  simp [Yard.atoms] at ha

theorem widen (h : y.Covered f width) (hle : width ≤ more) : y.Covered f more :=
  fun a ha => (h a ha).trans hle

theorem push (h : y.Covered f width) {a : Atom} (ha : a.breadth f ≤ width) : (y.push a).Covered f width := by
  intro c hc
  rcases Yard.mem_atoms_push hc with hc | rfl
  · exact h c hc
  · exact ha

end Infix.Yard.Covered

namespace Reading.Draft

/-- The width of a draft covers the atoms at hand and all that rest around open lists. -/
structure Wide (b : Bindings) (f : Forest) (d : Draft) : Prop extends d.Over b f where
  covered : d.yard.Covered f d.width
  resting : ∀ list ∈ d.lists, list.outer.Covered f d.width

namespace Wide

variable {b : Bindings} {f : Forest} {d d' : Draft}

theorem start (b : Bindings) (f : Forest) : Wide b f { forest := f } where
  toOver := .start b f
  covered := .empty f 0
  resting := by simp

theorem add (h : d.Wide b f) {text : String} {meaning : Meaning}
    (hm : Infix.Atom.target? ⟨text, meaning⟩ = none) (hw : Infix.Atom.breadth f ⟨text, meaning⟩ ≤ d.width) :
    (d.add text meaning).Wide b f where
  toOver := h.toOver.add (by simp [hm])
  covered := h.covered.push hw
  resting := h.resting

theorem addVariable (h : d.Wide b f) {name : String} {target : NodeId} (ht : b.lookup name = some target) :
    (d.addVariable name target).Wide b f where
  toOver := h.toOver.addVariable ht
  covered := by
    refine (h.covered.widen (Nat.le_max_left ..)).push ?_
    show (f.rewindLists target).1 ≤ max d.width (d.forest.rewindLists target).1
    rw [← Forest.longest_congr h.nodes]
    exact Nat.le_max_right ..
  resting list hl := (h.resting list hl).widen (Nat.le_max_left ..)

theorem beginList (h : d.Wide b f) : d.beginList.Wide b f where
  toOver := h.toOver.beginList
  covered := .empty f d.width
  resting := by simpa [Draft.beginList] using ⟨h.covered, h.resting⟩

theorem endItem (h : d.Wide b f) (hd : d.endItem = some d') : d'.Wide b f := by
  have kept := h.toOver.endItem hd
  obtain ⟨list, others, root, g, hl, hfin, rfl⟩ := endItem_eq_some.1 hd
  have resting := h.resting
  rw [hl] at resting
  exact ⟨kept, .empty f d.width, by simpa using resting⟩

theorem endList (h : d.Wide b f) {text : String} (hd : d.endList text = some d') : d'.Wide b f := by
  have kept := h.toOver.endList hd
  obtain ⟨list, others, hl, rfl⟩ := endList_eq_some.1 hd
  have resting := h.resting
  rw [hl] at resting
  refine ⟨kept, ?_, fun l hm => ?_⟩
  · exact ((resting list (List.mem_cons_self ..)).widen (Nat.le_max_left ..)).push (Nat.le_max_right ..)
  · exact (resting l (List.mem_cons_of_mem _ hm)).widen (Nat.le_max_left ..)

/-- One token. -/
theorem take (h : d.Wide b f) {token : Token} (hd : d.take b token = some d') : d'.Wide b f := by
  rcases token with ⟨text, _ | _ | op | g | m | _ | _ | _⟩ <;> simp only [Draft.take] at hd
  · cases hd
    exact h.add rfl (Nat.zero_le _)
  · obtain ⟨target, ht, rfl⟩ := Option.map_eq_some_iff.1 hd
    exact h.addVariable ht
  · cases hd
    exact h.add rfl (Nat.zero_le _)
  · cases hd
    exact h.add rfl (Nat.zero_le _)
  · cases hd
    exact h.add rfl (Nat.zero_le _)
  · cases hd
    exact h.beginList
  · exact h.endItem hd
  · exact h.endList hd

/-- Any number of tokens. -/
theorem takeAll {tokens : List Token} (h : d.Wide b f) (hd : d.takeAll b tokens = some d') : d'.Wide b f :=
  takeAll_keeps (fun h hd => h.take hd) h hd

/-- No list that a finished tree reaches is longer than its draft is wide. An old list is reached
through a variable at hand, and a new one was at hand itself. -/
theorem longest_le (h : d.Wide b f) (hf : f.Descends)
    (hb : ∀ name target, b.lookup name = some target → target < f.size) {root : NodeId} {g : Forest}
    (hfin : d.yard.finish d.forest = (some root, g)) : (g.rewindLists root).1 ≤ d.width := by
  have grown := Forest.grown_finish hfin
  rw [Forest.rewindLists_le_iff]
  intro place hplace size hs
  obtain ⟨-, hr⟩ := (Forest.mem_reachable g root place).1 hplace
  by_cases old : place < d.forest.size
  · have isList : (g.listSize? place).isSome := by rw [hs]; rfl
    obtain ⟨a, ha, target, ht, hmem, -⟩ := Infix.Yard.refers_of_finish (hf.congr h.nodes.symm)
      (h.toOver.targets_lt hb) hfin old hr isList
    have inReach := (Forest.rewindLists_le_iff d.forest target _).1 (Nat.le_refl _) place hmem size
      (by rw [← Forest.listSize?_congr (grown.get?_eq old), hs])
    have covered := h.covered a ha
    rw [Infix.Atom.breadth_of_target? ht, ← Forest.longest_congr h.nodes] at covered
    exact inReach.trans covered
  · obtain ⟨text, items, hn, rfl⟩ := Forest.get?_of_listSize? hs
    exact h.covered _ (Forest.atom_mem_of_finish hfin (Nat.le_of_not_lt old) hn)

end Wide

end Reading.Draft

end Formulary
