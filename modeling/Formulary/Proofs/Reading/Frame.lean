/-
What a formula in the making leaves alone. Between any two tokens the nodes of the forest are those
there were before the formula, the open lists all know that size, and every variable at hand stands
for a tree with a name; so an item of a list is put together over earlier nodes only, and taking its
tree out again leaves nothing of it behind.
-/
import Formulary.Proofs.Reading.Draft
import Formulary.Proofs.Forest.Machine
import Formulary.Proofs.Forest.Rewind
import Formulary.Proofs.Infix.Assembly
import Formulary.Proofs.Infix.Yard

namespace Formulary

open Infix

/-- Every variable among the atoms of a yard stands for the tree of some name. -/
def Infix.Yard.Bound (b : Bindings) (y : Yard) : Prop :=
  ∀ a ∈ y.atoms, ∀ target, a.target? = some target → ∃ name, b.lookup name = some target

theorem Infix.Yard.Bound.push {b : Bindings} {y : Yard} (h : y.Bound b) {a : Atom}
    (ha : ∀ target, a.target? = some target → ∃ name, b.lookup name = some target) : (y.push a).Bound b := by
  intro c hc target ht
  rcases Yard.mem_atoms_push hc with hc | rfl
  · exact h c hc target ht
  · exact ha target ht

theorem Infix.Yard.Bound.empty (b : Bindings) : ({} : Yard).Bound b := by
  intro a ha
  simp [Yard.atoms] at ha

/-- A variable in a yard reaches the list at a place. -/
def Infix.Yard.Refers (f : Forest) (y : Yard) (place : NodeId) : Prop :=
  ∃ a ∈ y.atoms, ∃ target, a.target? = some target ∧ place ∈ f.reachable target ∧ (f.listSize? place).isSome

theorem Infix.Yard.Refers.of_push {f : Forest} {y : Yard} {a : Atom} {place : NodeId} (h : (y.push a).Refers f place) :
    y.Refers f place ∨
      ∃ target, a.target? = some target ∧ place ∈ f.reachable target ∧ (f.listSize? place).isSome := by
  obtain ⟨c, hc, target, ht, hp, hs⟩ := h
  rcases Yard.mem_atoms_push hc with hc | rfl
  · exact .inl ⟨c, hc, target, ht, hp, hs⟩
  · exact .inr ⟨target, ht, hp, hs⟩

theorem Infix.Yard.not_refers_empty (f : Forest) (place : NodeId) : ¬ ({} : Yard).Refers f place := by
  rintro ⟨a, ha, -⟩
  simp [Yard.atoms] at ha

/-- What the tree of a yard reads beside its own lists are lists that the yard refers to. -/
theorem Infix.Yard.refers_of_finish {y : Yard} {f g : Forest} {root place : NodeId} (hf : f.Descends)
    (ht : ∀ a ∈ y.atoms, ∀ target, a.target? = some target → target < f.size)
    (h : y.finish f = (some root, g)) (hp : place < f.size) (hr : g.Reaches root place)
    (hs : (g.listSize? place).isSome) : y.Refers f place := by
  have hg := Forest.grown_finish h
  obtain ⟨a, ha, target, hat, hreach⟩ := Forest.reaches_finish hf ht h hp hr
  refine ⟨a, ha, target, hat, (Forest.mem_reachable f target place).2 ⟨hp, hreach⟩, ?_⟩
  rwa [← Forest.listSize?_congr (hg.get?_eq hp)]

namespace Reading

namespace Draft

/-- When an item can be completed, and what comes of it. -/
theorem endItem_eq_some {d e : Draft} : d.endItem = some e ↔ ∃ list others root g, d.lists = list :: others ∧
    d.yard.finish d.forest = (some root, g) ∧
    e = { d with
      forest := (g.evaluate root).2.truncate list.mark
      yard := {}
      lists := { list with items := list.items.push (g.evaluate root).1 } :: others } := by
  unfold Draft.endItem
  constructor
  · intro h
    split at h
    · cases h
    · rename_i list others hl
      split at h
      · cases h
      · rename_i root g hfin
        cases h
        exact ⟨list, others, root, g, hl, hfin, rfl⟩
  · rintro ⟨list, others, root, g, hl, hfin, rfl⟩
    simp only [hl, hfin]

/-- When a list can be completed, and what comes of it. -/
theorem endList_eq_some {d e : Draft} {text : String} : d.endList text = some e ↔ ∃ list others,
    d.lists = list :: others ∧
    e = { d with
      yard := list.outer
      lists := others
      width := max d.width list.items.size }.add text (.operand (.list list.items)) := by
  unfold Draft.endList
  constructor
  · intro h
    split at h
    · cases h
    · rename_i list others hl
      cases h
      exact ⟨list, others, hl, rfl⟩
  · rintro ⟨list, others, hl, rfl⟩
    simp only [hl]

/-- What one token keeps, any number of tokens keeps. -/
theorem takeAll_keeps {b : Bindings} {P : Draft → Prop}
    (step : ∀ {d d' : Draft} {token : Token}, P d → d.take b token = some d' → P d') {tokens : List Token}
    {d d' : Draft} (h : P d) (hd : d.takeAll b tokens = some d') : P d' := by
  induction tokens generalizing d with
  | nil =>
    cases hd
    exact h
  | cons token rest ih =>
    rw [Draft.takeAll] at hd
    split at hd
    · cases hd
    · rename_i d'' hstep
      exact ih (step h hstep) hd

/-- A draft has been begun over a forest: its nodes are those of the forest, and all open lists began at
its size. -/
structure Rooted (f : Forest) (d : Draft) : Prop where
  nodes : d.forest.nodes = f.nodes
  marks : ∀ list ∈ d.lists, list.mark = f.size

namespace Rooted

variable {b : Bindings} {f : Forest} {d d' : Draft}

theorem size (h : d.Rooted f) : d.forest.size = f.size :=
  Forest.size_congr h.nodes

theorem addVariable (h : d.Rooted f) (name : String) (target : NodeId) : (d.addVariable name target).Rooted f :=
  ⟨(Forest.nodes_rewindLists d.forest target).trans h.nodes, h.marks⟩

theorem beginList (h : d.Rooted f) : d.beginList.Rooted f where
  nodes := h.nodes
  marks := by simpa [Draft.beginList, h.size] using h.marks

theorem endItem (h : d.Rooted f) (hd : d.endItem = some d') : d'.Rooted f := by
  obtain ⟨list, others, root, g, hl, hfin, rfl⟩ := endItem_eq_some.1 hd
  have marks := h.marks
  rw [hl] at marks
  have grown := Forest.grown_finish hfin
  have back : ((g.evaluate root).2.truncate list.mark).nodes = d.forest.nodes := by
    rw [marks list (List.mem_cons_self ..), ← h.size]
    exact Forest.nodes_truncate_of_extends grown.toExtends (Forest.nodes_evaluate g root)
  exact ⟨back.trans h.nodes, by simpa using marks⟩

theorem endList (h : d.Rooted f) {text : String} (hd : d.endList text = some d') : d'.Rooted f := by
  obtain ⟨list, others, hl, rfl⟩ := endList_eq_some.1 hd
  have marks := h.marks
  rw [hl] at marks
  exact ⟨h.nodes, fun l hm => marks l (List.mem_cons_of_mem _ hm)⟩

/-- One token. -/
theorem take (h : d.Rooted f) {token : Token} (hd : d.take b token = some d') : d'.Rooted f := by
  rcases token with ⟨text, _ | _ | op | g | m | _ | _ | _⟩ <;> simp only [Draft.take] at hd
  · cases hd
    exact ⟨h.nodes, h.marks⟩
  · obtain ⟨target, -, rfl⟩ := Option.map_eq_some_iff.1 hd
    exact h.addVariable text target
  · cases hd
    exact ⟨h.nodes, h.marks⟩
  · cases hd
    exact ⟨h.nodes, h.marks⟩
  · cases hd
    exact ⟨h.nodes, h.marks⟩
  · cases hd
    exact h.beginList
  · exact h.endItem hd
  · exact h.endList hd

/-- Any number of tokens. -/
theorem takeAll {tokens : List Token} (h : d.Rooted f) (hd : d.takeAll b tokens = some d') : d'.Rooted f :=
  takeAll_keeps (fun h hd => h.take hd) h hd

end Rooted

/-- A draft over a forest: it was begun over it, and all variables at hand have names. -/
structure Over (b : Bindings) (f : Forest) (d : Draft) : Prop extends d.Rooted f where
  bound : d.yard.Bound b
  outer : ∀ list ∈ d.lists, list.outer.Bound b

namespace Over

variable {b : Bindings} {f : Forest} {d d' : Draft}

theorem start (b : Bindings) (f : Forest) : Over b f { forest := f } where
  nodes := rfl
  marks := by simp
  bound := .empty b
  outer := by simp

theorem add (h : d.Over b f) {text : String} {meaning : Meaning}
    (hm : ∀ target, Infix.Atom.target? ⟨text, meaning⟩ = some target → ∃ name, b.lookup name = some target) :
    (d.add text meaning).Over b f :=
  ⟨⟨h.nodes, h.marks⟩, h.bound.push hm, h.outer⟩

theorem addVariable (h : d.Over b f) {name : String} {target : NodeId} (ht : b.lookup name = some target) :
    (d.addVariable name target).Over b f :=
  ⟨h.toRooted.addVariable name target, h.bound.push (by rintro _ ⟨⟩; exact ⟨name, ht⟩), h.outer⟩

theorem beginList (h : d.Over b f) : d.beginList.Over b f where
  toRooted := h.toRooted.beginList
  bound := .empty b
  outer := by simpa [Draft.beginList] using ⟨h.bound, h.outer⟩

theorem endItem (h : d.Over b f) (hd : d.endItem = some d') : d'.Over b f := by
  have rooted := h.toRooted.endItem hd
  obtain ⟨list, others, root, g, hl, hfin, rfl⟩ := endItem_eq_some.1 hd
  have outer := h.outer
  rw [hl] at outer
  exact ⟨rooted, .empty b, by simpa using outer⟩

theorem endList (h : d.Over b f) {text : String} (hd : d.endList text = some d') : d'.Over b f := by
  have rooted := h.toRooted.endList hd
  obtain ⟨list, others, hl, rfl⟩ := endList_eq_some.1 hd
  have outer := h.outer
  rw [hl] at outer
  exact ⟨rooted, (outer list (List.mem_cons_self ..)).push (by rintro _ ⟨⟩),
    fun l hm => outer l (List.mem_cons_of_mem _ hm)⟩

/-- One token. -/
theorem take (h : d.Over b f) {token : Token} (hd : d.take b token = some d') : d'.Over b f := by
  rcases token with ⟨text, _ | _ | op | g | m | _ | _ | _⟩ <;> simp only [Draft.take] at hd
  · cases hd
    exact h.add (by rintro _ ⟨⟩)
  · obtain ⟨target, ht, rfl⟩ := Option.map_eq_some_iff.1 hd
    exact h.addVariable ht
  · cases hd
    exact h.add (by rintro _ ⟨⟩)
  · cases hd
    exact h.add (by rintro _ ⟨⟩)
  · cases hd
    exact h.add (by rintro _ ⟨⟩)
  · cases hd
    exact h.beginList
  · exact h.endItem hd
  · exact h.endList hd

/-- Any number of tokens. -/
theorem takeAll {tokens : List Token} (h : d.Over b f) (hd : d.takeAll b tokens = some d') : d'.Over b f :=
  takeAll_keeps (fun h hd => h.take hd) h hd

/-- The variables at hand stand for trees that are there. -/
theorem targets_lt (h : d.Over b f) (hb : ∀ name target, b.lookup name = some target → target < f.size) :
    ∀ a ∈ d.yard.atoms, ∀ target, a.target? = some target → target < d.forest.size := by
  intro a ha target ht
  obtain ⟨name, hname⟩ := h.bound a ha target ht
  rw [h.size]
  exact hb name target hname

/-- Whatever is put together over a forest that descends and from names of its trees: the root is
the last node, and the new forest descends too. -/
theorem finish (h : d.Over b f) (hf : f.Descends) (hb : ∀ name target, b.lookup name = some target → target < f.size)
    {root : NodeId} {g : Forest} (hfin : d.yard.finish d.forest = (some root, g)) :
    g.Descends ∧ g.Spans f.size [root] g.size := by
  have spans := Forest.spans_finish hfin
  rw [h.size] at spans
  exact ⟨Forest.descends_finish (hf.congr h.nodes.symm) (h.targets_lt hb) hfin, spans⟩

end Over

end Draft

end Reading

end Formulary
