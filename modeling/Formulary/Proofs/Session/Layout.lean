/-
How a session keeps its trees, over all its runs. The trees of all accepted formulas lie side by
side in the order in which they were built, without gaps; every name is bound to one of them; and a
variable refers to an earlier one. So every node belongs to exactly one tree and there is one way
down to it, and whatever a session evaluates, rewinds or shows, also in the middle of a formula,
it never comes to a place without a node, nor back to where it was.
-/
import Formulary.Proofs.Session.Runs
import Formulary.Proofs.Forest.Evaluation
import Formulary.Proofs.Forest.Outline

namespace Formulary

open Reading

namespace Forest

/-! ## Outlines -/

/-- Where nodes refer to earlier nodes only, an outline is never cut off at its height. -/
theorem outlineLines_of_le {f : Forest} (hf : f.Descends) (height more depth : Nat) {id : Nat} (hid : id < height) :
    f.outlineLines (height + more) depth id = f.outlineLines height depth id := by
  induction height generalizing depth id with
  | zero => omega
  | succ height ih =>
    rw [Nat.succ_add, outlineLines, outlineLines]
    cases hn : f.get? id with
    | none => rfl
    | some node =>
      have below : ∀ child ∈ node.children, child < height := fun child hc =>
        Nat.lt_of_lt_of_le (hf id node hn child (Node.mem_references.2 (.inr hc))) (Nat.le_of_lt_succ hid)
      simp only
      congr 1
      exact List.flatMap_congr fun child hc => ih (depth + 1) (below child hc)

/-- The first node of the tree at a position of a row. -/
def first (trees : List Nat) : Nat → Nat
  | 0 => 0
  | k + 1 => trees.getD k 0 + 1

/-- The stretch of one tree of a row. -/
theorem Spans.nth {f : Forest} {lo hi : Nat} {row : List Nat} (h : f.Spans lo row hi) {k root : Nat}
    (hk : row[k]? = some root) : f.Spans (if k = 0 then lo else row.getD (k - 1) 0 + 1) [root] (root + 1) := by
  induction h generalizing k with
  | nil lo => simp at hk
  | @cons lo first hi node row hn hc hr ihc ihr =>
    cases k with
    | zero =>
      cases hk
      exact singleton_iff.2 ⟨rfl, node, hn, hc⟩
    | succ k =>
      have := ihr (k := k) hk
      cases k with
      | zero => simpa using this
      | succ k => simpa using this

end Forest

namespace Session

/-! ## The invariant -/

/-- The trees lie side by side and fill the forest; variables refer to earlier trees; functions have
all their parameters; names are bound to trees; and the current tree is the latest. -/
structure Laid (s : Session) : Prop where
  rows : s.forest.Spans 0 s.trees.toList s.forest.size
  targets : ∀ id node target, s.forest.get? id = some node → node.target? = some target → target < id ∧ target ∈ s.trees
  applied : ∀ id node, s.forest.get? id = some node → node.Applied
  bound : ∀ name root, s.bindings.lookup name = some root → root ∈ s.trees
  latest : s.root? = s.trees.back?

namespace Laid

variable {s : Session}

theorem lt_size (h : s.Laid) {root : NodeId} (hr : root ∈ s.trees) : root < s.forest.size :=
  (h.rows.mem_bounds root (Array.mem_toList_iff.2 hr)).2

theorem lookup_lt (h : s.Laid) (name : String) (target : NodeId) (hl : s.bindings.lookup name = some target) :
    target < s.forest.size :=
  h.lt_size (h.bound name target hl)

theorem descends (h : s.Laid) : s.forest.Descends := by
  intro id node hn next hnext
  rcases Node.mem_references.1 hnext with ht | hc
  · exact (h.targets id node next hn ht).1
  · exact h.rows.children_lt hn (Nat.zero_le id) (Forest.get?_eq_some_lt hn) next hc

theorem new (options : Options) : (Session.new options).Laid where
  rows := .nil 0
  targets id node target hn := by simp [Session.new, Forest.empty, Forest.get?] at hn
  applied id node hn := by simp [Session.new, Forest.empty, Forest.get?] at hn
  bound name root hl := by simp [Session.new, Bindings.empty, Bindings.lookup] at hl
  latest := rfl

/-- The invariant says nothing of cursors. -/
theorem moved (h : s.Laid) {g : Forest} (hg : g.nodes = s.forest.nodes) : Laid { s with forest := g } := by
  have get : ∀ id, g.get? id = s.forest.get? id := Forest.get?_congr hg
  refine ⟨?_, fun id node target hn => h.targets id node target (by rw [← get]; exact hn),
    fun id node hn => h.applied id node (by rw [← get]; exact hn), h.bound, h.latest⟩
  show g.Spans 0 s.trees.toList g.size
  rw [Forest.size_congr hg]
  exact h.rows.transfer fun id node _ hn => by rw [get]; exact hn

/-- What a formula leads to before it is finished descends and has its tree behind all others. -/
theorem finish (h : s.Laid) {tokens : List Token} {d : Draft} (hd : s.draft.takeAll s.bindings tokens = some d)
    {root : NodeId} {g : Forest} (hfin : d.yard.finish d.forest = (some root, g)) :
    g.Descends ∧ g.Spans s.forest.size [root] g.size :=
  ((Draft.Over.start s.bindings s.forest).takeAll hd).finish h.descends h.lookup_lt hfin

/-- A formula that is accepted adds its tree behind the others. -/
theorem accept (h : s.Laid) {tokens : List Token} {d : Draft} (hd : s.draft.takeAll s.bindings tokens = some d)
    {root : NodeId} {g : Forest} (hfin : d.yard.finish d.forest = (some root, g)) (text : String)
    (target : Option String) : (s.accept text target root g d.width).2.Laid := by
  have kept := (Draft.Over.start s.bindings s.forest).takeAll hd
  obtain ⟨-, spans⟩ := h.finish hd hfin
  have grown := Forest.grown_finish hfin
  -- below the old end nothing has changed, whatever was read on the way
  have old : ∀ {id node}, g.get? id = some node → id < s.forest.size → s.forest.get? id = some node := by
    intro id node hn hid
    rw [← Forest.get?_congr kept.nodes, ← grown.get?_eq (by rw [kept.size]; exact hid)]
    exact hn
  refine ⟨?_, ?_, ?_, ?_, ?_⟩
  · rw [forest_accept, trees_accept, Array.toList_push]
    refine (h.rows.transfer fun id node _ hn => grown.nodes ?_).append spans
    rw [Forest.get?_congr kept.nodes]
    exact hn
  · rw [forest_accept, trees_accept]
    intro id node target hn ht
    by_cases hid : id < s.forest.size
    · obtain ⟨hlt, hmem⟩ := h.targets id node target (old hn hid) ht
      exact ⟨hlt, Array.mem_push_of_mem _ hmem⟩
    · have hle := Nat.le_of_not_lt hid
      obtain ⟨a, ha, hat⟩ := grown.targets (by rw [kept.size]; exact hle) hn ht
      obtain ⟨name, hname⟩ := kept.bound a ha target hat
      have hmem := h.bound name target hname
      exact ⟨Nat.lt_of_lt_of_le (h.lt_size hmem) hle, Array.mem_push_of_mem _ hmem⟩
  · rw [forest_accept]
    intro id node hn
    by_cases hid : id < s.forest.size
    · exact h.applied id node (old hn hid)
    · exact grown.applied (by rw [kept.size]; exact Nat.le_of_not_lt hid) hn
  · rw [trees_accept]
    intro name root' hl
    rcases lookup_accept hl with rfl | hl
    · exact Array.mem_push_self
    · exact Array.mem_push_of_mem _ (h.bound name root' hl)
  · rw [root?_accept, trees_accept, Array.back?_push]

/-- One formula. -/
theorem parse (h : s.Laid) (text : String) : (s.parse text).2.Laid := by
  rcases s.parse_cases text with ⟨error, forest, hn, hp⟩ | ⟨d, root, forest, hd, -, hfin, hp⟩
  · rw [hp]
    exact h.moved hn
  · rw [hp]
    exact h.accept hd hfin text _

theorem values (h : s.Laid) : s.values.2.Laid := by
  unfold Session.values
  split
  · exact h
  · rename_i root _
    exact h.moved (Forest.nodes_broadcast s.forest root (max s.width 1))

end Laid

/-- Every session that comes about keeps its trees so. -/
theorem Reachable.laid {s : Session} (h : s.Reachable) : s.Laid := by
  induction h with
  | new options => exact .new options
  | parse text _ ih => exact ih.parse text
  | values _ ih => exact ih.values
  | evaluate id _ ih => exact ih.moved (Forest.nodes_evaluate _ id)
  | broadcast id width _ ih => exact ih.moved (Forest.nodes_broadcast _ id width)
  | rewind id _ ih => exact ih.moved (Forest.nodes_rewindLists _ id)

/-! ## What it means -/

/-- What the invariant comes to. References go to earlier nodes, names are bound to trees, and the
roots of the trees rise up to the last node. From a root one comes through children to exactly the
nodes behind the root before it, and to each of them in one way; so every node belongs to one tree.
Whatever is evaluated, every stage of it has the nodes and the values it needs, outlines are never
cut off, and the same holds of all that is put together and evaluated while a formula is read. -/
structure Coherent (s : Session) : Prop where
  references : s.forest.Descends
  bound : ∀ name root, s.bindings.lookup name = some root → root ∈ s.trees
  rising : s.trees.toList.Pairwise (· < ·)
  last : s.trees.back? = if s.forest.size = 0 then none else some (s.forest.size - 1)
  stretch : ∀ k root, s.trees[k]? = some root → ∀ id : Nat,
    (∃ path, s.forest.follow root path = some id) ↔ Forest.first s.trees.toList k ≤ id ∧ id ≤ root
  single : ∀ root ∈ s.trees, ∀ path other id,
    s.forest.follow root path = some id → s.forest.follow root other = some id → path = other
  owned : ∀ id, id < s.forest.size → ∃! path, s.forest.followFrom s.trees.toList path = some id
  evaluated : ∀ id, id < s.forest.size →
    s.forest.Grounded id ∧ ∀ stage ∈ (Forest.Work.start s.forest id).trace, stage.Supplied
  outlined : ∀ id, id < s.forest.size → ∀ more depth,
    s.forest.outlineLines (s.forest.size + more) depth id = s.forest.outlineLines s.forest.size depth id
  drafted : ∀ tokens d, s.draft.takeAll s.bindings tokens = some d → d.forest.nodes = s.forest.nodes ∧
    ∀ root g, d.yard.finish d.forest = (some root, g) → root < g.size ∧ ∀ id, id < g.size →
      g.Grounded id ∧ ∀ stage ∈ (Forest.Work.start g id).trace, stage.Supplied

/-- Where nodes refer to earlier nodes only, evaluating finds whatever it needs. -/
theorem supplied_of_descends {f : Forest} (hf : f.Descends) {id : NodeId} (hid : id < f.size) :
    f.Grounded id ∧ ∀ stage ∈ (Forest.Work.start f id).trace, stage.Supplied := by
  have grounded := hf.grounded hid
  obtain ⟨t, hu, hh⟩ := grounded.exists_unfolds
  exact ⟨grounded, Forest.supplied_start hu hh⟩

theorem back?_of_rows {s : Session} (h : s.Laid) :
    s.trees.back? = if s.forest.size = 0 then none else some (s.forest.size - 1) := by
  have rows := h.rows
  rw [← Array.getLast?_toList]
  by_cases hne : s.trees.toList = []
  · rw [hne] at rows ⊢
    cases hs : s.forest.size with
    | zero => rfl
    | succ n =>
      rw [hs] at rows
      cases rows
  · rw [rows.getLast?_eq hne]
    have hpos : s.forest.size ≠ 0 := by
      obtain ⟨root, hr⟩ := List.exists_mem_of_ne_nil _ hne
      have := h.lt_size (Array.mem_toList_iff.1 hr)
      exact Nat.ne_of_gt (Nat.zero_lt_of_lt this)
    rw [if_neg hpos]

/-- Over all runs: after any formulas, accepted or refused, and any evaluations in between. -/
theorem Reachable.coherent {s : Session} (h : s.Reachable) : s.Coherent := by
  have laid := h.laid
  -- the tree of a row begins where the one before it ended
  have nth : ∀ k root, s.trees[k]? = some root →
      s.forest.Spans (Forest.first s.trees.toList k) [root] (root + 1) := by
    intro k root hk
    rw [← Array.getElem?_toList] at hk
    have := laid.rows.nth hk
    cases k with
    | zero => exact this
    | succ k => simpa [Forest.first] using this
  refine ⟨laid.descends, laid.bound, laid.rows.pairwise, back?_of_rows laid, ?_, ?_, ?_, ?_, ?_, ?_⟩
  · intro k root hk id
    exact (nth k root hk).exists_follow_iff id
  · intro root hr path other id hp ho
    obtain ⟨k, hk⟩ := Array.mem_iff_getElem?.1 hr
    exact (nth k root hk).follow_unique hp ho
  · intro id hid
    exact laid.rows.existsUnique_followFrom (Nat.zero_le id) hid
  · intro id hid
    exact supplied_of_descends laid.descends hid
  · intro id hid more depth
    exact Forest.outlineLines_of_le laid.descends _ more depth hid
  · intro tokens d hd
    refine ⟨((Draft.Over.start s.bindings s.forest).takeAll hd).nodes, fun root g hfin => ?_⟩
    obtain ⟨descends, spans⟩ := laid.finish hd hfin
    exact ⟨(spans.mem_bounds root (List.mem_singleton_self root)).2, fun id hid => supplied_of_descends descends hid⟩

/-- A session in which a list was bound, used twice and asked for, and a formula was refused in the
middle of a list. -/
def refusedInList : Session :=
  ((((Session.new {}).parse "a=[1,2]").2.parse "[a,a]+a").2.values.2.parse "[a,[a").2

theorem coherent_refusedInList : refusedInList.Reachable ∧ refusedInList.Coherent := by
  have reached : refusedInList.Reachable := .parse _ (.values (.parse _ (.parse _ (.new {}))))
  exact ⟨reached, reached.coherent⟩

end Session

end Formulary
