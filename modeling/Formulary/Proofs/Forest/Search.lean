/-
Rewinding as a whole, in any forest. Trees may be shared and variables may lead back to themselves: as
long as every reference is to a node that is there, the search comes to an end, and it has found
exactly the places that an evaluation can come to. The cursors of the lists among them go back, no
other is moved, and doing it again changes nothing.
-/
import Formulary.Proofs.Forest.Rewind

namespace Formulary.Forest

open Relation

variable {f : Forest} {root : NodeId}

/-! ## The search as a loop -/

/-- The search without a bound on its rounds: it goes on from the places that wait, with those that
have been visited, until none waits. The place in front is passed over if it has been visited. If it
has not, there has to be a node, and what the node refers to waits. -/
inductive Explores (f : Forest) : (waiting visited result : List NodeId) → Prop
  | done (visited : List NodeId) : Explores f [] visited visited
  | pass {id : NodeId} {waiting visited result : List NodeId} :
      id ∈ visited → Explores f waiting visited result → Explores f (id :: waiting) visited result
  | visit {id : NodeId} {node : Node} {waiting visited result : List NodeId} :
      id ∉ visited → f.get? id = some node → Explores f (node.references ++ waiting) (id :: visited) result →
      Explores f (id :: waiting) visited result

namespace Explores

variable {waiting visited result other : List NodeId}

/-- The search comes to one result. -/
theorem unique (h : f.Explores waiting visited result) (h' : f.Explores waiting visited other) : result = other := by
  induction h with
  | done => cases h'; rfl
  | pass seen _ ih =>
    cases h' with
    | pass _ h' => exact ih h'
    | visit fresh _ _ => exact absurd seen fresh
  | visit fresh hn _ ih =>
    cases h' with
    | pass seen _ => exact absurd seen fresh
    | visit _ hn' h' =>
      cases hn.symm.trans hn'
      exact ih h'

/-- No place is visited twice. -/
theorem nodup (h : f.Explores waiting visited result) (hv : visited.Nodup) : result.Nodup := by
  induction h with
  | done => exact hv
  | pass _ _ ih => exact ih hv
  | visit fresh _ _ ih => exact ih (List.nodup_cons.2 ⟨fresh, hv⟩)

theorem pass_all {seen : List NodeId} (hs : ∀ id ∈ seen, id ∈ visited) (h : f.Explores waiting visited result) :
    f.Explores (seen ++ waiting) visited result := by
  induction seen with
  | nil => exact h
  | cons id seen ih =>
    exact .pass (hs id (List.mem_cons_self ..)) (ih fun other ho => hs other (List.mem_cons_of_mem _ ho))

end Explores

/-- Where all references in reach are live, a search with enough rounds left is never cut off: it ends
because nothing waits any more. -/
theorem Search.explores {rounds : Nat} {waiting : List NodeId} {done : Array Bool} {visited : List NodeId}
    (h : f.Search root waiting done visited) (hlive : ∀ place, f.Reaches root place → place < f.size)
    (hr : f.size ≤ rounds + visited.length) :
    f.Explores waiting visited (f.explore rounds waiting done visited) := by
  have live : ∀ id ∈ waiting, id < f.size := fun id hid => hlive id (h.found id (List.mem_append_right _ hid))
  induction rounds generalizing waiting done visited with
  | zero =>
    rw [Nat.zero_add] at hr
    have all := Explores.pass_all (fun id hid => h.all_visited hr (live id hid)) (.done (f := f) visited)
    rwa [List.append_nil] at all
  | succ rounds ih =>
    -- what has been visited is passed over up to the next place, which has not
    have seen : ∀ id ∈ waiting.takeWhile fun id => done.getD id true, id ∈ visited := by
      intro id hid
      rcases (h.marked id).1 (List.mem_takeWhile_imp (p := fun id => done.getD id true) hid) with dead | hv
      · exact absurd (live id ((List.takeWhile_sublist _).subset hid)) (Nat.not_lt_of_le dead)
      · exact hv
    have skipped := h.skip
    have split_ := List.takeWhile_append_dropWhile (p := fun id => done.getD id true) (l := waiting)
    rw [explore]
    split
    · rename_i hnone
      rw [hnone] at split_
      rw [← split_]
      exact .pass_all seen (.done visited)
    · rename_i next rest hsome
      rw [hsome] at split_ skipped
      have fresh : ¬ done.getD next true = true := by
        have := List.head?_dropWhile_not (fun id => done.getD id true) waiting
        rw [hsome] at this
        simpa using this
      obtain ⟨node, hn⟩ := exists_get? (hlive next (skipped.found next (by simp)))
      have visit := skipped.visit fresh hn
      rw [hn, ← split_]
      refine .pass_all seen (.visit (fun hv => fresh ((h.marked next).2 (.inr hv))) hn (ih visit ?_ ?_))
      · rw [List.length_cons]
        omega
      · exact fun id hid => hlive id (visit.found id (List.mem_append_right _ hid))

/-! ## The longest list -/

/-- The lengths of the lists that an evaluation of a place can come to. -/
def lengths (f : Forest) (root : NodeId) : Set Nat :=
  {size | ∃ place, f.Reaches root place ∧ f.listSize? place = some size}

/-- The greatest of some lengths, and zero if there are none, told by its upper bounds. -/
theorem isGreatest_of_le_iff {lengths : Set Nat} {longest : Nat}
    (h : ∀ n, longest ≤ n ↔ ∀ size ∈ lengths, size ≤ n) : IsGreatest (insert 0 lengths) longest := by
  constructor
  · by_contra absent
    have bound : longest ≤ longest - 1 := (h _).2 fun size hs => by
      have hle := (h longest).1 (Nat.le_refl _) size hs
      have hne : size ≠ longest := fun same => absent (.inr (same ▸ hs))
      omega
    have hzero : longest ≠ 0 := fun same => absent (.inl same)
    omega
  · rintro size (rfl | hs)
    · exact Nat.zero_le _
    · exact (h longest).1 (Nat.le_refl _) size hs

theorem longest_le_iff (f : Forest) (root : NodeId) (n : Nat) :
    (f.rewindLists root).1 ≤ n ↔ ∀ size ∈ f.lengths root, size ≤ n := by
  rw [rewindLists_le_iff]
  constructor
  · rintro h size ⟨place, hr, hs⟩
    exact h place ((mem_reachable f root place).2 ⟨live_of_listSize? hs, hr⟩) size hs
  · intro h place hp size hs
    exact h size ⟨place, ((mem_reachable f root place).1 hp).2, hs⟩

/-! ## Rewinding as a whole -/

theorem rewindLists_rewindLists (f : Forest) (root : NodeId) :
    (f.rewindLists root).2.rewindLists root = f.rewindLists root := by
  have nodes : (f.rewindLists root).2.nodes = f.nodes := nodes_rewindLists f root
  refine Prod.ext (longest_congr nodes root) (ext_cursor ?_ fun place => ?_)
  · rw [nodes_rewindLists]
  · rw [cursor_rewindLists]
    split
    · rename_i back
      rw [mem_reachable_congr nodes, listSize?_congr (get?_congr nodes place)] at back
      rw [cursor_rewindLists, if_pos back]
    · rfl

/-- What rewinding a place does. The search ends, with each place in reach found once. The lists among
them are put back and told the longest of; no node and no other cursor is touched; and a second time
changes nothing. -/
structure Rewinds (f : Forest) (root : NodeId) : Prop where
  ends : ∀ visited, f.Explores [root] [] visited ↔ visited = f.reachable root
  once : (f.reachable root).Nodup
  found : ∀ place, place ∈ f.reachable root ↔ f.Reaches root place
  nodes : (f.rewindLists root).2.nodes = f.nodes
  back : ∀ place size, f.Reaches root place → f.listSize? place = some size → (f.rewindLists root).2.cursor place = 0
  still : ∀ place, ¬ (f.Reaches root place ∧ (f.listSize? place).isSome) →
    (f.rewindLists root).2.cursor place = f.cursor place
  longest : IsGreatest (insert 0 (f.lengths root)) (f.rewindLists root).1
  again : (f.rewindLists root).2.rewindLists root = f.rewindLists root

/-- For every forest and every place from which all references are to live places. -/
theorem rewinds_of_live (f : Forest) (root : NodeId) (hlive : ∀ place, f.Reaches root place → place < f.size) :
    f.Rewinds root := by
  have explores : f.Explores [root] [] (f.reachable root) := (Search.start f root).explores hlive (by simp)
  have found : ∀ place, place ∈ f.reachable root ↔ f.Reaches root place := fun place =>
    (mem_reachable f root place).trans ⟨And.right, fun hr => ⟨hlive place hr, hr⟩⟩
  refine ⟨fun visited => ⟨fun h => h.unique explores, fun h => h ▸ explores⟩, explores.nodup .nil, found,
    nodes_rewindLists f root, fun place size hr hs => ?_, fun place hno => ?_,
    isGreatest_of_le_iff (longest_le_iff f root), rewindLists_rewindLists f root⟩
  · rw [cursor_rewindLists, if_pos ⟨(found place).2 hr, by rw [hs]; rfl⟩]
  · rw [cursor_rewindLists, if_neg fun back => hno ⟨(found place).1 back.1, back.2⟩]

/-- A list that two operators share, read once, and a variable that leads back to the root. -/
def roundabout : Forest where
  nodes := #[⟨"", .leaf (.list #[.boolean true, .boolean false])⟩, ⟨"a", .leaf (.variable "a" 3)⟩,
    ⟨"AND", .binary .both 0 1⟩, ⟨"OR", .binary .either 2 0⟩]
  cursors := #[1, 0, 0, 0]

theorem rewinds_roundabout : (∀ place, roundabout.Reaches 3 place → place < roundabout.size) ∧
    TransGen roundabout.Leads 3 3 ∧ roundabout.Rewinds 3 ∧ (roundabout.rewindLists 3).1 = 2 ∧
    roundabout.cursor 0 = 1 ∧ (roundabout.rewindLists 3).2.cursor 0 = 0 := by
  have within : ∀ id node, roundabout.get? id = some node → ∀ next ∈ node.references, next < 4 := by
    intro id node hn
    match id, hn with
    | 0, hn => cases hn; decide
    | 1, hn => cases hn; decide
    | 2, hn => cases hn; decide
    | 3, hn => cases hn; decide
  have live : ∀ place, roundabout.Reaches 3 place → place < roundabout.size := by
    intro place hr
    rcases ReflTransGen.cases_tail hr with rfl | ⟨last, -, node, hn, hnext⟩
    · decide
    · exact within last node hn place hnext
  have turn : TransGen roundabout.Leads 3 3 :=
    .tail (.tail (.single ⟨_, rfl, by decide⟩ : TransGen _ 3 2) ⟨_, rfl, by decide⟩ : TransGen _ 3 1)
      ⟨_, rfl, by decide⟩
  have rewinds := rewinds_of_live roundabout 3 live
  have reaches : roundabout.Reaches 3 0 := .single ⟨_, rfl, by decide⟩
  exact ⟨live, turn, rewinds, by decide, rfl, rewinds.back 0 2 reaches rfl⟩

end Formulary.Forest
