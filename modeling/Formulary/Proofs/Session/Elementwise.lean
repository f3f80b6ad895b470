/-
How far a broadcast goes item by item. From the first items of its lists on, a tree takes each list
on by as many items in a pass as it comes to the list, and names that stand for the same list all
count. So the values belong to the items one by one if the tree comes to every list once; a list
that it comes to more often gives away several items in a pass, if it has several.
-/
import Formulary.Proofs.Session.Refusal
import Formulary.Proofs.Forest.Passes

namespace Formulary

open Reading

/-- What becomes of a list while a tree is evaluated again and again from first items on. It is met
in every pass, and the reads of a pass go on where those of the passes before it ended. If its items
can be told apart, a pass sees none but the item whose turn it is exactly if it meets the list once
or there is nothing else to see. -/
structure Forest.Walks (f : Forest) (root place : NodeId) (items : Array Value) : Prop where
  met : 0 < f.readCount place root
  reads : ∀ pass, FullTree.readsOf place (f.passReads root pass) = (List.range (f.readCount place root)).map fun k =>
    items.getD ((pass * f.readCount place root + k) % items.size) .undefined
  cursor : ∀ passes, (f.passed root passes).cursor place = FullTree.after items.size 0 (passes * f.readCount place root)
  inTurn : items.toList.Nodup →
    ((∀ pass, ∀ v ∈ FullTree.readsOf place (f.passReads root pass), v = f.itemAt pass place) ↔
      f.readCount place root = 1 ∨ items.size ≤ 1)

/-- A list of a tree is walked through from its first item on. -/
theorem Forest.Grounded.walks {f : Forest} {root place : NodeId} (h : f.Grounded root) (hc : f.cursor place = 0)
    {text : String} {items : Array Value} (hr : f.Reaches root place)
    (hp : f.get? place = some ⟨text, .leaf (.list items)⟩) : f.Walks root place items := by
  obtain ⟨t, hu, hh⟩ := h.exists_unfolds
  have met := readCount_pos h hr hp
  have size : f.listSize? place = some items.size := by rw [listSize?, hp]
  refine ⟨met, readsOf_passReads hu hh hc hp, fun passes => ?_, fun hd => ⟨fun h => ?_, fun h pass v hv => ?_⟩⟩
  · rw [cursor_passed hu hh, size, hc, Option.getD_some]
  · exact once_or_single_of_itemAt hu hh hc hp met hd (h 0)
  · exact read_itemAt hu hh hc hp h pass hv

namespace Session

/-- For every session that has come about and every tree it has built: evaluated a number of times
after its lists have been put on their first items, the tree has one value for each pass. Each list
is walked through as often in a pass as the tree comes to it, and if no list of several items is met
twice, each value is that of the tree with the items in place of the lists whose turn it is. -/
theorem Reachable.elementwise {s : Session} (h : s.Reachable) {root : NodeId} (hr : root ∈ s.trees) :
    let f := (s.forest.rewindLists root).2
    ∃ t, f.Unfolds root t ∧
      (∀ width, (f.broadcast root width).1 = ((List.range (max width 1)).map (f.passValue root)).toArray) ∧
      (∀ place text items, f.Reaches root place → f.get? place = some ⟨text, .leaf (.list items)⟩ →
        f.Walks root place items) ∧
      ((∀ place text items, f.Reaches root place → f.get? place = some ⟨text, .leaf (.list items)⟩ →
        f.readCount place root = 1 ∨ items.size ≤ 1) →
        ∀ pass, f.passValue root pass = t.valueWith (f.itemAt pass)) := by
  intro f
  have nodes : f.nodes = s.forest.nodes := Forest.nodes_rewindLists ..
  have laid := h.laid
  have grounded : f.Grounded root :=
    (laid.descends.congr nodes.symm).grounded (by rw [Forest.size_congr nodes]; exact laid.lt_size hr)
  obtain ⟨t, hu, hh⟩ := grounded.exists_unfolds
  have first : ∀ place ∈ t.lists, f.cursor place = 0 :=
    fun place hp => Forest.cursor_rewound (hu.congr nodes) hp
  refine ⟨t, hu, fun width => by rw [Forest.broadcast_eq_passes], fun place text items hreach hp => ?_, fun once => ?_⟩
  · exact grounded.walks (first place (FullTree.mem_lists_of_reaches hu hreach hp)) hreach hp
  · refine Forest.passValue_eq_valueWith hu hh first fun place hp text items hn => ?_
    exact once place text items (FullTree.reached_of_mem_lists hu hp).1 hn

/-- The sum of a list of two items and itself, by its name. -/
def doubled : Session :=
  (listBound.parse "a+a").2

theorem unfolds_doubled : ∃ root v w, root ∈ doubled.trees ∧
    doubled.forest.get? 0 = some ⟨"", .leaf (.list #[v, w])⟩ ∧
    doubled.forest.Unfolds root (.binary .plus (.reference (.list 0 #[v, w])) (.reference (.list 0 #[v, w]))) := by
  obtain ⟨f, width, v, w, hs, -, -, hlist⟩ := listBound_eq
  let φ : Formula := ⟨none, .chain (.name ['a']) .plus (.single (.name ['a']))⟩
  have first : Phrase.Spells (.name ['a']) ['a', '+', 'a'] ['+', 'a'] := spells_a (by simp; rfl)
  have spells : φ.Spells "a+a".toList :=
    .plain (.chain 0 0 first (.single 0 0 (spells_a (by simp))))
  have admitted : φ.Admitted listBound.scope := by
    rw [scope_listBound]
    exact ⟨⟨trivial, trivial⟩, by decide, by decide⟩
  obtain ⟨ops, ts, g, hb, ht⟩ : ∃ ops ts g, φ.body.Builds listBound.bindings listBound.forest (ops, ts) g ∧
      Groups ops ts (.binary "+" .plus (.leaf "a" (.variable "a" 0)) (.leaf "a" (.variable "a" 0))) :=
    ⟨_, _, _, .chain _ (.name lookup_listBound) (.single (.name lookup_listBound)),
      .binary (.single _) (.single _) (by decide) (by decide)⟩
  have gained : ∃ root, listBound.Gained doubled root
      (.binary "+" .plus (.leaf "a" (.variable "a" 0)) (.leaf "a" (.variable "a" 0))) :=
    ⟨_, (gained_of_spells longest_listBound spells admitted hb ht).1⟩
  generalize doubled = s' at gained ⊢
  obtain ⟨root, gained⟩ := gained
  have list : s'.forest.get? 0 = some ⟨"", .leaf (.list #[v, w])⟩ := gained.kept 0 _ (by rw [hs]; exact hlist)
  refine ⟨root, v, w, by rw [gained.trees]; exact Array.mem_push_self, list, ?_⟩
  cases gained.stands with
  | binary hn hl hr =>
    cases hl with
    | leaf hl =>
      cases hr with
      | leaf hr => exact .binary hn (.reference hl (.list list)) (.reference hr (.list list))

/-- In `a+a` the first pass reads both items of the list. -/
theorem elementwise_doubled : doubled.Reachable ∧ ∃ root v w, root ∈ doubled.trees ∧
    doubled.forest.get? 0 = some ⟨"", .leaf (.list #[v, w])⟩ ∧
    FullTree.readsOf 0 ((doubled.forest.rewindLists root).2.passReads root 0) = [v, w] := by
  have reached : doubled.Reachable := .parse _ (.parse _ (.new {}))
  obtain ⟨root, v, w, hr, list, hu⟩ := unfolds_doubled
  obtain ⟨t, -, -, walks, -⟩ := reached.elementwise hr
  have nodes : doubled.forest.nodes = (doubled.forest.rewindLists root).2.nodes :=
    (Forest.nodes_rewindLists doubled.forest root).symm
  have unfolds := hu.congr nodes
  have grounded : (doubled.forest.rewindLists root).2.Grounded root :=
    (reached.laid.descends.congr nodes).grounded (Forest.size_congr nodes ▸ reached.laid.lt_size hr)
  have count : (doubled.forest.rewindLists root).2.readCount 0 root = 2 := by
    rw [grounded.readCount_eq unfolds]
    rfl
  obtain ⟨hreach, -⟩ := FullTree.reached_of_mem_lists unfolds (show 0 ∈ _ by simp [FullTree.lists])
  refine ⟨reached, root, v, w, hr, list, ?_⟩
  rw [(walks 0 "" #[v, w] hreach (by rw [← Forest.get?_congr nodes, list])).reads, count]
  rfl

end Session

end Formulary
