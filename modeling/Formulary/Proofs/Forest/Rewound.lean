/-
What a tree answers from the beginning: its lists are put back on their first items, the longest of
them is measured, and the tree is evaluated a number of times. The answer is settled by the nodes
that the tree comes to. It is the same in every forest that has the tree at the same place, wherever
the cursors are and whatever has been added behind.
-/
import Formulary.Proofs.Forest.Locality

namespace Formulary.Forest

/-- The length of the longest list in reach, and the values of so many evaluations from the first
items on. -/
def rewound (f : Forest) (root : NodeId) (width : Nat) : Nat × Array Value :=
  let longest := f.rewindLists root
  (longest.1, (longest.2.broadcast root width).1)

/-- After a rewinding every list of the tree is at its first item. -/
theorem cursor_rewound {f : Forest} {root : NodeId} {t : FullTree} (hu : f.Unfolds root t) {place : NodeId}
    (hp : place ∈ t.lists) : (f.rewindLists root).2.cursor place = 0 := by
  obtain ⟨hreach, text, items, hn⟩ := FullTree.reached_of_mem_lists hu hp
  have found : place ∈ f.reachable root := (mem_reachable f root place).2 ⟨get?_eq_some_lt hn, hreach⟩
  rw [cursor_rewindLists, if_pos ⟨found, by simp [listSize?, hn]⟩]

/-- Rewinding makes no difference where all lists in reach are at their first items already. -/
theorem Grounded.rewound_of_start {f : Forest} {root : NodeId} (h : f.Grounded root)
    (hc : ∀ place ∈ f.reachable root, (f.listSize? place).isSome → f.cursor place = 0) (width : Nat) :
    (f.rewound root width).2 = (f.broadcast root width).1 := by
  obtain ⟨t, hu, hh⟩ := h.exists_unfolds
  have nodes : (f.rewindLists root).2.nodes = f.nodes := nodes_rewindLists f root
  refine broadcast_congr (hu.congr nodes.symm) (by rwa [size_congr nodes]) hu hh (fun place hp => ?_) width
  obtain ⟨hreach, text, items, hn⟩ := FullTree.reached_of_mem_lists hu hp
  have found : place ∈ f.reachable root := (mem_reachable f root place).2 ⟨get?_eq_some_lt hn, hreach⟩
  rw [cursor_rewound hu hp, hc place found (by simp [listSize?, hn])]

/-- A tree answers the same in every forest that it stands in. -/
theorem Within.rewound_eq {f g : Forest} {root : NodeId} (hfg : f.Within g) (hr : f.Grounded root) (width : Nat) :
    g.rewound root width = f.rewound root width := by
  obtain ⟨t, hu, hh⟩ := hr.exists_unfolds
  have hu' : g.Unfolds root t := hu.mono hfg
  have nodes : (f.rewindLists root).2.nodes = f.nodes := nodes_rewindLists f root
  have nodes' : (g.rewindLists root).2.nodes = g.nodes := nodes_rewindLists g root
  have values : ((g.rewindLists root).2.broadcast root width).1 = ((f.rewindLists root).2.broadcast root width).1 := by
    refine broadcast_congr (hu'.congr nodes'.symm) ?_ (hu.congr nodes.symm) ?_ (fun place hp => ?_) width
    · rw [size_congr nodes']
      exact hh.trans hfg.size_le
    · rw [size_congr nodes]
      exact hh
    · rw [cursor_rewound hu hp, cursor_rewound hu' hp]
  simp only [rewound, values, hfg.longest_eq hr]

end Formulary.Forest
