/-
Trees mean the same forever. Reading formulas only adds nodes behind those there are, and nothing
that is asked of a session changes a node; names that are bound anew leave the trees alone that were
read before. So a tree that is evaluated from the first items of its lists on answers at any later
time as it did when it was built.
-/
import Formulary.Proofs.Session.Layout
import Formulary.Proofs.Session.Acceptance
import Formulary.Proofs.Forest.Rewound

namespace Formulary.Session

open Reading Relation

/-- One step keeps all nodes. -/
theorem Step.within {s s' : Session} (h : s.Step s') : s.forest.Within s'.forest := by
  cases h with
  | parse text => exact s.within_parse text
  | asked ha => exact .of_nodes ha.nodes.symm

/-- And so does a whole run. -/
theorem Later.within {s s' : Session} (h : s.Later s') : s.forest.Within s'.forest := by
  induction h with
  | refl => exact .refl _
  | tail _ hs ih => exact ih.trans hs.within

/-- For every run: a formula that is accepted has a root, and at every later point of the run, after
whatever formulas, accepted or refused, and whatever has been asked, the tree at that root has the
longest list and, from the first items of its lists on, the values that it had when it was built. -/
theorem Reachable.lasting {s : Session} (h : s.Reachable) {text : String}
    (hok : (s.parse text).1.result = .ok ()) :
    ∃ root, (s.parse text).2.root? = some root ∧ ∀ s', (s.parse text).2.Later s' →
      ∀ width, s'.forest.rewound root width = (s.parse text).2.forest.rewound root width := by
  obtain ⟨d, root, g, -, -, hp⟩ := parse_of_ok hok
  have built : (s.parse text).2.root? = some root := by rw [hp, root?_accept]
  have last : root ∈ (s.parse text).2.trees := by
    rw [hp, trees_accept]
    exact Array.mem_push_self
  have laid := h.laid.parse text
  have grounded := laid.descends.grounded (laid.lt_size last)
  exact ⟨root, built, fun s' later width => later.within.rewound_eq grounded width⟩

/-- The list of `a` after `a` has been bound anew, to a sum of its old list with itself, another
formula has been refused in the middle of a list, and all have been asked for their values. -/
theorem lasting_rebound : (new {}).Reachable ∧ ((new {}).parse "a=[1,2]").1.result = .ok () ∧
    ∃ root, ((new {}).parse "a=[1,2]").2.root? = some root ∧ ∀ width,
      (((((new {}).parse "a=[1,2]").2.parse "a=a+a").2.values.2.parse "[a").2).forest.rewound root width =
        ((new {}).parse "a=[1,2]").2.forest.rewound root width := by
  have reached : (new {}).Reachable := .new {}
  have hok : ((new {}).parse "a=[1,2]").1.result = .ok () :=
    (result_parse_iff _ _).2 (by decide +kernel)
  obtain ⟨root, hroot, lasting⟩ := reached.lasting hok
  refine ⟨reached, hok, root, hroot, lasting _ ?_⟩
  exact .tail (.tail (.single (.parse _ "a=a+a")) (.asked (.values _))) (.parse _ "[a")

end Formulary.Session
