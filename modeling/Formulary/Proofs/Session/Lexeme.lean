/-
What a session knows of the nodes of its trees. Each of them carries the text it was read from, and
what it means is what that text says; functions have all their parameters, lists have items, and no
cursor is past the last one.
-/
import Formulary.Proofs.Reading.Lexeme
import Formulary.Proofs.Session.Confinement

namespace Formulary

open Text Infix Reading

/-! ## Lexical nodes -/

/-- A node is what its text says: an operator or function its symbol, a variable its name, a number its
numeral; a list has no text, and some item. A function has all its parameters. -/
def Node.Lexical (node : Node) : Prop :=
  match node.content with
  | .leaf (.number x) => Numeral node.text.toList ∧ x = Number.ofNumeral node.text
  | .leaf (.variable name _) => node.text = name ∧ IsName name
  | .leaf (.list items) => node.text = "" ∧ 0 < items.size
  | .binary op _ _ => node.text = op.symbol
  | .call f params => node.text = f.symbol ∧ params.length = f.arity

theorem Node.lexical_of_atom {node : Node} (ha : node.atom.Lexical) (hp : node.Applied) : node.Lexical := by
  rcases node with ⟨text, (x | ⟨name, target⟩ | items) | ⟨op, lhs, rhs⟩ | ⟨f, params⟩⟩
  · exact ha
  · exact ha
  · exact ha
  · exact ha
  · exact ⟨ha, hp f params rfl⟩

namespace Forest

/-- The nodes that a planted tree adds are made for its atoms. -/
theorem atom_mem_plant {t : Tree} (h : t.Applied) {f : Forest} {id : NodeId} {node : Node} (hle : f.size ≤ id)
    (hn : (t.plant f).2.get? id = some node) : node.atom ∈ t.atoms := by
  have listed : (⟨t.atoms.toArray, [], 0⟩ : Yard).atoms = t.atoms := by simp [Yard.atoms]
  have := atom_mem_of_finish (finish_atoms h listed rfl f) hle hn
  rwa [listed] at this

/-- Every node of a forest is what its text says. -/
def Lexical (f : Forest) : Prop :=
  ∀ id node, f.get? id = some node → node.atom.Lexical

theorem Lexical.congr {f g : Forest} (h : f.Lexical) (hn : g.nodes = f.nodes) : g.Lexical :=
  fun id node hg => h id node (get?_congr hn id ▸ hg)

/-! ## Functions and their parameters -/

namespace Work

/-- Every function whose turn is still to come takes as many values as it has parameters. -/
def Fitted (w : Work) : Prop :=
  ∀ g count, .call g count ∈ w.tasks → count = g.arity

theorem fitted_visit {f : Forest} (ha : ∀ id node, f.get? id = some node → node.Applied) {height id : Nat}
    {g : Builtin} {count : Nat} (h : .call g count ∈ (f.visit height id).tasks) : count = g.arity := by
  unfold visit at h
  split at h
  · rename_i height node hn
    have applied := ha id node hn
    rcases node with ⟨text, (x | ⟨name, target⟩ | items) | ⟨op, lhs, rhs⟩ | ⟨g', params⟩⟩ <;> simp [expand] at h
    obtain ⟨rfl, rfl⟩ := h
    exact applied g params rfl
  · cases h

/-- One step: a visit leads to functions that have all their parameters, and nothing else adds any. -/
theorem fitted_next {w w' : Work} (ha : ∀ id node, w.forest.get? id = some node → node.Applied)
    (h : w.Fitted) (hn : w.next? = some w') : w'.Fitted := by
  rcases w with ⟨f, values, _ | ⟨⟨height, id⟩ | op | ⟨g, count⟩, rest⟩⟩
  · cases hn
  · cases hn
    intro g count hm
    rcases List.mem_append.1 hm with hm | hm
    · exact fitted_visit ha hm
    · exact h g count (List.mem_cons_of_mem _ hm)
  all_goals
    cases hn
    exact fun g count hm => h g count (List.mem_cons_of_mem _ hm)

theorem nodes_next {w w' : Work} (hn : w.next? = some w') : w'.forest.nodes = w.forest.nodes := by
  rcases w with ⟨f, values, _ | ⟨⟨height, id⟩ | op | ⟨g, count⟩, rest⟩⟩
  · cases hn
  · cases hn
    exact nodes_visit f height id
  all_goals
    cases hn
    rfl

/-- A whole evaluation: at every stage. -/
theorem fitted_trace {f : Forest} (ha : ∀ id node, f.get? id = some node → node.Applied) (id : NodeId) :
    ∀ stage ∈ (start f id).trace, stage.Fitted := by
  intro stage hs
  have kept := trace_keeps (P := fun w => w.forest.nodes = f.nodes ∧ w.Fitted) ?_ ⟨rfl, ?_⟩ stage hs
  · exact kept.2
  · rintro w w' ⟨hnodes, hfitted⟩ hn
    exact ⟨(nodes_next hn).trans hnodes,
      fitted_next (fun id node hw => ha id node (get?_congr hnodes id ▸ hw)) hfitted hn⟩
  · intro g count hm
    simp [start] at hm

end Work

end Forest

namespace Session

variable {s : Session}

/-- An accepted formula adds nodes for the pieces of its text. -/
theorem lexical_parse (h : s.forest.Lexical) (text : String) : (s.parse text).2.forest.Lexical := by
  rcases s.parse_cases text with ⟨error, forest, hn, hp⟩ | ⟨d, root, forest, hd, he, hfin, hp⟩
  · rw [hp]
    exact h.congr hn
  · obtain ⟨φ, hs, ha, htarget, htokens⟩ := read_sound he
    obtain ⟨ops, ts, t, g, hb, ht⟩ := exists_tree ha
    obtain ⟨width, hp⟩ := parse_of_builds he htarget htokens ha.applied hb ht
    rw [hp, forest_accept]
    intro id node hnode
    by_cases old : id < g.size
    · rw [(Forest.extends_plant t g).get?_eq old, Forest.get?_congr hb.nodes] at hnode
      exact h id node hnode
    · have made := Forest.atom_mem_plant (ht.applied (hb.suits ha.applied).2) (Nat.le_of_not_lt old) hnode
      obtain ⟨text, hspells⟩ := hs.body
      exact ht.lexical (hb.lexical hspells) _ made

theorem Reachable.lexical (h : s.Reachable) : s.forest.Lexical := by
  induction h with
  | new options => exact fun id node hn => by simp [Session.new, Forest.empty, Forest.get?] at hn
  | parse text _ ih => exact lexical_parse ih text
  | values _ ih => exact ih.congr (Asked.values _).nodes
  | evaluate id _ ih => exact ih.congr (Forest.nodes_evaluate _ id)
  | broadcast id width _ ih => exact ih.congr (Forest.nodes_broadcast _ id width)
  | rewind id _ ih => exact ih.congr (Forest.nodes_rewindLists _ id)

/-- For every session that has come about, under either policy: every node is what its text says, with
all parameters if it is a function, and no cursor is past the end of its list. So whenever a function is
applied in the evaluation of a node, it gets as many values as it has parameters. -/
theorem Reachable.wellFormed (h : s.Reachable) :
    (∀ id node, s.forest.get? id = some node → node.Lexical ∧
      ∀ items, node.content = .leaf (.list items) → s.forest.cursor id ≤ items.size) ∧
    ∀ id, id < s.forest.size → ∀ stage ∈ (Forest.Work.start s.forest id).trace, ∀ g count rest,
      stage.tasks = .call g count :: rest → (stage.values.take count).length = g.arity := by
  have laid := h.laid
  refine ⟨fun id node hn => ⟨Node.lexical_of_atom (h.lexical id node hn) (laid.applied id node hn), ?_⟩, ?_⟩
  · rcases node with ⟨text, content⟩
    rintro items rfl
    exact h.bounded id items.size (by simp [Forest.listSize?, hn])
  · intro id hid stage hs g count rest hcall
    have supplied := (supplied_of_descends laid.descends hid).2 stage hs
    have fitted := Forest.Work.fitted_trace laid.applied id stage hs g count (by simp [hcall])
    rw [Forest.Work.Supplied, hcall] at supplied
    rw [List.length_take_of_le supplied, fitted]

/-- A list and a formula with every other kind of node. -/
def everyKind : Session :=
  ((new { matchPolicy := .firstAccepting }).parse "a=[1,2]").2.parse "-1.5*log(a,2)" |>.2

theorem wellFormed_everyKind : everyKind.Reachable ∧
    everyKind.forest.nodes.toList.map Node.text = ["", "-1.5", "a", "2", "log", "*"] ∧
    ∀ id node, everyKind.forest.get? id = some node → node.Lexical := by
  have reached : everyKind.Reachable := .parse _ (.parse _ (.new _))
  exact ⟨reached, by decide +kernel, fun id node hn => (reached.wellFormed.1 id node hn).1⟩

end Session

end Formulary
