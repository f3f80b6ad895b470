/-
Which texts a session accepts, and what it makes of them. Reading, the yard and the assembling of
trees know nothing of each other; together they accept exactly the formulas, and what stands under
the new root is the one tree that precedence and grouping give the formula.
-/
import Formulary.Proofs.Session.Runs
import Formulary.Proofs.Reading.Building
import Formulary.Proofs.Reading.Completeness

namespace Formulary

open Reading Text

namespace Session

/-- A text means a tree: it is a formula that may be read, and this is the tree of its expression. -/
def Means (s : Session) (text : String) (t : Tree) : Prop :=
  ∃ φ : Formula, φ.Spells text.toList ∧ φ.Admitted s.scope ∧
    ∃ ops ts g, φ.body.Builds s.bindings s.forest (ops, ts) g ∧ Groups ops ts t

/-- A session has gained a tree: it stands behind the nodes there were, which are still the same,
and is the current one and the latest. -/
structure Gained (s s' : Session) (root : NodeId) (t : Tree) : Prop where
  stands : s'.forest.Stands root t
  behind : s.forest.size ≤ root
  kept : ∀ id node, s.forest.get? id = some node → s'.forest.get? id = some node
  current : s'.root? = some root
  trees : s'.trees = s.trees.push root

variable {s : Session} {text : String} {φ : Formula}

/-- What has been read as a formula is accepted with the tree the formula comes to. -/
theorem parse_of_builds (he : (read s.scope text).error? = none)
    (htarget : (read s.scope text).target = φ.target.map String.ofList)
    (htokens : (read s.scope text).tokens = φ.body.tokens) (ha : φ.body.Applied) {ops : List Operator}
    {ts : List Tree} {t : Tree} {g : Forest} (hb : φ.body.Builds s.bindings s.forest (ops, ts) g)
    (ht : Groups ops ts t) :
    ∃ width, s.parse text = s.accept text (φ.target.map String.ofList) (t.plant g).1 (t.plant g).2 width := by
  obtain ⟨d, hd, hfin⟩ := hb.takeAll ha ht
  refine ⟨d.width, ?_⟩
  rw [parse_eq]
  unfold build draft
  simp only [htokens, hd, he, hfin, htarget]

/-- A formula that may be read has a tree. -/
theorem exists_tree (ha : φ.Admitted s.scope) : ∃ ops ts t g,
    φ.body.Builds s.bindings s.forest (ops, ts) g ∧ Groups ops ts t := by
  obtain ⟨⟨ops, ts⟩, g, hb⟩ := φ.body.exists_builds ha.applied ha.bound s.forest
  obtain ⟨t, ht⟩ := Groups.exists_of_length (hb.suits ha.applied).1
  exact ⟨ops, ts, t, g, hb, ht⟩

/-- A text is accepted exactly when it is read without an error: whatever has been read well can be
put together. -/
theorem result_parse_iff (s : Session) (text : String) :
    (s.parse text).1.result = .ok () ↔ (read s.scope text).error? = none := by
  constructor
  · intro h
    rcases s.parse_cases text with ⟨error, forest, -, hp⟩ | ⟨d, root, forest, -, he, -, -⟩
    · rw [hp] at h
      cases h
    · exact he
  · intro he
    obtain ⟨φ, -, ha, htarget, htokens⟩ := read_sound he
    obtain ⟨ops, ts, t, g, hb, ht⟩ := exists_tree ha
    obtain ⟨width, hp⟩ := parse_of_builds he htarget htokens ha.applied hb ht
    rw [hp]
    exact result_accept ..

/-- The tree a formula comes to is gained. -/
theorem gained_accept {ops : List Operator} {ts : List Tree} {t : Tree} {g : Forest}
    (hb : φ.body.Builds s.bindings s.forest (ops, ts) g) (target : Option String) (width : Nat) :
    s.Gained (s.accept text target (t.plant g).1 (t.plant g).2 width).2 (t.plant g).1 t where
  stands := by
    rw [forest_accept]
    exact Forest.stands_plant t g
  behind := by
    rw [← Forest.size_congr hb.nodes]
    exact Forest.size_le_plant t g
  kept id node hn := by
    rw [forest_accept]
    exact (Forest.extends_plant t g).nodes (by rwa [Forest.get?_congr hb.nodes])
  current := root?_accept ..
  trees := trees_accept ..

/-- A formula that may be read is accepted with the tree it comes to, and bound to its root. -/
theorem gained_of_spells (hp : s.options.matchPolicy = .longest) (hs : φ.Spells text.toList) (ha : φ.Admitted s.scope)
    {ops : List Operator} {ts : List Tree} {t : Tree} {g : Forest}
    (hb : φ.body.Builds s.bindings s.forest (ops, ts) g) (ht : Groups ops ts t) :
    s.Gained (s.parse text).2 (t.plant g).1 t ∧
      (s.parse text).2.bindings = (φ.target.map String.ofList).elim s.bindings (s.bindings.bind · (t.plant g).1) := by
  obtain ⟨he, htarget, htokens⟩ := read_complete hp hs ha
  obtain ⟨width, hparse⟩ := parse_of_builds he htarget htokens ha.applied hb ht
  rw [hparse]
  constructor
  · exact gained_accept hb ..
  · exact bindings_accept ..

/-- Only one tree can have been gained. -/
theorem Gained.unique {s' : Session} {root root' : NodeId} {t t' : Tree} (h : s.Gained s' root t)
    (h' : s.Gained s' root' t') : root' = root ∧ t' = t := by
  have roots : root' = root := Option.some.inj (h'.current.symm.trans h.current)
  subst roots
  exact ⟨rfl, h'.stands.unique h.stands⟩

/-- A text is accepted exactly when it is a formula whose functions have their arguments, whose
names are bound and whose brackets nest no deeper than allowed. Then the session gains the one tree
that the text means, and the name before the equals sign, if there is one, is bound to its root. -/
theorem parse_iff_formula (s : Session) (hp : s.options.matchPolicy = .longest) (text : String) :
    ((s.parse text).1.result = .ok () ↔ ∃ φ : Formula, φ.Spells text.toList ∧ φ.Admitted s.scope) ∧
    ((s.parse text).1.result = .ok () → ∃ root t, s.Gained (s.parse text).2 root t ∧
      (∀ u, s.Means text u ↔ u = t) ∧
      ∀ φ : Formula, φ.Spells text.toList → φ.Admitted s.scope →
        (s.parse text).2.bindings = (φ.target.map String.ofList).elim s.bindings (s.bindings.bind · root)) := by
  constructor
  · rw [result_parse_iff]
    constructor
    · intro he
      obtain ⟨φ, hs, ha, -, -⟩ := read_sound he
      exact ⟨φ, hs, ha⟩
    · rintro ⟨φ, hs, ha⟩
      exact (read_complete hp hs ha).1
  · intro hok
    obtain ⟨φ, hs, ha, -, -⟩ := read_sound ((result_parse_iff s text).1 hok)
    obtain ⟨ops, ts, t, g, hb, ht⟩ := exists_tree ha
    obtain ⟨gained, -⟩ := gained_of_spells hp hs ha hb ht
    -- whatever the text is read as has gained its tree in the same parse
    refine ⟨(t.plant g).1, t, gained, fun u => ?_, fun ψ hs' ha' => ?_⟩
    · constructor
      · rintro ⟨ψ, hs', ha', ops', ts', g', hb', hu⟩
        exact (gained.unique (gained_of_spells hp hs' ha' hb' hu).1).2
      · rintro rfl
        exact ⟨φ, hs, ha, ops, ts, g, hb, ht⟩
    · obtain ⟨ops', ts', u, g', hb', hu⟩ := exists_tree ha'
      obtain ⟨gained', bound⟩ := gained_of_spells hp hs' ha' hb' hu
      rw [bound, (gained.unique gained').1]

/-- A power before a product: `2^E*3` multiplies, although the power groups to the right. -/
def powerTimes : Tree :=
  .binary "*" .times (.binary "^" .power (.leaf "2" (.number (Number.ofNumeral "2"))) (.call "E" .euler []))
    (.leaf "3" (.number (Number.ofNumeral "3")))

theorem parse_powerTimes : (new {}).options.matchPolicy = .longest ∧ ((new {}).parse "2^E*3").1.result = .ok () ∧
    ∃ root, ((new {}).parse "2^E*3").2.root? = some root ∧
      ((new {}).parse "2^E*3").2.forest.Stands root powerTimes := by
  let φ : Formula := ⟨none, .chain (.number ['2']) .power (.chain (.constant .euler) .times (.single (.number ['3'])))⟩
  have word : Word Builtin.euler.symbol.toList ['*', '3'] := word_symbol .euler rfl
  have spells : φ.Spells "2^E*3".toList :=
    .plain (.chain 0 0 (.number (numeral_digit rfl)) (.chain 0 0 (.constant word)
      (.single 0 0 (.number (numeral_digit rfl)))))
  have admitted : φ.Admitted (new {}).scope := ⟨⟨trivial, rfl, trivial⟩, by simp [φ, Phrase.names], by decide⟩
  have means : (new {}).Means "2^E*3" powerTimes :=
    ⟨φ, spells, admitted, _, _, _, .chain _ (.number _) (.chain _ (.constant _) (.single (.number _))),
      .binary (.binary (.single _) (.single _) (by decide) (by decide)) (.single _) (by decide) (by decide)⟩
  obtain ⟨accepted, gained⟩ := parse_iff_formula (new {}) rfl "2^E*3"
  have hok := accepted.2 ⟨φ, spells, admitted⟩
  obtain ⟨root, t, hgained, hmeans, -⟩ := gained hok
  exact ⟨rfl, hok, root, hgained.current, (hmeans _).1 means ▸ hgained.stands⟩

end Session

end Formulary
