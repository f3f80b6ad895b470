/-
Where the cursors of a formula's lists stand once it has been accepted. The lists that it spells out
are new, so theirs are at zero. Every name has put the cursors of the lists it reaches back, but an
item of a list literal is evaluated while the formula is read, and takes them on. So the cursor of an
old list is at zero exactly if the last name that reaches it stands outside of all list literals.
-/
import Formulary.Proofs.Session.Refusal
import Formulary.Proofs.Reading.Mention

namespace Formulary.Session

open Reading

/-- Whether the last name of a text that reaches a place stands inside of a list literal, if there is
such a name. -/
def lastMention (s : Session) (text : String) (place : NodeId) : Option Bool :=
  (Mention.follow s.bindings s.forest place {} (read s.scope text).tokens).inside?

variable {s : Session} {text : String} {place : NodeId} {size : Nat}

/-- Once a formula has been read, its last mention of a list tells where the trail of the list has
ended. -/
theorem Laid.tells (laid : s.Laid) (he : (read s.scope text).error? = none)
    (hs : s.forest.listSize? place = some size) :
    (Mention.follow s.bindings s.forest place {} (read s.scope text).tokens).Tells size
        (Trail.follow s.bindings s.forest place { cursor := s.forest.cursor place } (read s.scope text).tokens) ∧
      (Trail.follow s.bindings s.forest place { cursor := s.forest.cursor place }
        (read s.scope text).tokens).outer = [] := by
  obtain ⟨φ, -, -, -, htokens⟩ := read_sound he
  rw [htokens]
  exact φ.body.follows laid.descends laid.lookup_lt hs {} _ (.start size _)

/-- The trail of a list that is mentioned ends with the cursor at zero exactly if the last mention is
outside of all list literals, or if there is no item to read. -/
theorem Laid.trail_eq_zero_iff (laid : s.Laid) (he : (read s.scope text).error? = none)
    (hs : s.forest.listSize? place = some size) (hm : s.lastMention text place ≠ none) :
    s.trail text place = 0 ↔ size = 0 ∨ s.lastMention text place = some false := by
  obtain ⟨told, outer⟩ := laid.tells he hs
  refine ⟨fun hzero => ?_, ?_⟩
  · cases hlast : s.lastMention text place with
    | none => exact absurd hlast hm
    | some inside =>
      cases inside with
      | false => exact .inr rfl
      | true =>
        -- no list is open any more, so the item that mentions the list has been read
        by_contra hne
        have none : Trail.inner (Trail.follow s.bindings s.forest place { cursor := s.forest.cursor place }
            (read s.scope text).tokens) = [] := by
          rw [Trail.inner, outer]
          rfl
        rcases told.inside hlast (by omega) with moved | ⟨n, hn, -⟩
        · exact Nat.ne_of_gt moved hzero
        · rw [none] at hn
          cases hn
  · rintro (hzero | houtside)
    · exact told.empty hm hzero
    · exact (told.outside houtside).1

/-- What the new tree reaches of the old lists has been mentioned. -/
theorem Laid.mentioned (laid : s.Laid) (he : (read s.scope text).error? = none)
    (hs : s.forest.listSize? place = some size) {d : Draft} {root : NodeId} {g : Forest}
    (hd : s.draft.takeAll s.bindings (read s.scope text).tokens = some d)
    (hfin : d.yard.finish d.forest = (some root, g)) (hr : g.Reaches root place) :
    s.lastMention text place ≠ none := by
  have kept := (Draft.Over.start s.bindings s.forest).takeAll hd
  have grown := Forest.grown_finish hfin
  have live := Forest.live_of_listSize? hs
  have still : place < d.forest.size := by rwa [kept.size]
  obtain ⟨label, items, hp, -⟩ := Forest.get?_of_listSize? hs
  have isList : (g.listSize? place).isSome := by
    rw [Forest.listSize?_congr ((grown.get?_eq still).trans (Forest.get?_congr kept.nodes place)), hs]
    rfl
  obtain ⟨a, ha, target, ht, hmem, -⟩ := Infix.Yard.refers_of_finish (laid.descends.congr kept.nodes.symm)
    (kept.targets_lt laid.lookup_lt) hfin still hr isList
  obtain ⟨name, hname⟩ := kept.bound a ha target ht
  rw [Forest.mem_reachable_congr kept.nodes, Forest.mem_reachable] at hmem
  have read := Forest.readCount_pos (laid.descends.grounded (laid.lookup_lt name target hname)) hmem.2 hp
  -- without a mention nothing at hand would read the list
  intro unmentioned
  have tracks := (Draft.Tracks.start s.bindings s.forest place).takeAll laid.descends laid.lookup_lt live hd
  have none := (laid.tells he hs).1.unmentioned unmentioned _ (List.mem_cons_self ..)
  rw [← tracks.reads, Forest.weights, List.sum_eq_zero_iff] at none
  have weight := none _ (List.mem_map_of_mem ha)
  rw [Forest.weight, ht] at weight
  exact Nat.ne_of_gt read weight

/-- For every session that has come about and every formula it accepts: the cursor of a list that the
new tree reaches is at zero if the formula has spelled the list out, and otherwise where its trail has
ended. That is zero exactly if the last name that reaches the list stands outside of all list literals
(or the list is empty). The first values go on from there, round and round. -/
theorem Reachable.starting (h : s.Reachable) (hok : (s.parse text).1.result = .ok ()) :
    ∃ root, (s.parse text).2.root? = some root ∧ ∀ place label items,
      (s.parse text).2.forest.Reaches root place →
      (s.parse text).2.forest.get? place = some ⟨label, .leaf (.list items)⟩ →
      (s.parse text).2.forest.cursor place = (if place < s.forest.size then s.trail text place else 0) ∧
      ((s.parse text).2.forest.cursor place = 0 ↔
        s.forest.size ≤ place ∨ items.size = 0 ∨ s.lastMention text place = some false) ∧
      ∀ width, FullTree.readsOf place ((s.parse text).2.forest.broadcastReads root width) =
        FullTree.cycle items ((s.parse text).2.forest.cursor place)
          (max width 1 * (s.parse text).2.forest.readCount place root) := by
  have laid := h.laid
  have he := (result_parse_iff s text).1 hok
  obtain ⟨d, root, g, hd, hfin, hp⟩ := parse_of_ok hok
  have kept := (Draft.Over.start s.bindings s.forest).takeAll hd
  have grown := Forest.grown_finish hfin
  obtain ⟨descends, spans⟩ := laid.finish hd hfin
  rw [hp, forest_accept, root?_accept]
  refine ⟨root, rfl, fun place label items hr hn => ?_⟩
  have reads : ∀ width, FullTree.readsOf place (g.broadcastReads root width) =
      FullTree.cycle items (g.cursor place) (max width 1 * g.readCount place root) := by
    intro width
    obtain ⟨t, hu, hh⟩ := (descends.grounded spans.root_bounds.2).exists_unfolds
    rw [Forest.broadcastReads, (Forest.goesRound_readsMore (max width 1) hn hu hh).2, Forest.readCount_eq hu hh]
  by_cases old : place < s.forest.size
  · have same : g.get? place = s.forest.get? place :=
      (grown.get?_eq (by rwa [kept.size])).trans (Forest.get?_congr kept.nodes place)
    have hs : s.forest.listSize? place = some items.size := by rw [Forest.listSize?, ← same, hn]
    have cursor : g.cursor place = s.trail text place :=
      (grown.cursor place).trans
        ((Draft.Tracks.start s.bindings s.forest place).takeAll laid.descends laid.lookup_lt old hd).cursor
    have zero := laid.trail_eq_zero_iff he hs (laid.mentioned he hs hd hfin hr)
    refine ⟨by rw [if_pos old, cursor], ?_, reads⟩
    rw [cursor, zero]
    exact ⟨.inr, fun h => h.resolve_left (Nat.not_le_of_lt old)⟩
  · have new := Nat.le_of_not_lt old
    have cursor : g.cursor place = 0 :=
      (grown.cursor place).trans (Forest.cursor_of_size_le (by rwa [kept.size]))
    exact ⟨by rw [if_neg old, cursor], iff_of_true cursor (.inl new), reads⟩

theorem reaches_listBound : ∃ root, (listBound.parse "a+[a]").2.root? = some root ∧
    (listBound.parse "a+[a]").2.forest.Reaches root 0 := by
  let φ : Formula := ⟨none, .chain (.name ['a']) .plus (.single (.list (.item (.single (.name ['a'])))))⟩
  have first : Phrase.Spells (.name ['a']) ['a', '+', '[', 'a', ']'] ['+', '[', 'a', ']'] := spells_a (by simp; rfl)
  have second : Phrase.Spells (.name ['a']) ['a', ']'] [']'] := spells_a (by simp; rfl)
  have spells : φ.Spells "a+[a]".toList :=
    .plain (.chain 0 0 first (.single 0 0 (.list (.item (.single 0 0 second)))))
  have admitted : φ.Admitted listBound.scope := by
    rw [scope_listBound]
    exact ⟨⟨trivial, trivial⟩, by decide, by decide⟩
  obtain ⟨v, ops, ts, g, hb, ht⟩ : ∃ v ops ts g, φ.body.Builds listBound.bindings listBound.forest (ops, ts) g ∧
      Groups ops ts (.binary "+" .plus (.leaf "a" (.variable "a" 0)) (.leaf "" (.list #[v]))) :=
    ⟨_, _, _, _, .chain _ (.name lookup_listBound)
        (.single (.list (.item (.single (.name lookup_listBound)) (.single _)))),
      .binary (.single _) (.single _) (by decide) (by decide)⟩
  have gained : ∃ root, listBound.Gained (listBound.parse "a+[a]").2 root
      (.binary "+" .plus (.leaf "a" (.variable "a" 0)) (.leaf "" (.list #[v]))) :=
    ⟨_, (gained_of_spells longest_listBound spells admitted hb ht).1⟩
  generalize (listBound.parse "a+[a]").2 = s' at gained ⊢
  obtain ⟨root, gained⟩ := gained
  refine ⟨root, gained.current, ?_⟩
  cases gained.stands with
  | binary hn hl hr =>
    cases hl with
    | leaf hl =>
      exact .head ⟨_, hn, by simp [Node.references, Node.children]⟩
        (.single ⟨_, hl, by simp [Node.references]⟩)

/-- In `a+[a]` the last name stands in a list literal, whose item has read on in `a`. -/
theorem starting_listBound : listBound.Reachable ∧ (listBound.parse "a+[a]").1.result = .ok () ∧
    ∃ root, (listBound.parse "a+[a]").2.root? = some root ∧ (listBound.parse "a+[a]").2.forest.Reaches root 0 ∧
      (listBound.parse "a+[a]").2.forest.cursor 0 ≠ 0 := by
  have reached : listBound.Reachable := .parse _ (.new {})
  have hok : (listBound.parse "a+[a]").1.result = .ok () := by
    rw [result_parse_iff, scope_listBound]
    decide +kernel
  obtain ⟨root, hroot, hr⟩ := reaches_listBound
  refine ⟨reached, hok, root, hroot, hr, ?_⟩
  obtain ⟨f, width, v, w, hs, hsize, hcursor, hlist⟩ := listBound_eq
  obtain ⟨root', hroot', starting⟩ := reached.starting hok
  cases hroot.symm.trans hroot'
  have hn : (listBound.parse "a+[a]").2.forest.get? 0 = some ⟨"", .leaf (.list #[v, w])⟩ :=
    listBound.within_parse "a+[a]" 0 _ (by rw [hs]; exact hlist)
  obtain ⟨-, zero, -⟩ := starting 0 "" #[v, w] hr hn
  have hmention : listBound.lastMention "a+[a]" 0 = some true := by
    have htokens : (read listBound.scope "a+[a]").tokens =
        [⟨"a", .variable⟩, ⟨"+", .operator .plus⟩, ⟨"", .listStart⟩, ⟨"a", .variable⟩, ⟨"", .itemEnd⟩,
          ⟨"", .listEnd⟩] := by
      rw [scope_listBound]
      decide +kernel
    have hlookup : (Bindings.empty.bind "a" 0).lookup "a" = some 0 := rfl
    have hreach : 0 ∈ f.reachable 0 := (Forest.mem_reachable f 0 0).2 ⟨by rw [hsize]; exact Nat.one_pos, .refl⟩
    rw [lastMention, htokens, hs]
    simp [Mention.follow, Mention.step, hlookup, hreach]
  rw [Ne, zero, hmention, hs]
  simp [hsize]

end Formulary.Session
