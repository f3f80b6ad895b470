/-
What a refused formula leaves behind. Nothing of it is kept but the cursors it has moved: names that
were read have put lists back on their first items, and items that were complete have read on in
them. Each cursor is where its trail through the tokens read ends, so a refused formula leaves the
session as it was exactly when every trail ends where it began.
-/
import Formulary.Proofs.Session.Acceptance
import Formulary.Proofs.Session.Layout
import Formulary.Proofs.Reading.Trail

namespace Formulary

open Reading Text

namespace Session

/-- Where the tokens read of a text leave the cursor at a place. -/
def trail (s : Session) (text : String) (place : NodeId) : Nat :=
  (Trail.follow s.bindings s.forest place { cursor := s.forest.cursor place } (read s.scope text).tokens).cursor

variable {s : Session} {text : String} {error : ReadError}

/-- The tokens read before an error are always taken, and the forest they lead to stays. -/
theorem exists_draft_of_refused (he : (s.parse text).1.result = .error error) :
    ∃ d, s.draft.takeAll s.bindings (read s.scope text).tokens = some d ∧
      (s.parse text).2 = { s with forest := d.forest } := by
  have hne : (read s.scope text).error? ≠ none := by
    intro h
    rw [(result_parse_iff s text).2 h] at he
    cases he
  obtain ⟨e, hread⟩ := Option.ne_none_iff_exists'.1 hne
  obtain ⟨d, hd⟩ := s.exists_takeAll text
  have kept := (Draft.Over.start s.bindings s.forest).takeAll hd
  refine ⟨d, hd, ?_⟩
  rw [parse_of_error hd hread]
  show { s with forest := d.forest.truncate s.forest.size } = _
  rw [← kept.size, Forest.truncate_size]

/-- After any run: a refused formula changes nothing but cursors, and these are where their trails
end. So the session is as it was exactly when every trail ends where it began, and certainly when
no name that was read reaches a list. -/
theorem Reachable.refused (h : s.Reachable) (he : (s.parse text).1.result = .error error) :
    (s.parse text).2 = { s with forest := (s.parse text).2.forest } ∧
    (s.parse text).2.forest.nodes = s.forest.nodes ∧
    (∀ place, place < s.forest.size → (s.parse text).2.forest.cursor place = s.trail text place) ∧
    ((s.parse text).2 = s ↔ ∀ place, place < s.forest.size → s.trail text place = s.forest.cursor place) ∧
    ((∀ name target, ⟨name, .variable⟩ ∈ (read s.scope text).tokens → s.bindings.lookup name = some target →
      ∀ place ∈ s.forest.reachable target, s.forest.listSize? place = none) → (s.parse text).2 = s) := by
  obtain ⟨d, hd, hp⟩ := exists_draft_of_refused he
  have laid := h.laid
  have kept := (Draft.Over.start s.bindings s.forest).takeAll hd
  have bound : ∀ name target, s.bindings.lookup name = some target → target < s.forest.size :=
    fun name target hl => laid.lt_size (laid.bound name target hl)
  have cursors : ∀ place, place < s.forest.size → d.forest.cursor place = s.trail text place := fun place hplace =>
    ((Draft.Tracks.start s.bindings s.forest place).takeAll laid.descends bound hplace hd).cursor
  have same : (s.parse text).2 = s ↔ ∀ place, place < s.forest.size → s.trail text place = s.forest.cursor place := by
    rw [hp]
    constructor
    · intro hs place hplace
      rw [← cursors place hplace]
      exact congrArg (fun s : Session => s.forest.cursor place) hs
    · intro hcursor
      have forest : d.forest = s.forest := by
        refine Forest.ext_cursor kept.nodes fun place => ?_
        by_cases hplace : place < s.forest.size
        · rw [cursors place hplace, hcursor place hplace]
        · have hle := Nat.le_of_not_lt hplace
          rw [Forest.cursor_of_size_le hle, Forest.cursor_of_size_le (by rw [kept.size]; exact hle)]
      rw [forest]
  refine ⟨by rw [hp], by rw [hp]; exact kept.nodes, fun place hplace => by rw [hp]; exact cursors place hplace, same,
    fun hreach => same.2 fun place _ => ?_⟩
  exact Trail.cursor_follow_of_unreached laid.descends bound (.inr ⟨rfl, by simp⟩)
    fun name target hn hl hmem => hreach name target hn hl place hmem

/-- A session in which `a` was bound to a list of two items. -/
def listBound : Session :=
  ((new {}).parse "a=[1,2]").2

theorem listBound_eq : ∃ (f : Forest) (width : Nat) (v w : Value),
    listBound = ⟨{}, f, Bindings.empty.bind "a" 0, #[0], some 0, some "a=[1,2]", width⟩ ∧
      f.size = 1 ∧ f.cursor 0 = 0 ∧ f.get? 0 = some ⟨"", .leaf (.list #[v, w])⟩ := by
  let φ : Formula := ⟨some ['a'], .single (.list (.more (.single (.number ['1'])) (.item (.single (.number ['2'])))))⟩
  have spells : φ.Spells "a=[1,2]".toList :=
    .assign 0 0 (by simp) (fun c hc => List.mem_singleton.1 hc ▸ rfl) (by decide)
      (.single 0 0 (.list (.more (.single 0 0 (.number (numeral_digit rfl)))
        (.item (.single 0 0 (.number (numeral_digit rfl)))))))
  have admitted : φ.Admitted (new {}).scope := ⟨⟨trivial, trivial⟩, by simp [φ, Phrase.names], by decide⟩
  have builds : ∃ v w g, φ.body.Builds (new {}).bindings (new {}).forest ([], [.leaf "" (.list #[v, w])]) g :=
    ⟨_, _, _, .single (.list (.more (.single (.number _)) (.single _) (.item (.single (.number _)) (.single _))))⟩
  obtain ⟨he, htarget, htokens⟩ := read_complete rfl spells admitted
  obtain ⟨v, w, g, hb⟩ := builds
  obtain ⟨width, hp⟩ := parse_of_builds he htarget htokens admitted.applied hb (.single _)
  have hsize : g.size = 0 := Forest.size_congr hb.nodes
  refine ⟨(g.alloc ⟨"", .leaf (.list #[v, w])⟩).2, width, v, w, ?_, by rw [Forest.size_alloc, hsize], ?_, ?_⟩
  · rw [listBound, hp]
    simp only [Tree.plant, Forest.alloc_fst, hsize]
    rfl
  · rw [Forest.cursor_alloc, Forest.cursor_of_size_le (Nat.le_of_eq hsize)]
  · rw [← hsize]
    exact Forest.get?_alloc_self g _

theorem longest_listBound : listBound.options.matchPolicy = .longest := by
  obtain ⟨f, width, v, w, hs, -⟩ := listBound_eq
  rw [hs]

theorem scope_listBound : listBound.scope = ⟨.longest, 256, (Bindings.empty.bind "a" 0).contains⟩ := by
  obtain ⟨f, width, v, w, hs, -⟩ := listBound_eq
  rw [hs]
  rfl

theorem lookup_listBound : listBound.bindings.lookup (String.ofList ['a']) = some 0 := by
  obtain ⟨f, width, v, w, hs, -⟩ := listBound_eq
  rw [hs]
  rfl

/-- How formulas spell `a`. -/
theorem spells_a {rest : List Char} (h : ∀ c, rest.head? = some c → isNameChar c = false) :
    Phrase.Spells (.name ['a']) ('a' :: rest) rest :=
  .name ⟨by simp, fun c hc => List.mem_singleton.1 hc ▸ rfl, h⟩ fun f => by cases f <;> simp [Builtin.symbol]

/-- The item of a list that was never closed has read on in `a`. -/
theorem refused_listBound : listBound.Reachable ∧ (∃ error, (listBound.parse "[a").1.result = .error error) ∧
    (listBound.parse "[a").2 ≠ listBound := by
  have reached : listBound.Reachable := .parse _ (.new {})
  obtain ⟨f, width, v, w, hs, hsize, hcursor, hlist⟩ := listBound_eq
  have hscope : listBound.scope = ⟨.longest, 256, (Bindings.empty.bind "a" 0).contains⟩ := by rw [hs]; rfl
  have htokens : (read listBound.scope "[a").tokens = [⟨"", .listStart⟩, ⟨"a", .variable⟩, ⟨"", .itemEnd⟩] := by
    rw [hscope]
    decide +kernel
  have herror : (read listBound.scope "[a").error? ≠ none := by
    rw [hscope]
    decide +kernel
  obtain ⟨error, he⟩ : ∃ error, (listBound.parse "[a").1.result = .error error := by
    cases hr : (listBound.parse "[a").1.result with
    | error error => exact ⟨error, rfl⟩
    | ok u => exact absurd ((result_parse_iff listBound "[a").1 hr) herror
  refine ⟨reached, ⟨error, he⟩, fun same => ?_⟩
  obtain ⟨-, -, -, unchanged, -⟩ := reached.refused he
  have hcount : f.readCount 0 0 = 1 := by
    rw [Forest.readCount_eq (.list hlist) (by rw [hsize]; rfl)]
    rfl
  have hreach : 0 ∈ f.reachable 0 := (Forest.mem_reachable f 0 0).2 ⟨by rw [hsize]; exact Nat.one_pos, .refl⟩
  have hlookup : (Bindings.empty.bind "a" 0).lookup "a" = some 0 := rfl
  have htrail : listBound.trail "[a" 0 = 1 := by
    rw [Session.trail, htokens, hs]
    simp [Trail.follow, Trail.step, hlookup, hcount, hreach, Forest.listSize?, hlist, FullTree.after, FullTree.nextItem,
      hcursor]
  have hzero := unchanged.1 same 0 (by rw [hs]; exact hsize ▸ Nat.one_pos)
  rw [htrail, hs, hcursor] at hzero
  cases hzero

end Session

end Formulary
