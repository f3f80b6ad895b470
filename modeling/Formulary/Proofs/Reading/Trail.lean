/-
Where the tokens of a formula leave a cursor. A variable puts the cursors of all lists it reaches on
their first items, and an item of a list is evaluated as soon as it is complete, which reads every
list as often as its variables do together. So the cursor at one place can be followed from token to
token, with nothing else in view than how many reads the items at hand have come to so far.
-/
import Formulary.Proofs.Reading.Frame
import Formulary.Proofs.Forest.Counting

namespace Formulary

open Infix Forest

namespace Reading

/-- A cursor on its way through the tokens of a formula, with the number of reads that evaluating
the item at hand will take, and those for what rests around it, the innermost first. -/
structure Trail where
  cursor : Nat
  reads : Nat := 0
  outer : List Nat := []
  deriving DecidableEq, Repr

/-- Follows one token. -/
def Trail.step (b : Bindings) (f : Forest) (place : NodeId) (trail : Trail) (token : Token) : Trail :=
  match token.kind with
  | .variable =>
    match b.lookup token.text with
    | none => trail
    | some target =>
      { trail with
        cursor := if place ∈ f.reachable target ∧ (f.listSize? place).isSome then 0 else trail.cursor
        reads := trail.reads + f.readCount place target }
  | .listStart => { trail with reads := 0, outer := trail.reads :: trail.outer }
  | .itemEnd =>
    { trail with
      cursor := FullTree.after ((f.listSize? place).getD 0) trail.cursor trail.reads
      reads := 0 }
  | .listEnd => { trail with reads := trail.outer.headD 0, outer := trail.outer.tail }
  | _ => trail

/-- Follows tokens in turn. -/
def Trail.follow (b : Bindings) (f : Forest) (place : NodeId) (trail : Trail) (tokens : List Token) : Trail :=
  tokens.foldl (Trail.step b f place) trail

/-! ## Weights in a yard -/

variable {count : NodeId → Nat}

theorem weights_append (as bs : List Atom) : weights count (as ++ bs) = weights count as + weights count bs := by
  simp [weights]

theorem weight_mark (text : String) (m : Mark) : weight count ⟨text, .mark m⟩ = 0 := rfl

/-- Whatever is pushed adds its weight, and what is taken away has none. -/
theorem weights_push (y : Yard) (a : Atom) :
    weights count (y.push a).atoms = weights count y.atoms + weight count a := by
  have held : ∀ z : Yard, weights count (z.hold a).atoms = weights count z.atoms + weight count a := by
    intro z
    simp only [Yard.atoms, Yard.hold, weights_append]
    simp only [weights, List.map_cons, List.sum_cons]
    omega
  rcases a with ⟨text, operand | op | g | (_ | _ | _)⟩
  · simp only [Yard.push, Yard.atoms, Array.toList_push, weights_append]
    simp only [weights, List.map_cons, List.map_nil, List.sum_cons, List.sum_nil]
    omega
  · rw [Yard.push, held, Yard.atoms_release]
  · exact held y
  · rw [Yard.push, Yard.atoms_release, weight_mark, Nat.add_zero]
  · exact held y
  · -- only an opening parenthesis can be on top once everything else has gone out
    rw [weight_mark, Nat.add_zero, ← Yard.atoms_release y (!·.isOpening)]
    simp only [Yard.push, Yard.atoms, weights_append]
    have top := List.head?_dropWhile_not (!·.isOpening) y.waiting
    change weights count _ + weights count (y.waiting.dropWhile (!·.isOpening)).tail =
      weights count _ + weights count (y.waiting.dropWhile (!·.isOpening))
    cases hw : y.waiting.dropWhile (!·.isOpening) with
    | nil => rfl
    | cons a rest =>
      rw [hw] at top
      have hopening : a.isOpening = true := by simpa using top
      have hweight : weight count a = 0 := by
        rcases a with ⟨text, operand | op | g | (_ | _ | _)⟩ <;> first | rfl | cases hopening
      simp [weights, hweight]

/-! ## The draft on its trail -/

/-- A draft is where the trail says: the cursor, the reads of the formula or item at hand, and those
of what rests around it. -/
structure Draft.Tracks (b : Bindings) (f : Forest) (place : NodeId) (d : Draft) (trail : Trail) : Prop
    extends d.Over b f where
  cursor : d.forest.cursor place = trail.cursor
  reads : weights (f.readCount place) d.yard.atoms = trail.reads
  resting : d.lists.map (fun list => weights (f.readCount place) list.outer.atoms) = trail.outer

namespace Draft.Tracks

variable {b : Bindings} {f : Forest} {place : NodeId} {d d' : Draft} {trail : Trail}

theorem start (b : Bindings) (f : Forest) (place : NodeId) :
    Draft.Tracks b f place { forest := f } { cursor := f.cursor place } where
  toOver := .start b f
  cursor := rfl
  reads := rfl
  resting := rfl

/-- An atom that is no variable changes nothing. -/
theorem add (h : d.Tracks b f place trail) {text : String} {meaning : Meaning}
    (hm : Infix.Atom.target? ⟨text, meaning⟩ = none) : (d.add text meaning).Tracks b f place trail where
  toOver := h.toOver.add (by simp [hm])
  cursor := h.cursor
  reads := by
    show weights _ (d.yard.push _).atoms = _
    rw [weights_push, h.reads, weight, hm]
    rfl
  resting := h.resting

theorem addVariable (h : d.Tracks b f place trail) {name : String} {target : NodeId}
    (ht : b.lookup name = some target) :
    (d.addVariable name target).Tracks b f place (trail.step b f place ⟨name, .variable⟩) where
  toOver := h.toOver.addVariable ht
  cursor := by
    simp only [Trail.step, ht]
    show (d.forest.rewindLists target).2.cursor place = _
    simp only [cursor_rewindLists, mem_reachable_congr h.nodes, listSize?_congr (get?_congr h.nodes place), h.cursor]
  reads := by
    simp only [Trail.step, ht]
    show weights _ (d.yard.push _).atoms = _
    rw [weights_push, h.reads]
    rfl
  resting := by
    simp only [Trail.step, ht]
    exact h.resting

theorem beginList (h : d.Tracks b f place trail) :
    d.beginList.Tracks b f place (trail.step b f place ⟨"", .listStart⟩) where
  toOver := h.toOver.beginList
  cursor := h.cursor
  reads := rfl
  resting := by
    simp only [Draft.beginList, List.map_cons, h.reads, h.resting]
    rfl

/-- The item is put together and evaluated: its full tree has as many leaves for the list as its
variables read it, and going round the list takes the cursor on by so many. -/
theorem endItem (h : d.Tracks b f place trail) (hf : f.Descends)
    (hb : ∀ name target, b.lookup name = some target → target < f.size) (hp : place < f.size)
    (hd : d.endItem = some d') : d'.Tracks b f place (trail.step b f place ⟨"", .itemEnd⟩) := by
  have kept := h.toOver.endItem hd
  obtain ⟨list, others, root, g, hl, hfin, rfl⟩ := endItem_eq_some.1 hd
  obtain ⟨descends, spans⟩ := h.toOver.finish hf hb hfin
  have grown := grown_finish hfin
  obtain ⟨t, hu, hh⟩ := (descends.grounded spans.root_bounds.2).exists_unfolds
  -- every tree with a name counts so often, whatever cursors have moved
  have counted : ∀ a ∈ d.yard.atoms, ∀ target, a.target? = some target →
      d.forest.Counts place target (f.readCount place target) := by
    intro a ha target ht
    obtain ⟨name, hname⟩ := h.bound a ha target ht
    obtain ⟨u, hu, hh⟩ := (hf.grounded (hb name target hname)).exists_unfolds
    exact ⟨u, hu.congr h.nodes.symm, (readCount_eq hu hh place).symm⟩
  have count : t.lists.count place = trail.reads := by
    unfold Yard.finish at hfin
    split at hfin
    · have hroot : (d.forest.assemble [] d.yard.atoms).1 = some root := by rw [hfin]
      have hcounts := counts_assemble d.yard.atoms (by rw [h.toOver.size]; exact hp) .nil counted hroot
      rw [hfin] at hcounts
      obtain ⟨u, hu', hc⟩ := hcounts
      rw [hu.unique hu', hc, List.sum_nil, Nat.zero_add, h.reads]
    · cases hfin
  have same : g.get? place = f.get? place := by
    rw [grown.get?_eq (by rw [h.toOver.size]; exact hp), get?_congr h.nodes]
  have mark : list.mark = f.size := h.marks list (by rw [hl]; exact List.mem_cons_self ..)
  have resting := h.resting
  rw [hl] at resting
  refine ⟨kept, ?_, rfl, resting⟩
  show ((g.evaluate root).2.truncate list.mark).cursor place = _
  rw [cursor_truncate _ (by rw [mark]; exact hp), evaluate_eq_value hu hh, FullTree.cursor_value hu, count,
    listSize?_congr same, grown.cursor, h.cursor]
  rfl

theorem endList (h : d.Tracks b f place trail) {text : String} (hd : d.endList text = some d') :
    d'.Tracks b f place (trail.step b f place ⟨text, .listEnd⟩) := by
  have kept := h.toOver.endList hd
  obtain ⟨list, others, hl, rfl⟩ := endList_eq_some.1 hd
  have resting := h.resting
  rw [hl] at resting
  refine ⟨kept, h.cursor, ?_, ?_⟩
  · show weights _ (list.outer.push _).atoms = _
    rw [weights_push, Trail.step, ← resting]
    rfl
  · rw [Trail.step, ← resting]
    rfl

/-- One token. -/
theorem take (h : d.Tracks b f place trail) (hf : f.Descends)
    (hb : ∀ name target, b.lookup name = some target → target < f.size) (hp : place < f.size) {token : Token}
    (hd : d.take b token = some d') : d'.Tracks b f place (trail.step b f place token) := by
  rcases token with ⟨text, _ | _ | op | g | m | _ | _ | _⟩ <;> simp only [Draft.take] at hd
  · cases hd
    exact h.add rfl
  · obtain ⟨target, ht, rfl⟩ := Option.map_eq_some_iff.1 hd
    exact h.addVariable ht
  · cases hd
    exact h.add rfl
  · cases hd
    exact h.add rfl
  · cases hd
    exact h.add rfl
  · cases hd
    exact h.beginList
  · exact h.endItem hf hb hp hd
  · exact h.endList hd

/-- Any number of tokens. -/
theorem takeAll {tokens : List Token} (h : d.Tracks b f place trail) (hf : f.Descends)
    (hb : ∀ name target, b.lookup name = some target → target < f.size) (hp : place < f.size)
    (hd : d.takeAll b tokens = some d') : d'.Tracks b f place (trail.follow b f place tokens) := by
  induction tokens generalizing d trail with
  | nil =>
    cases hd
    exact h
  | cons token rest ih =>
    rw [Draft.takeAll] at hd
    split at hd
    · cases hd
    · rename_i d'' hstep
      exact ih (h.take hf hb hp hstep) hd

end Draft.Tracks

/-! ## Cursors that are left alone -/

namespace Trail

variable {b : Bindings} {f : Forest} {place : NodeId} {trail : Trail}

/-- Nothing at hand reads the list at the place, if there is one. -/
def Idle (f : Forest) (place : NodeId) (trail : Trail) : Prop :=
  f.listSize? place = none ∨ trail.reads = 0 ∧ ∀ n ∈ trail.outer, n = 0

theorem step_of_unreached (hf : f.Descends) (hb : ∀ name target, b.lookup name = some target → target < f.size)
    (hi : trail.Idle f place) {token : Token}
    (ht : ∀ target, token.kind = .variable → b.lookup token.text = some target → place ∈ f.reachable target →
      f.listSize? place = none) :
    (trail.step b f place token).cursor = trail.cursor ∧ (trail.step b f place token).Idle f place := by
  -- where there is no list, no token moves the cursor; where there is one, nothing reads it
  by_cases hs : f.listSize? place = none
  · refine ⟨?_, .inl hs⟩
    rcases token with ⟨text, _ | _ | op | g | m | _ | _ | _⟩ <;> simp only [step]
    · cases b.lookup text with
      | none => rfl
      | some target => simp [hs]
    · cases hr : trail.reads <;> simp [hs, FullTree.after]
  · obtain ⟨hreads, houter⟩ := hi.resolve_left hs
    rcases token with ⟨text, _ | _ | op | g | m | _ | _ | _⟩ <;> simp only [step]
    · exact ⟨trivial, .inr ⟨hreads, houter⟩⟩
    · cases hl : b.lookup text with
      | none => exact ⟨rfl, .inr ⟨hreads, houter⟩⟩
      | some target =>
        have hn : place ∉ f.reachable target := fun hmem => hs (ht target rfl hl hmem)
        have hc := readCount_eq_zero (hf.grounded (hb text target hl)) hn
        exact ⟨if_neg fun h => hn h.1, .inr ⟨by simp [hreads, hc], houter⟩⟩
    · exact ⟨trivial, .inr ⟨hreads, houter⟩⟩
    · exact ⟨trivial, .inr ⟨hreads, houter⟩⟩
    · exact ⟨trivial, .inr ⟨hreads, houter⟩⟩
    · exact ⟨trivial, .inr ⟨rfl, by simpa [hreads] using houter⟩⟩
    · exact ⟨by simp [hreads, FullTree.after], .inr ⟨rfl, houter⟩⟩
    · refine ⟨trivial, .inr ⟨?_, fun n hn => houter n (List.mem_of_mem_tail hn)⟩⟩
      cases ho : trail.outer with
      | nil => rfl
      | cons n rest => exact houter n (by rw [ho]; exact List.mem_cons_self ..)

/-- A cursor stays where it is when there is no list or no variable reaches it. -/
theorem cursor_follow_of_unreached (hf : f.Descends)
    (hb : ∀ name target, b.lookup name = some target → target < f.size) {tokens : List Token} (hi : trail.Idle f place)
    (ht : ∀ name target, ⟨name, .variable⟩ ∈ tokens → b.lookup name = some target → place ∈ f.reachable target →
      f.listSize? place = none) : (trail.follow b f place tokens).cursor = trail.cursor := by
  induction tokens generalizing trail with
  | nil => rfl
  | cons token rest ih =>
    have first : ∀ target, token.kind = .variable → b.lookup token.text = some target → place ∈ f.reachable target →
        f.listSize? place = none := by
      rcases token with ⟨text, kind⟩
      rintro target rfl hl
      exact ht text target (List.mem_cons_self ..) hl
    obtain ⟨hcursor, hidle⟩ := step_of_unreached hf hb hi first
    have others := ih hidle fun name target hn => ht name target (List.mem_cons_of_mem _ hn)
    exact others.trans hcursor

end Trail

end Reading

end Formulary
