/-
Which items the lists of a tree yield. A list goes round: its reads yield the items from the cursor
on, each in its turn, and after the last the first again. So over any number of evaluations of a
place the reads of one list run through its items without a gap, however the reads of other lists
fall in between, and as many as the full tree of the place has leaves for that list, times the
number of evaluations.
-/
import Formulary.Proofs.Forest.Machine

namespace Formulary

namespace FullTree

/-! ## A list that goes round -/

/-- The cursor of a list after a number of reads. -/
def after (size cursor : Nat) : (reads : Nat) → Nat
  | 0 => cursor
  | reads + 1 => if size = 0 then cursor else (nextItem size cursor + reads) % size + 1

/-- The items that a number of reads yield. -/
def cycle (items : Array Value) (cursor reads : Nat) : List Value :=
  (List.range reads).map fun k => items.getD ((nextItem items.size cursor + k) % items.size) .undefined

theorem nextItem_lt {size : Nat} (h : 0 < size) (cursor : Nat) : nextItem size cursor < size := by
  unfold nextItem
  split <;> assumption

theorem nextItem_mod {size cursor : Nat} (h : cursor ≤ size) (k : Nat) :
    (nextItem size cursor + k) % size = (cursor + k) % size := by
  unfold nextItem
  split
  · rfl
  · have : cursor = size := by omega
    rw [this, Nat.add_mod_left, Nat.zero_add]

theorem nextItem_after {size : Nat} (h : 0 < size) (cursor reads : Nat) :
    nextItem size (after size cursor reads) = (nextItem size cursor + reads) % size := by
  have hi := nextItem_lt h cursor
  cases reads with
  | zero => simp [after, Nat.mod_eq_of_lt hi]
  | succ n =>
    rw [after, if_neg (by omega), ← Nat.add_assoc, nextItem]
    have hlt := Nat.mod_lt (nextItem size cursor + n) h
    split
    · rename_i hc
      rw [← Nat.mod_add_mod (_ + n), Nat.mod_eq_of_lt hc]
    · have hlast : (nextItem size cursor + n) % size = size - 1 := by omega
      rw [← Nat.mod_add_mod, hlast, Nat.sub_add_cancel h, Nat.mod_self]

theorem after_add (size cursor a b : Nat) : after size (after size cursor a) b = after size cursor (a + b) := by
  rcases Nat.eq_zero_or_pos size with rfl | hs
  · cases a <;> cases b <;> simp [after]
  · cases b with
    | zero => rfl
    | succ b =>
      rw [after, if_neg (by omega), nextItem_after hs, ← Nat.add_assoc, after, if_neg (by omega), Nat.mod_add_mod,
        Nat.add_assoc]

theorem cycle_add (items : Array Value) (cursor a b : Nat) :
    cycle items cursor (a + b) = cycle items cursor a ++ cycle items (after items.size cursor a) b := by
  unfold cycle
  rw [List.range_add, List.map_append, List.map_map]
  congr 1
  refine List.map_congr_left fun k _ => ?_
  rcases Nat.eq_zero_or_pos items.size with hs | hs
  · have : items = #[] := Array.eq_empty_of_size_eq_zero hs
    subst this
    simp
  · rw [nextItem_after hs, Nat.mod_add_mod, Function.comp, Nat.add_assoc]

/-! ## The reads of one list -/

/-- The items that reads of the list at a place yield. -/
def readsOf (place : NodeId) (reads : List (NodeId × Value)) : List Value :=
  (reads.filter (·.1 == place)).map (·.2)

@[simp] theorem readsOf_nil (place : NodeId) : readsOf place [] = [] := rfl

theorem readsOf_append (place : NodeId) (reads reads' : List (NodeId × Value)) :
    readsOf place (reads ++ reads') = readsOf place reads ++ readsOf place reads' := by
  simp [readsOf]

/-- The list at a place goes round: its cursor ends behind as many reads as the tree has leaves for
it, and these reads yield its items in turn. -/
def GoesRound (place : NodeId) (items : Array Value) (cursor reads : Nat) (read : List (NodeId × Value))
    (cursor' : Nat) : Prop :=
  cursor' = after items.size cursor reads ∧ readsOf place read = cycle items cursor reads

theorem GoesRound.zero (place : NodeId) (items : Array Value) (cursor : Nat) :
    GoesRound place items cursor 0 [] cursor :=
  ⟨rfl, rfl⟩

theorem GoesRound.add {place : NodeId} {items : Array Value} {c c' c'' a b : Nat} {read read' : List (NodeId × Value)}
    (h : GoesRound place items c a read c') (h' : GoesRound place items c' b read' c'') :
    GoesRound place items c (a + b) (read ++ read') c'' := by
  obtain ⟨rfl, hr⟩ := h
  obtain ⟨rfl, hr'⟩ := h'
  exact ⟨after_add .., by rw [readsOf_append, hr, hr', cycle_add]⟩

section Tree

variable {place : NodeId} {text : String} {items : Array Value}

theorem goesRound_values {ts : List FullTree}
    (h : ∀ t ∈ ts, ∀ (f : Forest) (id : NodeId), f.get? place = some ⟨text, .leaf (.list items)⟩ → f.Unfolds id t →
      GoesRound place items (f.cursor place) (t.lists.count place) (t.reads f) ((t.value f).2.cursor place))
    {f : Forest} {ids : List NodeId} (hp : f.get? place = some ⟨text, .leaf (.list items)⟩)
    (hu : List.Forall₂ f.Unfolds ids ts) :
    GoesRound place items (f.cursor place) ((listsAll ts).count place) (readsAll ts f)
      ((values ts f).2.cursor place) := by
  induction ts generalizing f ids with
  | nil => exact .zero ..
  | cons t ts ih =>
    cases hu with
    | @cons id _ ids _ hu hus =>
      have hn := (t.nodes_value f).symm
      have first := h t (List.mem_cons_self ..) f id hp hu
      have others := ih (fun u hu => h u (List.mem_cons_of_mem _ hu)) (Forest.get?_congr hn place ▸ hp)
        (hus.imp fun _ _ hu => hu.congr hn)
      simpa [listsAll, readsAll, values, List.count_append] using first.add others

/-- Evaluating a tree takes every list of the forest round. -/
theorem goesRound_value (t : FullTree) (f : Forest) (id : NodeId)
    (hp : f.get? place = some ⟨text, .leaf (.list items)⟩) (hu : f.Unfolds id t) :
    GoesRound place items (f.cursor place) (t.lists.count place) (t.reads f) ((t.value f).2.cursor place) := by
  induction t using FullTree.induct generalizing f id with
  | number x => exact .zero ..
  | reference t ih =>
    cases hu with
    | reference _ ht => exact ih f _ hp ht
  | list id' items' =>
    cases hu with
    | list hn =>
      -- a read of this list takes its next item, a read of another one leaves it alone
      by_cases same : id' = place
      · subst same
        rw [hn] at hp
        cases hp
        simp only [lists, List.count_singleton_self, reads, value]
        rcases Nat.eq_zero_or_pos items.size with hs | hs
        · have : items = #[] := Array.eq_empty_of_size_eq_zero hs
          subst this
          exact ⟨rfl, by simp [readsOf, cycle]⟩
        · have hi := nextItem_lt hs (f.cursor id')
          rw [Array.getElem?_eq_getElem hi]
          constructor
          · rw [Forest.cursor_setCursor (Forest.get?_eq_some_lt hn), if_pos rfl]
            simp [after, Nat.ne_of_gt hs, Nat.mod_eq_of_lt hi]
          · simp [readsOf, cycle, Nat.mod_eq_of_lt hi, Array.getD, hi]
      · have away : GoesRound place items (f.cursor place) 0 [] (((list id' items').value f).2.cursor place) := by
          refine ⟨?_, rfl⟩
          simp only [value, after]
          split
          · rfl
          · rw [Forest.cursor_setCursor (Forest.get?_eq_some_lt hn), if_neg (Ne.symm same)]
        have none : readsOf place ((list id' items').reads f) = [] := by simp [readsOf, reads, same]
        have count : (list id' items').lists.count place = 0 := by simp [lists, same]
        rw [count]
        exact ⟨away.1, none⟩
  | binary op l r ihl ihr =>
    cases hu with
    | binary _ hl hr =>
      have hn := (l.nodes_value f).symm
      have left := ihl f _ hp hl
      have right := ihr (l.value f).2 _ (Forest.get?_congr hn place ▸ hp) (hr.congr hn)
      simpa [lists, reads, value, List.count_append] using left.add right
  | call g params ih =>
    cases hu with
    | call _ hts => exact goesRound_values ih hp hts

end Tree

/-! ## Several rounds -/

/-- The values of a tree, evaluated a number of times, and the forest as it is left. -/
def rounds (t : FullTree) : (times : Nat) → Forest → List Value × Forest
  | 0, f => ([], f)
  | times + 1, f =>
    let v := t.value f
    let vs := t.rounds times v.2
    (v.1 :: vs.1, vs.2)

end FullTree

namespace Forest

/-! ## The reads of a broadcast -/

/-- The reads of a number of evaluations of a place, in order. -/
def readsMore (id : NodeId) : (times : Nat) → Forest → List (NodeId × Value)
  | 0, _ => []
  | times + 1, f => (Work.start f id).reads ++ readsMore id times (f.evaluate id).2

/-- The reads of a broadcast, in order. -/
def broadcastReads (f : Forest) (id : NodeId) (width : Nat) : List (NodeId × Value) :=
  readsMore id (max width 1) f

section Broadcast

variable {id : NodeId} {t : FullTree}

theorem evaluateMore_eq_rounds (times : Nat) {f : Forest} (values : Array Value) (hu : f.Unfolds id t)
    (hh : t.height ≤ f.size) :
    evaluateMore id times values f = (values ++ (t.rounds times f).1.toArray, (t.rounds times f).2) := by
  induction times generalizing f values with
  | zero => simp [evaluateMore, FullTree.rounds]
  | succ n ih =>
    have hn := (t.nodes_value f).symm
    rw [evaluateMore, evaluate_eq_value hu hh]
    simp only [FullTree.rounds]
    rw [ih _ (hu.congr hn) (size_congr hn ▸ hh), Array.push_eq_append, Array.append_assoc]
    simp

/-- A broadcast is so many rounds of the recursion. -/
theorem broadcast_eq_rounds {f : Forest} (width : Nat) (hu : f.Unfolds id t) (hh : t.height ≤ f.size) :
    f.broadcast id width = ((t.rounds (max width 1) f).1.toArray, (t.rounds (max width 1) f).2) := by
  rw [broadcast, evaluateMore_eq_rounds _ _ hu hh]
  simp

variable {place : NodeId} {text : String} {items : Array Value}

theorem goesRound_readsMore (times : Nat) {f : Forest} (hp : f.get? place = some ⟨text, .leaf (.list items)⟩)
    (hu : f.Unfolds id t) (hh : t.height ≤ f.size) :
    FullTree.GoesRound place items (f.cursor place) (times * t.lists.count place) (readsMore id times f)
      ((t.rounds times f).2.cursor place) := by
  induction times generalizing f with
  | zero =>
    rw [Nat.zero_mul]
    exact .zero ..
  | succ n ih =>
    have hn := (t.nodes_value f).symm
    have first := FullTree.goesRound_value t f id hp hu
    have others := ih (f := (t.value f).2) (get?_congr hn place ▸ hp) (hu.congr hn) (size_congr hn ▸ hh)
    rw [readsMore, FullTree.rounds, reads_start hu hh, evaluate_eq_value hu hh, Nat.succ_mul, Nat.add_comm]
    exact first.add others

/-- Over a broadcast the reads of a list yield its items in turn, beginning at its cursor. -/
theorem readsOf_broadcast (width : Nat) {f : Forest} (hp : f.get? place = some ⟨text, .leaf (.list items)⟩)
    (hc : f.cursor place ≤ items.size) (hu : f.Unfolds id t) (hh : t.height ≤ f.size) :
    FullTree.readsOf place (f.broadcastReads id width) =
      (List.range (max width 1 * t.lists.count place)).map fun k =>
        items.getD ((f.cursor place + k) % items.size) .undefined := by
  rw [broadcastReads, (goesRound_readsMore (max width 1) hp hu hh).2]
  unfold FullTree.cycle
  refine List.map_congr_left fun k _ => ?_
  rw [FullTree.nextItem_mod hc]

end Broadcast

end Forest

end Formulary
