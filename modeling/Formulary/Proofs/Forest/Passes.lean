/-
The passes of a broadcast one by one. Each evaluates the tree once and leaves the cursors to the
next. A list that the tree comes to `count` times goes on by `count` items in each pass, so from its
first item on the reads of pass `i` yield the items from number `i * count` on, round and round. Only
if every list is met once, or has a single item, does pass `i` see one item of each list and this the
`i`-th; then its value is that of the tree with these items in place of the lists.
-/
import Formulary.Proofs.Forest.Rewound

namespace Formulary

namespace FullTree

/-! ## Values in place of lists -/

mutual

/-- The value of a tree with one value in place of each list. -/
def valueWith (pick : NodeId → Value) : FullTree → Value
  | number x => .number x
  | reference t => t.valueWith pick
  | list id _ => pick id
  | binary op l r => op.apply (l.valueWith pick) (r.valueWith pick)
  | call g params => g.apply (valuesWith pick params)

/-- The values of trees with one value in place of each list. -/
def valuesWith (pick : NodeId → Value) : List FullTree → List Value
  | [] => []
  | t :: ts => t.valueWith pick :: valuesWith pick ts

end

variable {pick : NodeId → Value}

theorem values_eq_valuesWith {ts : List FullTree}
    (ht : ∀ t ∈ ts, ∀ f : Forest, (∀ read ∈ t.reads f, read.2 = pick read.1) → (t.value f).1 = t.valueWith pick)
    (f : Forest) (h : ∀ read ∈ readsAll ts f, read.2 = pick read.1) : (values ts f).1 = valuesWith pick ts := by
  induction ts generalizing f with
  | nil => rfl
  | cons t ts ih =>
    have first := ht t (List.mem_cons_self ..) f fun read hr => h read (List.mem_append_left _ hr)
    have others := ih (fun u hu => ht u (List.mem_cons_of_mem _ hu)) (t.value f).2
      fun read hr => h read (List.mem_append_right _ hr)
    rw [values, valuesWith, first, others]

/-- If all reads of a list yield the same value, the list might as well be that value. -/
theorem value_eq_valueWith (t : FullTree) (f : Forest) (h : ∀ read ∈ t.reads f, read.2 = pick read.1) :
    (t.value f).1 = t.valueWith pick := by
  induction t using induct generalizing f with
  | number x => rfl
  | reference t ih => exact ih f h
  | list id items => exact h _ (List.mem_singleton_self _)
  | binary op l r ihl ihr =>
    have left := ihl f fun read hr => h read (List.mem_append_left _ hr)
    have right := ihr (l.value f).2 fun read hr => h read (List.mem_append_right _ hr)
    simp only [value, valueWith, left, right]
  | call g params ih => simp only [value, valueWith, values_eq_valuesWith ih f h]

theorem mem_readsOf {place : NodeId} {reads : List (NodeId × Value)} {v : Value} :
    v ∈ readsOf place reads ↔ (place, v) ∈ reads := by
  simp [readsOf]

end FullTree

namespace Forest

open FullTree

/-! ## Passes -/

/-- The forest after a number of evaluations of a place. -/
def passed (f : Forest) (id : NodeId) (passes : Nat) : Forest :=
  (fun g => (g.evaluate id).2)^[passes] f

/-- The value of one pass, counted from zero. -/
def passValue (f : Forest) (id : NodeId) (pass : Nat) : Value :=
  ((f.passed id pass).evaluate id).1

/-- The reads of one pass in order. -/
def passReads (f : Forest) (id : NodeId) (pass : Nat) : List (NodeId × Value) :=
  (Work.start (f.passed id pass) id).reads

/-- The item that going round a list so far leads to. -/
def itemAt (f : Forest) (i : Nat) (place : NodeId) : Value :=
  match f.get? place with
  | some ⟨_, .leaf (.list items)⟩ => items.getD (i % items.size) .undefined
  | _ => .undefined

theorem passed_succ (f : Forest) (id : NodeId) (passes : Nat) :
    f.passed id (passes + 1) = ((f.passed id passes).evaluate id).2 :=
  Function.iterate_succ_apply' ..

theorem evaluateMore_eq_passes (f : Forest) (id : NodeId) (times : Nat) (values : Array Value) :
    evaluateMore id times values f =
      (values ++ ((List.range times).map (f.passValue id)).toArray, f.passed id times) := by
  induction times generalizing f values with
  | zero => simp [evaluateMore, passed]
  | succ n ih =>
    -- the passes after the first are those of the forest that the first one leaves
    have shift : ∀ pass, (f.evaluate id).2.passed id pass = f.passed id (pass + 1) := fun _ => rfl
    have values' : (List.range (n + 1)).map (f.passValue id) =
        (f.evaluate id).1 :: (List.range n).map ((f.evaluate id).2.passValue id) := by
      rw [List.range_succ_eq_map, List.map_cons, List.map_map]
      rfl
    simp only [evaluateMore]
    rw [ih, shift, values', Array.push_eq_append, Array.append_assoc]
    simp

/-- A broadcast is its passes in turn. -/
theorem broadcast_eq_passes (f : Forest) (id : NodeId) (width : Nat) :
    f.broadcast id width = (((List.range (max width 1)).map (f.passValue id)).toArray, f.passed id (max width 1)) := by
  rw [broadcast, evaluateMore_eq_passes, Array.empty_append]

theorem size_broadcast (f : Forest) (id : NodeId) (width : Nat) : (f.broadcast id width).1.size = max width 1 := by
  rw [broadcast_eq_passes]
  simp

/-- Any broadcast is one at least. -/
theorem broadcast_max (f : Forest) (id : NodeId) (width : Nat) :
    f.broadcast id (max width 1) = f.broadcast id width := by
  rw [broadcast, broadcast, Nat.max_assoc, Nat.max_self]

/-- A narrower broadcast is the beginning of a wider one. -/
theorem toList_broadcast_of_le (f : Forest) (id : NodeId) {width wider : Nat} (h : width ≤ wider) :
    (f.broadcast id width).1.toList = (f.broadcast id wider).1.toList.take (max width 1) := by
  have hmin : min (max width 1) (max wider 1) = max width 1 := by omega
  rw [broadcast_eq_passes, broadcast_eq_passes, ← List.map_take, List.take_range, hmin]

theorem nodes_passed (f : Forest) (id : NodeId) (passes : Nat) : (f.passed id passes).nodes = f.nodes := by
  induction passes with
  | zero => rfl
  | succ n ih => rw [passed_succ, nodes_evaluate, ih]

section Tree

variable {f : Forest} {id : NodeId} {t : FullTree}

/-- Each pass finds the same tree. -/
theorem unfolds_passed (hu : f.Unfolds id t) (hh : t.height ≤ f.size) (passes : Nat) :
    (f.passed id passes).Unfolds id t ∧ t.height ≤ (f.passed id passes).size :=
  have nodes := (nodes_passed f id passes).symm
  ⟨hu.congr nodes, size_congr nodes ▸ hh⟩

/-- Each pass takes a cursor on by as many reads as the tree has leaves for the list. -/
theorem cursor_passed (hu : f.Unfolds id t) (hh : t.height ≤ f.size) (passes : Nat) (place : NodeId) :
    (f.passed id passes).cursor place =
      after ((f.listSize? place).getD 0) (f.cursor place) (passes * f.readCount place id) := by
  induction passes with
  | zero => rw [Nat.zero_mul]; rfl
  | succ n ih =>
    obtain ⟨hu', hh'⟩ := unfolds_passed hu hh n
    rw [passed_succ, evaluate_eq_value hu' hh', cursor_value hu', ih, readCount_eq hu hh,
      listSize?_congr (get?_congr (nodes_passed f id n) place), after_add, Nat.succ_mul]

variable {place : NodeId} {text : String} {items : Array Value}

/-- From the first item of a list on, a pass goes on where the passes before it have led. -/
theorem readsOf_passReads (hu : f.Unfolds id t) (hh : t.height ≤ f.size) (hc : f.cursor place = 0)
    (hp : f.get? place = some ⟨text, .leaf (.list items)⟩) (pass : Nat) :
    readsOf place (f.passReads id pass) = (List.range (f.readCount place id)).map fun k =>
      items.getD ((pass * f.readCount place id + k) % items.size) .undefined := by
  obtain ⟨hu', hh'⟩ := unfolds_passed hu hh pass
  have hp' : (f.passed id pass).get? place = some ⟨text, .leaf (.list items)⟩ := by
    rw [get?_congr (nodes_passed f id pass), hp]
  have size : f.listSize? place = some items.size := by rw [listSize?, hp]
  rw [passReads, reads_start hu' hh', (goesRound_value t _ id hp' hu').2, cursor_passed hu hh, size, hc, cycle,
    readCount_eq hu hh, Option.getD_some]
  rcases Nat.eq_zero_or_pos items.size with hs | hs
  · have : items = #[] := Array.eq_empty_of_size_eq_zero hs
    subst this
    simp
  · simp only [nextItem_after hs, Nat.mod_add_mod]
    simp [nextItem, hs]

theorem itemAt_of_list (hp : f.get? place = some ⟨text, .leaf (.list items)⟩) (i : Nat) :
    f.itemAt i place = items.getD (i % items.size) .undefined := by
  simp only [itemAt, hp]

/-- The one read of a list in a pass, or all reads of a single item, yield the item whose turn it is. -/
theorem read_itemAt (hu : f.Unfolds id t) (hh : t.height ≤ f.size) (hc : f.cursor place = 0)
    (hp : f.get? place = some ⟨text, .leaf (.list items)⟩) (h : f.readCount place id = 1 ∨ items.size ≤ 1) (pass : Nat)
    {v : Value} (hv : v ∈ readsOf place (f.passReads id pass)) : v = f.itemAt pass place := by
  rw [readsOf_passReads hu hh hc hp, List.mem_map] at hv
  obtain ⟨k, hk, rfl⟩ := hv
  rw [itemAt_of_list hp]
  rcases h with once | single
  · rw [once] at hk ⊢
    rw [List.mem_range, Nat.lt_one_iff] at hk
    rw [hk, Nat.mul_one, Nat.add_zero]
  · rcases Nat.le_one_iff_eq_zero_or_eq_one.1 single with hs | hs
    · simp [Array.getD, hs]
    · rw [hs, Nat.mod_one, Nat.mod_one]

/-- If its items can be told apart, all reads of a list yield the item whose turn it is only if there
is one read in a pass or one item at most. -/
theorem once_or_single_of_itemAt (hu : f.Unfolds id t) (hh : t.height ≤ f.size) (hc : f.cursor place = 0)
    (hp : f.get? place = some ⟨text, .leaf (.list items)⟩) (hr : 0 < f.readCount place id) (hd : items.toList.Nodup)
    (h : ∀ v ∈ readsOf place (f.passReads id 0), v = f.itemAt 0 place) :
    f.readCount place id = 1 ∨ items.size ≤ 1 := by
  simp only [readsOf_passReads hu hh hc hp, itemAt_of_list hp, List.forall_mem_map, List.mem_range] at h
  by_contra hne
  -- the second read of the first pass yields the second item
  have hmod : (0 * f.readCount place id + 1) % items.size = 1 := by
    rw [Nat.zero_mul, Nat.zero_add, Nat.mod_eq_of_lt (by omega)]
  have second := h 1 (by omega)
  rw [hmod, Nat.zero_mod] at second
  have h1 : 1 < items.size := by omega
  have h0 : 0 < items.size := by omega
  have same : items.toList[1] = items.toList[0] := by simpa [Array.getD, h1, h0] using second
  have := hd.getElem_inj_iff.1 same
  omega

/-- If every list is met once or has one item at most, each pass has the value of the tree with the
items whose turn it is in place of the lists. -/
theorem passValue_eq_valueWith (hu : f.Unfolds id t) (hh : t.height ≤ f.size)
    (hc : ∀ place ∈ t.lists, f.cursor place = 0)
    (h : ∀ place ∈ t.lists, ∀ text items, f.get? place = some ⟨text, .leaf (.list items)⟩ →
      f.readCount place id = 1 ∨ items.size ≤ 1) (pass : Nat) :
    f.passValue id pass = t.valueWith (f.itemAt pass) := by
  obtain ⟨hu', hh'⟩ := unfolds_passed hu hh pass
  rw [passValue, evaluate_eq_value hu' hh']
  refine t.value_eq_valueWith _ fun read hread => ?_
  have met : read.1 ∈ t.lists := by
    rw [← t.map_fst_reads]
    exact List.mem_map_of_mem hread
  obtain ⟨-, text, items, hp⟩ := reached_of_mem_lists hu met
  refine read_itemAt hu hh (hc _ met) hp (h _ met _ _ hp) pass ?_
  rw [mem_readsOf, passReads, reads_start hu' hh']
  exact hread

end Tree

end Forest

end Formulary
