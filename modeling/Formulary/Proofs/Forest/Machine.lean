/-
An evaluation step by step. Working off the tasks of a visit has the effect of the recursion on the
full tree of the place visited: its value comes to lie on top of the values there were, and the
cursors are left as the recursion leaves them, whatever tasks still follow. Along the way no task
finds fewer values than it takes, no visit comes to a dead place or to the end of its height, and
the last step leaves one value.
-/
import Formulary.Proofs.Forest.Reference

namespace Formulary.Forest

/-- What an evaluation has at hand: the forest, the values so far and the tasks still to do. -/
structure Work where
  forest : Forest
  values : List Value
  tasks : List Task

namespace Work

/-- Where the evaluation of a place begins. -/
def start (f : Forest) (id : NodeId) : Work :=
  ⟨f, [], [.visit f.size id]⟩

/-- What the evaluation comes to. -/
def result (w : Work) : Value × Forest :=
  w.forest.run w.values w.tasks

/-- Works off one task. -/
def next? (w : Work) : Option Work :=
  match w.tasks with
  | [] => none
  | .visit height id :: rest =>
    let v := w.forest.visit height id
    some ⟨v.forest, v.values ++ w.values, v.tasks ++ rest⟩
  | .binary op :: rest =>
    some ⟨w.forest, op.apply (w.values.tail.headD .undefined) (w.values.headD .undefined) :: w.values.tail.tail, rest⟩
  | .call g count :: rest =>
    some ⟨w.forest, g.apply (w.values.take count).reverse :: w.values.drop count, rest⟩

theorem result_of_next {w w' : Work} (h : w.next? = some w') : w.result = w'.result := by
  rcases w with ⟨f, values, _ | ⟨⟨height, id⟩ | op | ⟨g, count⟩, rest⟩⟩
  · cases h
  all_goals
    cases h
    unfold result
    rw [run]

theorem cost_next_lt {w w' : Work} (h : w.next? = some w') :
    cost w'.forest.nodes w'.tasks < cost w.forest.nodes w.tasks := by
  rcases w with ⟨f, values, _ | ⟨⟨height, id⟩ | op | ⟨g, count⟩, rest⟩⟩
  · cases h
  · cases h
    have := cost_visit_lt f height id
    simp only [nodes_visit, cost_append, cost, Task.cost]
    omega
  all_goals
    cases h
    simp only [cost, Task.cost]
    omega

/-- The stages that an evaluation goes through, from this one to the last. -/
def trace (w : Work) : List Work :=
  w :: match _h : w.next? with
    | none => []
    | some w' => w'.trace
termination_by cost w.forest.nodes w.tasks
decreasing_by exact cost_next_lt _h

theorem trace_of_next {w w' : Work} (h : w.next? = some w') : w.trace = w :: w'.trace := by
  rw [trace]
  split
  · rename_i hn
    rw [h] at hn
    cases hn
  · rename_i w'' hn
    rw [h] at hn
    cases hn
    rfl

theorem trace_of_done {w : Work} (h : w.next? = none) : w.trace = [w] := by
  rw [trace]
  split
  · rfl
  · rename_i hn
    rw [h] at hn
    cases hn

/-- What every step keeps holds at every stage. -/
theorem trace_keeps {P : Work → Prop} (step : ∀ {w w' : Work}, P w → w.next? = some w' → P w') {w : Work} (h : P w) :
    ∀ stage ∈ w.trace, P stage := by
  induction hn : cost w.forest.nodes w.tasks using Nat.strong_induction_on generalizing w with
  | _ n ih =>
    intro stage hs
    cases hw : w.next? with
    | none =>
      rw [trace_of_done hw, List.mem_singleton] at hs
      exact hs ▸ h
    | some w' =>
      rw [trace_of_next hw, List.mem_cons] at hs
      rcases hs with rfl | hs
      · exact h
      · exact ih _ (hn ▸ cost_next_lt hw) (step h hw) rfl stage hs

/-! ## Reads -/

/-- The list that the next step reads, and the item that the read yields. -/
def read? (w : Work) : Option (NodeId × Value) :=
  match w.tasks with
  | .visit (_ + 1) id :: _ =>
    match w.forest.get? id with
    | some ⟨_, .leaf (.list items)⟩ => some (id, (w.forest.readItem id items).1)
    | _ => none
  | _ => none

/-- The reads of an evaluation, in order. -/
def reads (w : Work) : List (NodeId × Value) :=
  w.trace.filterMap read?

theorem reads_of_next {w w' : Work} (h : w.next? = some w') : w.reads = w.read?.toList ++ w'.reads := by
  unfold reads
  rw [trace_of_next h]
  cases hr : w.read? <;> simp [hr]

theorem reads_of_done {w : Work} (h : w.tasks = []) : w.reads = [] := by
  unfold reads
  rw [trace_of_done (by unfold next?; rw [h])]
  simp [read?, h]

/-- One stage leads to another, with these reads in between. -/
inductive Steps : Work → List (NodeId × Value) → Work → Prop
  | refl (w : Work) : Steps w [] w
  | head {w w' w'' : Work} {reads : List (NodeId × Value)} :
      w.next? = some w' → Steps w' reads w'' → Steps w (w.read?.toList ++ reads) w''

theorem Steps.trans {w w' w'' : Work} {reads reads' : List (NodeId × Value)} (h : Steps w reads w')
    (h' : Steps w' reads' w'') : Steps w (reads ++ reads') w'' := by
  induction h with
  | refl w => exact h'
  | head hn _ ih =>
    rw [List.append_assoc]
    exact .head hn (ih h')

theorem Steps.result {w w' : Work} {reads : List (NodeId × Value)} (h : Steps w reads w') : w.result = w'.result := by
  induction h with
  | refl w => rfl
  | head hn _ ih => exact (result_of_next hn).trans ih

theorem Steps.reads {w w' : Work} {reads : List (NodeId × Value)} (h : Steps w reads w') :
    w.reads = reads ++ w'.reads := by
  induction h with
  | refl w => rfl
  | head hn _ ih => rw [reads_of_next hn, ih, List.append_assoc]

end Work

end Forest

namespace FullTree

mutual

/-- The reads of the lists of a tree, in order, each with the item that it yields. -/
def reads : FullTree → Forest → List (NodeId × Value)
  | number _, _ => []
  | reference t, f => t.reads f
  | list id items, f => [(id, ((list id items).value f).1)]
  | binary _ l r, f => l.reads f ++ r.reads (l.value f).2
  | call _ params, f => readsAll params f

/-- The reads of trees from left to right. -/
def readsAll : List FullTree → Forest → List (NodeId × Value)
  | [], _ => []
  | t :: ts, f => t.reads f ++ readsAll ts (t.value f).2

end

end FullTree

namespace Forest

/-! ## A visit as a whole -/

theorem readItem_eq (f : Forest) (id : NodeId) (items : Array Value) :
    f.readItem id items = (FullTree.list id items).value f := by
  unfold readItem Series.nextIndex?
  simp only [FullTree.value, FullTree.nextItem]
  by_cases hs : items.size = 0
  · simp [hs]
  · by_cases hc : f.cursor id < items.size
    · simp [hs, hc, Array.getD]
    · have : 0 < items.size := by omega
      simp [hs, hc, this, Array.getD]

/-- Where a full tree fits, there is height for its root. -/
theorem exists_height {t : FullTree} {height : Nat} (h : t.height ≤ height) : ∃ k, height = k + 1 :=
  Nat.exists_eq_succ_of_ne_zero (Nat.ne_of_gt (Nat.lt_of_lt_of_le t.height_pos h))

theorem visit_of_get? {f : Forest} {id : NodeId} {node : Node} (h : f.get? id = some node) (height : Nat) :
    f.visit (height + 1) id = f.expand height id node := by
  unfold visit
  rw [h]

namespace Work

theorem next?_visit {f : Forest} {id : NodeId} {node : Node} (h : f.get? id = some node) (height : Nat)
    (values : List Value) (rest : List Task) : next? ⟨f, values, .visit (height + 1) id :: rest⟩ =
      some ⟨(f.expand height id node).forest, (f.expand height id node).values ++ values,
        (f.expand height id node).tasks ++ rest⟩ := by
  unfold next?
  simp only [visit_of_get? h]

/-- A visit leads to the value of the full tree on top of the values, and to the tasks behind it. -/
def Visits (t : FullTree) : Prop :=
  ∀ (f : Forest) (id : NodeId) (height : Nat) (values : List Value) (rest : List Task),
    f.Unfolds id t → t.height ≤ height →
    Steps ⟨f, values, .visit height id :: rest⟩ (t.reads f) ⟨(t.value f).2, (t.value f).1 :: values, rest⟩

/-- Visits in a row lead to the values of all trees, the last one on top. -/
theorem steps_visits {ts : List FullTree} (h : ∀ t ∈ ts, Visits t) :
    ∀ (f : Forest) (ids : List NodeId) (height : Nat) (values : List Value) (rest : List Task),
      List.Forall₂ f.Unfolds ids ts → FullTree.heightAll ts ≤ height →
      Steps ⟨f, values, ids.map (.visit height) ++ rest⟩ (FullTree.readsAll ts f)
        ⟨(FullTree.values ts f).2, (FullTree.values ts f).1.reverse ++ values, rest⟩ := by
  induction ts with
  | nil =>
    intro f ids height values rest hu _
    cases hu
    exact .refl _
  | cons t ts ih =>
    intro f ids height values rest hu hh
    cases hu with
    | @cons id _ ids _ hu hus =>
      simp only [FullTree.heightAll, max_le_iff] at hh
      have first := h t (List.mem_cons_self ..) f id height values (ids.map (.visit height) ++ rest) hu hh.1
      have others := ih (fun u hu => h u (List.mem_cons_of_mem _ hu)) (t.value f).2 ids height ((t.value f).1 :: values)
        rest (hus.imp fun _ _ hu => hu.congr (t.nodes_value f).symm) hh.2
      have both := first.trans others
      simpa [FullTree.readsAll, FullTree.values] using both

/-- The steps of a visit, for every full tree. A visit of an operator or function first turns into
the visits of its children and the task to combine their values. -/
theorem steps_visit (t : FullTree) : Visits t := by
  induction t using FullTree.induct with
  | number x =>
    intro f id height values rest hu hh
    obtain ⟨height, rfl⟩ := exists_height hh
    cases hu with
    | number hn =>
      have step : next? ⟨f, values, .visit (height + 1) id :: rest⟩ = some ⟨f, .number x :: values, rest⟩ :=
        next?_visit hn height values rest
      simpa [read?, hn, FullTree.reads, FullTree.value] using Steps.head step (.refl _)
  | reference t ih =>
    intro f id height values rest hu hh
    obtain ⟨height, rfl⟩ := exists_height hh
    cases hu with
    | @reference _ target _ _ _ hn ht =>
      have step : next? ⟨f, values, .visit (height + 1) id :: rest⟩ =
          some ⟨f, values, .visit height target :: rest⟩ :=
        next?_visit hn height values rest
      have onward := ih f target height values rest ht (by simpa [FullTree.height] using hh)
      simpa [read?, hn, FullTree.reads, FullTree.value] using Steps.head step onward
  | list place items =>
    intro f id height values rest hu hh
    obtain ⟨height, rfl⟩ := exists_height hh
    cases hu with
    | list hn =>
      have step : next? ⟨f, values, .visit (height + 1) place :: rest⟩ =
          some ⟨(f.readItem place items).2, (f.readItem place items).1 :: values, rest⟩ :=
        next?_visit hn height values rest
      have done := Steps.head step (.refl _)
      rw [readItem_eq] at done
      simpa [read?, hn, FullTree.reads, readItem_eq] using done
  | binary op l r ihl ihr =>
    intro f id height values rest hu hh
    obtain ⟨height, rfl⟩ := exists_height hh
    simp only [FullTree.height, Nat.add_le_add_iff_right, max_le_iff] at hh
    cases hu with
    | @binary _ lhs rhs _ _ _ _ hn hl hr =>
      have step : next? ⟨f, values, .visit (height + 1) id :: rest⟩ =
          some ⟨f, values, .visit height lhs :: .visit height rhs :: .binary op :: rest⟩ :=
        next?_visit hn height values rest
      have left := ihl f lhs height values (.visit height rhs :: .binary op :: rest) hl hh.1
      have right := ihr (l.value f).2 rhs height ((l.value f).1 :: values) (.binary op :: rest)
        (hr.congr (l.nodes_value f).symm) hh.2
      have combine := Steps.head (w := ⟨(r.value (l.value f).2).2,
        (r.value (l.value f).2).1 :: (l.value f).1 :: values, .binary op :: rest⟩) rfl (.refl _)
      have whole := Steps.head step ((left.trans right).trans combine)
      simpa [read?, hn, FullTree.reads, FullTree.value] using whole
  | call g params ih =>
    intro f id height values rest hu hh
    obtain ⟨height, rfl⟩ := exists_height hh
    simp only [FullTree.height, Nat.add_le_add_iff_right] at hh
    cases hu with
    | @call _ _ _ ids _ hn hts =>
      have step : next? ⟨f, values, .visit (height + 1) id :: rest⟩ =
          some ⟨f, values, ids.map (.visit height) ++ (.call g ids.length :: rest)⟩ := by
        rw [next?_visit hn]
        simp [expand]
      have args := steps_visits ih f ids height values (.call g ids.length :: rest) hts hh
      have count : ids.length = (FullTree.values params f).1.reverse.length := by
        rw [List.length_reverse, FullTree.length_values, hts.length_eq]
      -- the last parameter lies on top, so they are taken off in their order
      have combine : Steps ⟨(FullTree.values params f).2, (FullTree.values params f).1.reverse ++ values,
          .call g ids.length :: rest⟩ ([] ++ [])
          ⟨(FullTree.values params f).2, g.apply (FullTree.values params f).1 :: values, rest⟩ := by
        refine Steps.head ?_ (.refl _)
        simp only [next?, count, List.take_left, List.drop_left, List.reverse_reverse]
      have whole := Steps.head step (args.trans combine)
      simpa [read?, hn, FullTree.reads, FullTree.value] using whole

/-! ## Nothing is lacking on the way -/

/-- The task at hand finds what it takes: a visit a live place and height left, an operator or
function its operands. At the end there is exactly one value. -/
def Supplied (w : Work) : Prop :=
  match w.tasks with
  | [] => w.values.length = 1
  | .visit height id :: _ => 0 < height ∧ id < w.forest.size
  | .binary _ :: _ => 2 ≤ w.values.length
  | .call _ count :: _ => count ≤ w.values.length

/-- Tasks that are supplied, each of them when its turn comes, from a number of values on. -/
def Covers (f : Forest) : List Task → Nat → Prop
  | [], n => n = 1
  | .visit height id :: rest, n => (∃ t, f.Unfolds id t ∧ t.height ≤ height) ∧ Covers f rest (n + 1)
  | .binary _ :: rest, n => 2 ≤ n ∧ Covers f rest (n - 1)
  | .call _ count :: rest, n => count ≤ n ∧ Covers f rest (n - count + 1)

theorem Covers.congr {f g : Forest} (hn : f.nodes = g.nodes) {tasks : List Task} {n : Nat} (h : Covers f tasks n) :
    Covers g tasks n := by
  induction tasks generalizing n with
  | nil => exact h
  | cons task rest ih =>
    cases task with
    | visit height id =>
      obtain ⟨⟨t, ht, hh⟩, hr⟩ := h
      exact ⟨⟨t, ht.congr hn, hh⟩, ih hr⟩
    | binary op => exact ⟨h.1, ih h.2⟩
    | call g count => exact ⟨h.1, ih h.2⟩

theorem Covers.supplied {w : Work} (h : Covers w.forest w.tasks w.values.length) : w.Supplied := by
  rcases w with ⟨f, values, _ | ⟨⟨height, id⟩ | op | ⟨g, count⟩, rest⟩⟩
  · exact h
  · obtain ⟨⟨t, ht, hh⟩, -⟩ := h
    refine ⟨t.height_pos.trans_le hh, ?_⟩
    cases ht with
    | number hn => exact get?_eq_some_lt hn
    | reference hn _ => exact get?_eq_some_lt hn
    | list hn => exact get?_eq_some_lt hn
    | binary hn _ _ => exact get?_eq_some_lt hn
    | call hn _ => exact get?_eq_some_lt hn
  · exact h.1
  · exact h.1

theorem covers_visits {f : Forest} {ids : List NodeId} {ts : List FullTree} {height n : Nat} {rest : List Task}
    (hu : List.Forall₂ f.Unfolds ids ts) (hh : FullTree.heightAll ts ≤ height)
    (hr : Covers f rest (n + ids.length)) : Covers f (ids.map (.visit height) ++ rest) n := by
  induction hu generalizing n with
  | nil => exact hr
  | @cons id t ids ts h _ ih =>
    simp only [FullTree.heightAll, max_le_iff] at hh
    refine ⟨⟨t, h, hh.1⟩, ih hh.2 ?_⟩
    rw [Nat.add_right_comm, Nat.add_assoc]
    exact hr

/-- A visit is covered by what it leads to, its values and its tasks. -/
theorem covers_visit {f : Forest} {id : NodeId} {t : FullTree} {height n : Nat} {rest : List Task}
    (hu : f.Unfolds id t) (hh : t.height ≤ height) (hr : Covers f rest (n + 1)) :
    Covers f ((f.visit height id).tasks ++ rest) ((f.visit height id).values.length + n) := by
  obtain ⟨height, rfl⟩ := exists_height hh
  -- a number or an item adds the value itself, anything else the tasks that will
  cases hu with
  | number hn =>
    rw [visit_of_get? hn, Nat.add_comm]
    exact hr
  | @reference _ target _ _ t hn ht =>
    rw [visit_of_get? hn]
    show Covers f (.visit height target :: rest) (0 + n)
    rw [Nat.zero_add]
    exact ⟨⟨t, ht, by simpa [FullTree.height] using hh⟩, hr⟩
  | list hn =>
    rw [visit_of_get? hn, Nat.add_comm]
    exact hr
  | @binary _ lhs rhs _ op l r hn hl hro =>
    simp only [FullTree.height, Nat.add_le_add_iff_right, max_le_iff] at hh
    rw [visit_of_get? hn]
    show Covers f (.visit height lhs :: .visit height rhs :: .binary op :: rest) (0 + n)
    rw [Nat.zero_add]
    exact ⟨⟨l, hl, hh.1⟩, ⟨r, hro, hh.2⟩, by omega, hr⟩
  | @call _ _ g ids ts hn hts =>
    simp only [FullTree.height, Nat.add_le_add_iff_right] at hh
    rw [visit_of_get? hn]
    show Covers f (ids.map (.visit height) ++ [.call g ids.length] ++ rest) (0 + n)
    rw [Nat.zero_add, List.append_assoc]
    refine covers_visits hts hh ⟨Nat.le_add_left _ _, ?_⟩
    rw [Nat.add_sub_cancel]
    exact hr

/-- One step: what is left to do stays covered. -/
theorem covers_next {w w' : Work} (h : w.next? = some w') (hc : Covers w.forest w.tasks w.values.length) :
    Covers w'.forest w'.tasks w'.values.length := by
  rcases w with ⟨f, values, _ | ⟨⟨height, id⟩ | op | ⟨g, count⟩, rest⟩⟩
  · cases h
  · obtain ⟨⟨t, ht, hh⟩, hr⟩ := hc
    cases h
    rw [List.length_append]
    exact (covers_visit ht hh hr).congr (nodes_visit f height id).symm
  · obtain ⟨hn, hr⟩ := hc
    cases h
    have count : (values.tail.tail.length + 1) = values.length - 1 := by
      simp only [List.length_tail] at *
      omega
    rw [List.length_cons, count]
    exact hr
  · obtain ⟨hn, hr⟩ := hc
    cases h
    rw [List.length_cons, List.length_drop]
    exact hr

/-- A whole run: every stage is supplied. -/
theorem supplied_of_mem_trace {w : Work} (hc : Covers w.forest w.tasks w.values.length) :
    ∀ stage ∈ w.trace, stage.Supplied :=
  fun stage hs => Covers.supplied <|
    trace_keeps (P := fun w => Covers w.forest w.tasks w.values.length) (fun hc hn => covers_next hn hc) hc stage hs

end Work

/-! ## Evaluations -/

theorem nodes_run (f : Forest) (values : List Value) (tasks : List Task) : (f.run values tasks).2.nodes = f.nodes := by
  fun_induction run f values tasks with
  | case1 f values => rfl
  | case2 f values height id rest v ih => exact ih.trans (nodes_visit f height id)
  | case3 f values op rest rhs lhs ih => exact ih
  | case4 f values g count rest params ih => exact ih

theorem nodes_evaluate (f : Forest) (id : NodeId) : (f.evaluate id).2.nodes = f.nodes :=
  nodes_run f [] [.visit f.size id]

theorem nodes_evaluateMore (id : NodeId) (times : Nat) (values : Array Value) (f : Forest) :
    (evaluateMore id times values f).2.nodes = f.nodes := by
  induction times generalizing values f with
  | zero => rfl
  | succ n ih =>
    rw [evaluateMore]
    exact (ih _ _).trans (nodes_evaluate f id)

theorem nodes_broadcast (f : Forest) (id : NodeId) (width : Nat) : (f.broadcast id width).2.nodes = f.nodes :=
  nodes_evaluateMore id (max width 1) #[] f

section Evaluation

variable {f : Forest} {id : NodeId} {t : FullTree}

/-- An evaluation is the recursion on the full tree. -/
theorem evaluate_eq_value (hu : f.Unfolds id t) (hh : t.height ≤ f.size) : f.evaluate id = t.value f := by
  have h := (Work.steps_visit t f id f.size [] [] hu hh).result
  simp only [Work.result] at h
  rw [evaluate, h, run]
  rfl

/-- An evaluation reads the lists of the full tree, in its order. -/
theorem reads_start (hu : f.Unfolds id t) (hh : t.height ≤ f.size) : (Work.start f id).reads = t.reads f := by
  have h := (Work.steps_visit t f id f.size [] [] hu hh).reads
  rw [Work.start, h, Work.reads_of_done rfl, List.append_nil]

theorem supplied_start (hu : f.Unfolds id t) (hh : t.height ≤ f.size) :
    ∀ stage ∈ (Work.start f id).trace, stage.Supplied :=
  Work.supplied_of_mem_trace ⟨⟨t, hu, hh⟩, rfl⟩

end Evaluation

end Forest

end Formulary
