/-
The work stack against the recursion, put together. A place from which everything is live and
nothing leads back has one full tree. The evaluation of the place has the value of that tree and
leaves the cursors as the recursion does, never short of an operand and with exactly one value at
the end, and over a broadcast each list goes round.
-/
import Formulary.Proofs.Forest.Reads

namespace Formulary.Forest

namespace Work

/-- The last stage is the one that has no task left. -/
theorem Steps.getLast?_trace {w w' : Work} {reads : List (NodeId × Value)} (h : Steps w reads w')
    (done : w'.tasks = []) : w.trace.getLast? = some w' := by
  induction h with
  | refl w => rw [trace_of_done (by unfold next?; rw [done]), List.getLast?_singleton]
  | @head w w' w'' _ hn _ ih =>
    rw [trace_of_next hn, List.getLast?_cons, ih done]
    rfl

end Work

theorem getLast?_trace_start {f : Forest} {id : NodeId} {t : FullTree} (hu : f.Unfolds id t) (hh : t.height ≤ f.size) :
    (Work.start f id).trace.getLast? = some ⟨(t.value f).2, [(t.value f).1], []⟩ :=
  (Work.steps_visit t f id f.size [] [] hu hh).getLast?_trace rfl

/-- For every grounded place: its full tree is unique, the evaluation with its stack of tasks and
values is the recursion on that tree, every stage of it finds the values it takes, the last stage
holds exactly one, and over a broadcast of any width the `k`-th read of a list that has items, of
all reads of that list, yields the item at its cursor plus `k`, going round. -/
theorem evaluate_refines_recursion (f : Forest) (id : NodeId) (h : f.Grounded id) :
    ∃ t, f.Unfolds id t ∧ (∀ u, f.Unfolds id u → u = t) ∧
      f.evaluate id = t.value f ∧
      (Work.start f id).trace.getLast? = some ⟨(f.evaluate id).2, [(f.evaluate id).1], []⟩ ∧
      (∀ stage ∈ (Work.start f id).trace, stage.Supplied) ∧
      (∀ width, f.broadcast id width =
        ((t.rounds (max width 1) f).1.toArray, (t.rounds (max width 1) f).2)) ∧
      ∀ (width : Nat) (place : NodeId) (text : String) (items : Array Value),
        f.get? place = some ⟨text, .leaf (.list items)⟩ → 0 < items.size → f.cursor place ≤ items.size →
        FullTree.readsOf place (f.broadcastReads id width) =
          (List.range (max width 1 * t.lists.count place)).map fun k =>
            items.getD ((f.cursor place + k) % items.size) .undefined := by
  obtain ⟨t, hu, hh⟩ := h.exists_unfolds
  have value := evaluate_eq_value hu hh
  refine ⟨t, hu, fun u h => h.unique hu, value, ?_, supplied_start hu hh, fun width => broadcast_eq_rounds width hu hh,
    fun width place text items hp _ hc => readsOf_broadcast width hp hc hu hh⟩
  rw [value]
  exact getLast?_trace_start hu hh

/-- A list of two items that both sides of an operator refer to by name. -/
def sharedList : Forest where
  nodes := #[⟨"", .leaf (.list #[.boolean true, .boolean false])⟩, ⟨"a", .leaf (.variable "a" 0)⟩,
    ⟨"a", .leaf (.variable "a" 0)⟩, ⟨"AND", .binary .both 1 2⟩]
  cursors := #[2, 0, 0, 0]

theorem unfolds_sharedList : sharedList.Unfolds 3 (.binary .both
    (.reference (.list 0 #[.boolean true, .boolean false])) (.reference (.list 0 #[.boolean true, .boolean false]))) :=
  .binary rfl (.reference rfl (.list rfl)) (.reference rfl (.list rfl))

theorem grounded_sharedList : sharedList.Grounded 3 := by
  refine Descends.grounded (fun id node hn => ?_) (by decide)
  match id, hn with
  | 0, hn => cases hn; decide
  | 1, hn => cases hn; decide
  | 2, hn => cases hn; decide
  | 3, hn => cases hn; decide

/-- Two evaluations of the operator read the list four times, from the first item again. -/
theorem reads_sharedList : sharedList.Grounded 3 ∧ FullTree.readsOf 0 (sharedList.broadcastReads 3 2) =
    [.boolean true, .boolean false, .boolean true, .boolean false] := by
  refine ⟨grounded_sharedList, ?_⟩
  obtain ⟨t, -, unique, -, -, -, -, reads⟩ := evaluate_refines_recursion sharedList 3 grounded_sharedList
  rw [reads 2 0 "" _ rfl (by decide) (by decide), ← unique _ unfolds_sharedList]
  rfl

end Formulary.Forest
