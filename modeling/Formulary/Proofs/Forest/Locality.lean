/-
What the value of a tree depends on: the tree, and the cursors of its own lists. Forests that agree
on these give the same value, however else they differ; and since an evaluation moves no other
cursor, and moves its own in the same way in both, the forests still agree wherever they did before.
-/
import Formulary.Proofs.Forest.Counting

namespace Formulary

namespace Forest

/-- Two forests agree on places: each of them is live in both and has the same cursor there. -/
def AgreeOn (places : List NodeId) (f g : Forest) : Prop :=
  ∀ place ∈ places, place < f.size ∧ place < g.size ∧ f.cursor place = g.cursor place

theorem AgreeOn.subset {places fewer : List NodeId} {f g : Forest} (h : AgreeOn places f g) (hs : fewer ⊆ places) :
    AgreeOn fewer f g :=
  fun place hp => h place (hs hp)

/-- Moving cursors keeps an agreement if it moves those that agree alike. -/
theorem AgreeOn.moved {places : List NodeId} {f g f' g' : Forest} (h : AgreeOn places f g) (hf : f'.nodes = f.nodes)
    (hg : g'.nodes = g.nodes) (hc : ∀ place, f.cursor place = g.cursor place → f'.cursor place = g'.cursor place) :
    AgreeOn places f' g' := by
  intro place hp
  obtain ⟨live, live', same⟩ := h place hp
  rw [size_congr hf, size_congr hg]
  exact ⟨live, live', hc place same⟩

end Forest

namespace FullTree

open Forest

/-- Evaluating in two forests gives the same value and keeps their cursors together. -/
def Congruent (t : FullTree) : Prop :=
  ∀ {f g : Forest}, AgreeOn t.lists f g → (t.value f).1 = (t.value g).1 ∧
    ∀ place, f.cursor place = g.cursor place → (t.value f).2.cursor place = (t.value g).2.cursor place

theorem values_congr {ts : List FullTree} (ht : ∀ t ∈ ts, t.Congruent) {f g : Forest}
    (h : AgreeOn (listsAll ts) f g) : (values ts f).1 = (values ts g).1 ∧
      ∀ place, f.cursor place = g.cursor place → (values ts f).2.cursor place = (values ts g).2.cursor place := by
  induction ts generalizing f g with
  | nil => exact ⟨rfl, fun _ same => same⟩
  | cons t ts ih =>
    obtain ⟨first, moved⟩ := ht t (List.mem_cons_self ..) (h.subset (List.subset_append_left ..))
    have rest : AgreeOn (listsAll ts) (t.value f).2 (t.value g).2 :=
      (h.subset (List.subset_append_right ..)).moved (t.nodes_value f) (t.nodes_value g) moved
    obtain ⟨others, moved'⟩ := ih (fun u hu => ht u (List.mem_cons_of_mem _ hu)) rest
    exact ⟨by rw [values, values, first, others], fun place same => moved' place (moved place same)⟩

/-- A value depends on nothing but the cursors of the lists of its tree. -/
theorem value_congr (t : FullTree) : t.Congruent := by
  induction t using induct with
  | number x => exact fun _ => ⟨rfl, fun _ same => same⟩
  | reference t ih => exact ih
  | list id items =>
    intro f g h
    obtain ⟨live, live', same⟩ := h id (List.mem_singleton_self id)
    simp only [value, same]
    cases items[nextItem items.size (g.cursor id)]? with
    | none => exact ⟨rfl, fun _ hc => hc⟩
    | some v =>
      refine ⟨rfl, fun place hc => ?_⟩
      rw [cursor_setCursor live, cursor_setCursor live', hc]
  | binary op l r ihl ihr =>
    intro f g h
    obtain ⟨left, moved⟩ := ihl (h.subset (List.subset_append_left ..))
    have rest : AgreeOn r.lists (l.value f).2 (l.value g).2 :=
      (h.subset (List.subset_append_right ..)).moved (l.nodes_value f) (l.nodes_value g) moved
    obtain ⟨right, moved'⟩ := ihr rest
    exact ⟨by simp only [value, left, right], fun place same => moved' place (moved place same)⟩
  | call op params ih =>
    intro f g h
    obtain ⟨args, moved⟩ := values_congr ih h
    exact ⟨by simp only [value, args], moved⟩

theorem rounds_congr (t : FullTree) (times : Nat) {f g : Forest} (h : AgreeOn t.lists f g) :
    (t.rounds times f).1 = (t.rounds times g).1 := by
  induction times generalizing f g with
  | zero => rfl
  | succ n ih =>
    obtain ⟨first, moved⟩ := t.value_congr h
    have others := ih (h.moved (t.nodes_value f) (t.nodes_value g) moved)
    rw [rounds, rounds, first, others]

end FullTree

namespace Forest

section

variable {f g : Forest} {id : NodeId} {t : FullTree}

/-- The lists of a tree agree in two forests as soon as their cursors do. -/
theorem agreeOn_of_cursor (hf : f.Unfolds id t) (hg : g.Unfolds id t)
    (hc : ∀ place ∈ t.lists, f.cursor place = g.cursor place) : AgreeOn t.lists f g := by
  intro place hp
  obtain ⟨-, _, _, live⟩ := FullTree.reached_of_mem_lists hf hp
  obtain ⟨-, _, _, live'⟩ := FullTree.reached_of_mem_lists hg hp
  exact ⟨get?_eq_some_lt live, get?_eq_some_lt live', hc place hp⟩

theorem broadcast_congr (hf : f.Unfolds id t) (hhf : t.height ≤ f.size) (hg : g.Unfolds id t) (hhg : t.height ≤ g.size)
    (hc : ∀ place ∈ t.lists, f.cursor place = g.cursor place) (width : Nat) :
    (f.broadcast id width).1 = (g.broadcast id width).1 := by
  rw [broadcast_eq_rounds width hf hhf, broadcast_eq_rounds width hg hhg,
    t.rounds_congr _ (agreeOn_of_cursor hf hg hc)]

/-- A variable has the values of the tree it stands for. -/
theorem broadcast_variable {f : Forest} {id target : NodeId} {text name : String}
    (hn : f.get? id = some ⟨text, .leaf (.variable name target)⟩) (hg : f.Grounded id) (width : Nat) :
    (f.broadcast id width).1 = (f.broadcast target width).1 := by
  obtain ⟨t, hu, hh⟩ := hg.exists_unfolds
  cases hu with
  | @reference id target' text name t hn' hu =>
    rw [hn] at hn'
    cases hn'
    have rounds : ∀ times g, (FullTree.reference t).rounds times g = t.rounds times g := by
      intro times
      induction times with
      | zero => exact fun _ => rfl
      | succ n ih =>
        intro g
        rw [FullTree.rounds, FullTree.rounds, ih]
        rfl
    have below : t.height ≤ f.size := Nat.le_of_succ_le hh
    rw [broadcast_eq_rounds width (.reference hn hu) hh, broadcast_eq_rounds width hu below, rounds]
  | _ hn' => simp [hn] at hn'

end

end Forest

end Formulary
