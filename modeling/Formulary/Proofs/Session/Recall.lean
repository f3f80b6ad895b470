/-
Recalling what was assigned. A name that has just been assigned and is read on its own stands for
the root that was assigned to it, unless a function goes by the same name: functions are not kept
from being assigned to, but where a name is read they come first. The name has the values of its
tree from the first items of its lists on, and as many as the longest of them has items, while the
assignment has as many as the longest list that was met while it was read, also inside of others.
-/
import Formulary.Proofs.Session.Starting
import Formulary.Proofs.Reading.Breadth
import Formulary.Proofs.Forest.Passes

namespace Formulary.Session

open Reading Text

/-- Reads an assignment. -/
def assign (s : Session) (name text : String) : Answer (Except ReadError Unit) × Session :=
  s.parse (name ++ " = " ++ text)

/-- The current tree is nothing but a name that stands for a tree. -/
def Refers (s : Session) (name : String) (target : NodeId) : Prop :=
  ∃ root, s.root? = some root ∧ s.forest.get? root = some ⟨name, .leaf (.variable name target)⟩

variable {s : Session} {name text : String}

/-! ## Assigning -/

theorem result_assign_iff (s : Session) (name text : String) : (s.assign name text).1.result = .ok () ↔
    (Reading.read s.scope (name ++ " = " ++ text)).error? = none := by
  unfold assign
  exact result_parse_iff s _

theorem target_assign (scope : Scope) (hw : Word name.toList []) (text : String) :
    (read scope (name ++ " = " ++ text)).target = some name := by
  have split : (name ++ " = " ++ text).toList =
      blanks 0 ++ (name.toList ++ (blanks 1 ++ '=' :: ' ' :: text.toList)) := by
    simp
  obtain ⟨c, ht, -, -⟩ := target?_assign split (word_before_equals 1 hw.1 hw.2.1) (by simp)
  rw [String.ofList_toList] at ht
  unfold Reading.read
  simp only [ht]
  split <;> rfl

/-- An assignment that is accepted binds its name to the root that it builds. -/
theorem assign_ok (hw : Word name.toList []) (hok : (s.assign name text).1.result = .ok ()) :
    ∃ root, (s.assign name text).2.root? = some root ∧ (s.assign name text).2.bindings.lookup name = some root := by
  unfold assign at hok ⊢
  obtain ⟨d, root, g, -, -, hp⟩ := parse_of_ok hok
  rw [target_assign s.scope hw text] at hp
  rw [hp, bindings_accept, Option.elim_some, Bindings.lookup_bind, if_pos rfl]
  exact ⟨root, root?_accept .., rfl⟩

/-! ## Reading a name on its own -/

theorem read_name {scope : Scope} (hw : Word name.toList []) (hf : ∀ f : Builtin, f.symbol ≠ name)
    (hb : scope.binds name = true) : (read scope name).error? = none ∧ (read scope name).target = none ∧
      (read scope name).tokens = [⟨name, .variable⟩] := by
  let φ : Formula := ⟨none, .single (.name name.toList)⟩
  have primary : Phrase.Spells (.name name.toList) (name.toList ++ []) [] :=
    .name hw fun f h => hf f (String.toList_inj.1 h)
  have spells : φ.Spells name.toList := by
    have := Phrase.Spells.single 0 0 primary
    rw [List.append_nil] at this
    exact .plain this
  have admitted : φ.Admitted scope := ⟨trivial, by simpa [φ, Phrase.names] using hb, Nat.zero_le _⟩
  obtain ⟨he, ht, htokens⟩ := read_of_finds spells admitted (by simp [φ, Phrase.operators])
  rw [htokens]
  exact ⟨he, ht, by simp [φ, Phrase.tokens]⟩

/-- A bound name on its own is accepted as a reference to its tree. The lists of the tree are put
back, and the formula is as wide as the longest of them. -/
theorem parse_name (hw : Word name.toList []) (hf : ∀ f : Builtin, f.symbol ≠ name) {target : NodeId}
    (hl : s.bindings.lookup name = some target) : s.parse name = s.accept name none s.forest.size
      ((s.forest.rewindLists target).2.alloc ⟨name, .leaf (.variable name target)⟩).2
      (s.forest.rewindLists target).1 := by
  have hb : s.scope.binds name = true := by
    show (s.bindings.lookup name).isSome = true
    rw [hl]
    rfl
  obtain ⟨he, ht, htokens⟩ := read_name hw hf hb
  have size : (s.forest.rewindLists target).2.size = s.forest.size :=
    Forest.size_congr (Forest.nodes_rewindLists s.forest target)
  rw [parse_eq]
  unfold build draft
  simp only [htokens, Draft.takeAll, Draft.take, hl, Option.map_some, he, ht]
  simp [Draft.addVariable, Draft.add, Infix.Yard.push, Infix.Yard.finish, Infix.Yard.atoms, Forest.assemble, size]

/-- A function's name on its own is read as the function; only if it has no parameters is that all
there has to be. -/
theorem read_symbol (scope : Scope) (f : Builtin) : (read scope f.symbol).tokens = [⟨f.symbol, .builtin f⟩] ∧
    ((read scope f.symbol).error? = none ↔ f.arity = 0) := by
  rcases scope with ⟨policy, limit, binds⟩
  cases f <;> cases policy <;>
    first | exact ⟨rfl, iff_of_true rfl rfl⟩ | exact ⟨rfl, iff_of_false nofun nofun⟩

theorem not_refers_symbol {f : Builtin} (hok : (s.parse f.symbol).1.result = .ok ()) (name : String)
    (target : NodeId) : ¬ (s.parse f.symbol).2.Refers name target := by
  obtain ⟨htokens, harity⟩ := read_symbol s.scope f
  have hzero := harity.1 ((result_parse_iff s f.symbol).1 hok)
  obtain ⟨d, root, g, hd, hfin, hp⟩ := parse_of_ok hok
  rw [htokens] at hd
  cases hd
  have planted : s.forest.alloc ⟨f.symbol, .call f []⟩ = (root, g) := by
    simpa [draft, Draft.add, Infix.Yard.push, Infix.Yard.hold, Infix.Yard.finish, Infix.Yard.atoms, Forest.assemble,
      hzero, Prod.ext_iff] using hfin
  obtain ⟨rfl, rfl⟩ := Prod.ext_iff.1 planted
  rintro ⟨root, hroot, hn⟩
  rw [hp, root?_accept] at hroot
  cases hroot
  rw [hp, forest_accept, Forest.alloc_fst, Forest.get?_alloc_self] at hn
  cases hn

/-! ## Recalling -/

/-- Whatever is assigned can be recalled, and the name then stands for the root that the assignment
has built, exactly if no function goes by that name. -/
theorem assign_recall (s : Session) {name text : String} (hw : Word name.toList [])
    (hok : (s.assign name text).1.result = .ok ()) :
    ∃ target, (s.assign name text).2.root? = some target ∧
      (((s.assign name text).2.parse name).1.result = .ok () ∧
        ((s.assign name text).2.parse name).2.Refers name target ↔ ∀ f : Builtin, f.symbol ≠ name) := by
  obtain ⟨target, hroot, hl⟩ := assign_ok hw hok
  refine ⟨target, hroot, ?_⟩
  constructor
  · rintro ⟨hparse, hrefers⟩ f rfl
    exact not_refers_symbol hparse _ _ hrefers
  · intro hf
    have size := Forest.size_congr (Forest.nodes_rewindLists (s.assign name text).2.forest target)
    rw [parse_name hw hf hl]
    refine ⟨result_accept .., _, root?_accept .., ?_⟩
    rw [forest_accept, ← size]
    exact Forest.get?_alloc_self ..

/-- A name may begin like a function. -/
theorem recall_sine : Word "sine".toList [] ∧ ((new {}).assign "sine" "[1,2]").1.result = .ok () ∧
    (∀ f : Builtin, f.symbol ≠ "sine") ∧ ∃ target, ((new {}).assign "sine" "[1,2]").2.root? = some target ∧
      (((new {}).assign "sine" "[1,2]").2.parse "sine").2.Refers "sine" target := by
  have hw : Word "sine".toList [] := ⟨by simp, by simp [isNameChar], by simp⟩
  have hok : ((new {}).assign "sine" "[1,2]").1.result = .ok () :=
    (result_assign_iff ..).2 (by decide +kernel)
  have hf : ∀ f : Builtin, f.symbol ≠ "sine" := fun f => by cases f <;> decide
  obtain ⟨target, hroot, recalled⟩ := assign_recall (new {}) hw hok
  exact ⟨hw, hok, hf, target, hroot, (recalled.2 hf).2⟩

/-- `PI` may be assigned to, and is still read as the number. -/
theorem not_recalled_pi : (new {}).Reachable ∧ Word "PI".toList [] ∧
    ((new {}).assign "PI" "3").1.result = .ok () ∧ (((new {}).assign "PI" "3").2.parse "PI").1.result = .ok () ∧
    ¬ ∃ target, (((new {}).assign "PI" "3").2.parse "PI").2.Refers "PI" target := by
  have hok : (((new {}).assign "PI" "3").2.parse Builtin.pi.symbol).1.result = .ok () :=
    (result_parse_iff _ _).2 ((read_symbol _ .pi).2.2 rfl)
  refine ⟨.new {}, ⟨by simp, by simp [isNameChar], by simp⟩, (result_assign_iff ..).2 (by decide +kernel), hok, ?_⟩
  rintro ⟨target, hrefers⟩
  exact not_refers_symbol hok "PI" target hrefers

/-! ## The values of a formula -/

theorem values_of_root {root : NodeId} (hroot : s.root? = some root) :
    s.values.1.result = some (s.forest.broadcast root s.width).1 := by
  unfold Session.values
  rw [hroot]
  exact congrArg some (congrArg Prod.fst (Forest.broadcast_max s.forest root s.width))

section Accepted

variable {root : NodeId} (h : s.Reachable) (hok : (s.parse text).1.result = .ok ())
  (hroot : (s.parse text).2.root? = some root)

include h hok hroot

/-- A formula is at least as wide as the longest list that its tree reaches. -/
theorem Reachable.longest_le_width :
    ((s.parse text).2.forest.rewindLists root).1 ≤ (s.parse text).2.width := by
  obtain ⟨d, root', g, hd, hfin, hp⟩ := parse_of_ok hok
  rw [hp, root?_accept] at hroot
  cases hroot
  rw [hp, forest_accept, width_accept]
  exact ((Draft.Wide.start s.bindings s.forest).takeAll hd).longest_le h.laid.descends h.laid.lookup_lt hfin

/-- The lists that the tree of a formula reaches are at their first items, except for those whose
last mention stands inside of a list literal. -/
theorem Reachable.cursor_eq_zero (place : NodeId) (hplace : place ∈ (s.parse text).2.forest.reachable root)
    (hs : ((s.parse text).2.forest.listSize? place).isSome)
    (hm : (s.forest.listSize? place).isSome → s.lastMention text place ≠ some true) :
    (s.parse text).2.forest.cursor place = 0 := by
  have laid := h.laid
  have he := (result_parse_iff s text).1 hok
  obtain ⟨d, root', g, hd, hfin, hp⟩ := parse_of_ok hok
  have kept := (Draft.Over.start s.bindings s.forest).takeAll hd
  have grown := Forest.grown_finish hfin
  rw [hp, root?_accept] at hroot
  cases hroot
  rw [hp, forest_accept] at hplace hs ⊢
  obtain ⟨-, hr⟩ := (Forest.mem_reachable g root place).1 hplace
  obtain ⟨size, hs⟩ := Option.isSome_iff_exists.1 hs
  rw [grown.cursor]
  by_cases old : place < s.forest.size
  · have same : s.forest.listSize? place = some size := by
      rw [← hs, Forest.listSize?_congr
        ((grown.get?_eq (by rwa [kept.size])).trans (Forest.get?_congr kept.nodes place))]
    have mentioned := laid.mentioned he same hd hfin hr
    have tracks := (Draft.Tracks.start s.bindings s.forest place).takeAll laid.descends laid.lookup_lt old hd
    rw [tracks.cursor]
    refine (laid.trail_eq_zero_iff he same mentioned).2 (.inr ?_)
    cases hlast : s.lastMention text place with
    | none => exact absurd hlast mentioned
    | some inside =>
      cases inside with
      | false => rfl
      | true => exact absurd hlast (hm (by rw [same]; rfl))
  · exact Forest.cursor_of_size_le (by rw [kept.size]; exact Nat.le_of_not_lt old)

end Accepted

/-! ## The values of a recalled name -/

/-- The values of a name on its own are those of its tree from the first items on. -/
theorem Reachable.values_name (h : s.Reachable) (hw : Word name.toList []) (hf : ∀ f : Builtin, f.symbol ≠ name)
    {target : NodeId} (hl : s.bindings.lookup name = some target) :
    (s.parse name).2.width = (s.forest.rewindLists target).1 ∧
      (s.parse name).2.values.1.result = some (s.forest.rewound target (s.forest.rewindLists target).1).2 := by
  have parsed := parse_name hw hf hl
  have descends := (h.parse name).laid.descends
  have size := Forest.size_congr (Forest.nodes_rewindLists s.forest target)
  rw [parsed, forest_accept] at descends
  rw [parsed, width_accept, values_accept]
  refine ⟨rfl, congrArg some ?_⟩
  -- the new node is a variable, and adding it has left the tree it stands for as it was rewound
  generalize (s.forest.rewindLists target).1 = longest
  have rewound : (s.forest.rewindLists target).2.Grounded target :=
    (h.laid.descends.congr (Forest.nodes_rewindLists s.forest target).symm).grounded (by
      rw [size]
      exact h.laid.lookup_lt name target hl)
  obtain ⟨t, hu, hh⟩ := rewound.exists_unfolds
  have keep := Forest.Extends.alloc (s.forest.rewindLists target).2 ⟨name, .leaf (.variable name target)⟩
  have here := Forest.get?_alloc_self (s.forest.rewindLists target).2 ⟨name, .leaf (.variable name target)⟩
  rw [Forest.broadcast_max, ← size, Forest.broadcast_variable here (descends.grounded (Forest.get?_eq_some_lt here))]
  exact Forest.broadcast_congr (hu.mono fun _ _ hn => keep.nodes hn) (hh.trans keep.size_le) hu hh
    (fun place _ => keep.cursor place) longest

/-- How the values of a recalled name compare with those of its assignment in number. The assignment
has as many as it was wide when it was read, the name as many as the longest list has items that its
tree reaches, which are no more, and both have at least one. -/
structure Recollects (assigned recalled : Session) (root : NodeId) (vs ws : Array Value) : Prop where
  current : assigned.root? = some root
  values : assigned.values.1.result = some vs
  again : recalled.values.1.result = some ws
  longest : recalled.width = (assigned.forest.rewindLists root).1
  narrower : recalled.width ≤ assigned.width
  size_values : vs.size = max assigned.width 1
  size_again : ws.size = max recalled.width 1

/-- A name that has been assigned and is read on its own has the first values of the assignment, as
far as no list of its tree has been mentioned last inside of a list literal. They are all of them
exactly if the formula was no wider than the longest list that its tree reaches. -/
theorem Reachable.recollects (h : s.Reachable) (hw : Word name.toList []) (hf : ∀ f : Builtin, f.symbol ≠ name)
    (hok : (s.assign name text).1.result = .ok ()) :
    ∃ root vs ws, Recollects (s.assign name text).2 ((s.assign name text).2.parse name).2 root vs ws ∧
      ((∀ place ∈ (s.assign name text).2.forest.reachable root, (s.forest.listSize? place).isSome →
          s.lastMention (name ++ " = " ++ text) place ≠ some true) →
        ws.toList = vs.toList.take ws.size ∧
          (ws = vs ↔ max ((s.assign name text).2.parse name).2.width 1 = max (s.assign name text).2.width 1)) := by
  obtain ⟨root, hroot, hl⟩ := assign_ok hw hok
  have reached : (s.assign name text).2.Reachable := h.parse _
  have grounded := reached.laid.descends.grounded (reached.laid.lookup_lt name root hl)
  have values := values_of_root hroot
  obtain ⟨hwidth, hagain⟩ := reached.values_name hw hf hl
  unfold assign at *
  have covered := h.longest_le_width hok hroot
  have first := h.cursor_eq_zero hok hroot
  rw [hwidth]
  generalize (s.parse (name ++ " = " ++ text)).2 = s' at *
  have size : (s'.forest.rewound root (s'.forest.rewindLists root).1).2.size = max (s'.forest.rewindLists root).1 1 :=
    Forest.size_broadcast ..
  refine ⟨root, _, _, ⟨hroot, values, hagain, hwidth, by rwa [hwidth], Forest.size_broadcast .., by rwa [hwidth]⟩,
    fun hm => ?_⟩
  rw [size, grounded.rewound_of_start fun place hplace hs => first place hplace hs (hm place hplace)]
  refine ⟨Forest.toList_broadcast_of_le s'.forest root covered, fun same => ?_, fun same => ?_⟩
  · rw [← Forest.size_broadcast, same, Forest.size_broadcast]
  · rw [← Forest.broadcast_max, same, Forest.broadcast_max]

/-- A name for the sum of an old list and a new one. -/
theorem recollects_listBound : listBound.Reachable ∧ Word "b".toList [] ∧ (∀ f : Builtin, f.symbol ≠ "b") ∧
    (listBound.assign "b" "a+[3]").1.result = .ok () ∧ ∃ root vs ws,
      Recollects (listBound.assign "b" "a+[3]").2 ((listBound.assign "b" "a+[3]").2.parse "b").2 root vs ws ∧
        ws.toList = vs.toList.take ws.size := by
  have reached : listBound.Reachable := .parse _ (.new {})
  have hw : Word "b".toList [] := ⟨by simp, by simp [isNameChar], by simp⟩
  have hf : ∀ f : Builtin, f.symbol ≠ "b" := fun f => by cases f <;> decide
  have hok : (listBound.assign "b" "a+[3]").1.result = .ok () := by
    rw [result_assign_iff, scope_listBound]
    decide +kernel
  have htokens : (Reading.read listBound.scope ("b" ++ " = " ++ "a+[3]")).tokens =
      [⟨"a", .variable⟩, ⟨"+", .operator .plus⟩, ⟨"", .listStart⟩, ⟨"3", .number⟩, ⟨"", .itemEnd⟩, ⟨"", .listEnd⟩] := by
    rw [scope_listBound]
    decide +kernel
  obtain ⟨root, vs, ws, hrecollects, hsteady⟩ := reached.recollects hw hf hok
  refine ⟨reached, hw, hf, hok, root, vs, ws, hrecollects, (hsteady fun place _ _ => ?_).1⟩
  have hlookup : listBound.bindings.lookup "a" = some 0 := lookup_listBound
  rw [lastMention, htokens]
  by_cases hplace : place ∈ listBound.forest.reachable 0 <;> simp [Mention.follow, Mention.step, hlookup, hplace]

/-- In `[[1,2]]` the longer list is met while the formula is read, but the tree does not reach it. -/
theorem not_recollected_nested : (new {}).Reachable ∧ Word "n".toList [] ∧ (∀ f : Builtin, f.symbol ≠ "n") ∧
    ((new {}).assign "n" "[[1,2]]").1.result = .ok () ∧
    ((new {}).assign "n" "[[1,2]]").2.values.1.result ≠
      (((new {}).assign "n" "[[1,2]]").2.parse "n").2.values.1.result := by
  refine ⟨.new {}, ⟨by simp, by simp [isNameChar], by simp⟩, fun f => by cases f <;> decide,
    (result_assign_iff ..).2 (by decide +kernel), fun same => ?_⟩
  have wide : ((new {}).assign "n" "[[1,2]]").2.values.1.result.map Array.size = some 2 := by decide +kernel
  have narrow : (((new {}).assign "n" "[[1,2]]").2.parse "n").2.values.1.result.map Array.size = some 1 := by
    decide +kernel
  rw [same, narrow] at wide
  cases wide

end Formulary.Session
