/-
What a phrase comes to. Against the bound names a primary is a tree, an expression is the tree that
its operators make of their operands, and a list is the row of the values of its items, each of them
computed over the forest as it is by then. Taking the tokens of a phrase leads to just that: it pushes
the atoms of the trees, and leaves a forest with the same nodes and the cursors that the lists on the
way have been left at.
-/
import Formulary.Proofs.Reading.Phrase
import Formulary.Proofs.Reading.Frame
import Formulary.Proofs.Infix.Pushing

namespace Formulary

open Infix

/-- The value of a tree that is planted for it and then taken out again. -/
def Forest.compute (f : Forest) (t : Tree) : Value × Forest :=
  let planted := t.plant f
  let computed := planted.2.evaluate planted.1
  (computed.1, computed.2.truncate f.size)

theorem Forest.nodes_compute (f : Forest) (t : Tree) : (f.compute t).2.nodes = f.nodes :=
  nodes_truncate_of_extends (extends_plant t f) (nodes_evaluate _ _)

theorem Groups.applied {ops : List Operator} {ts : List Tree} {t : Tree} (h : Groups ops ts t)
    (ha : ∀ t ∈ ts, t.Applied) : t.Applied := by
  induction h with
  | single t => exact ha t (List.mem_singleton_self t)
  | binary _ _ _ _ ihl ihr =>
    exact .binary (ihl fun t ht => ha t (List.mem_append_left _ ht)) (ihr fun t ht => ha t (List.mem_append_right _ ht))

/-- A fresh yard that has taken the atoms of an expression is finished by planting its tree. -/
theorem Groups.finish_weave {ops : List Operator} {ts : List Tree} {t : Tree} {rows : List (List Atom)}
    (h : Groups ops ts t) (hr : List.Forall₂ (Converts · · none) rows ts) (ha : ∀ t ∈ ts, t.Applied) (f : Forest) :
    (Yard.pushAll {} (weave rows ops)).finish f = (some (t.plant f).1, (t.plant f).2) := by
  obtain ⟨top, -, converts⟩ := h.converts hr
  obtain ⟨hatoms, hdepth⟩ := converts.atoms_pushAll
  exact Forest.finish_atoms (h.applied ha) hatoms hdepth f

namespace Reading

/-! ## What phrases come to -/

/-- What phrases of a kind come to: a primary to a tree, an expression to its operators and the
trees they stand between, arguments to trees and items to values. -/
abbrev Made : Kind → Type
  | .primary => Tree
  | .expression => List Operator × List Tree
  | .arguments => List Tree
  | .items => List Value

/-- A phrase comes to this over a forest, and leaves the forest so. A variable rewinds the lists it
reaches. -/
inductive Phrase.Builds (b : Bindings) : {k : Kind} → Phrase k → Forest → Made k → Forest → Prop
  | number {f : Forest} (text : List Char) : Builds b (.number text) f
      (Tree.leaf (String.ofList text) (.number (Number.ofNumeral (String.ofList text)))) f
  | name {f : Forest} {text : List Char} {target : NodeId} : b.lookup (String.ofList text) = some target →
      Builds b (.name text) f (Tree.leaf (String.ofList text) (.variable (String.ofList text) target))
        (f.rewindLists target).2
  | group {f g : Forest} {inner : Phrase .expression} {ops : List Operator} {ts : List Tree} {t : Tree} :
      Builds b inner f (ops, ts) g → Groups ops ts t → Builds b (.group inner) f t g
  | constant {f : Forest} (h : Builtin) : Builds b (.constant h) f (Tree.call h.symbol h []) f
  | call {f g : Forest} {args : Phrase .arguments} {ts : List Tree} (h : Builtin) :
      Builds b args f ts g → Builds b (.call h args) f (Tree.call h.symbol h ts) g
  | list {f g : Forest} {items : Phrase .items} {vs : List Value} :
      Builds b items f vs g → Builds b (.list items) f (Tree.leaf "" (.list vs.toArray)) g
  | single {f g : Forest} {operand : Phrase .primary} {t : Tree} :
      Builds b operand f t g → Builds b (.single operand) f ([], [t]) g
  | chain {f g h : Forest} {operand : Phrase .primary} {rest : Phrase .expression} {t : Tree} {ops : List Operator}
      {ts : List Tree} (op : Operator) : Builds b operand f t g → Builds b rest g (ops, ts) h →
      Builds b (.chain operand op rest) f (op :: ops, t :: ts) h
  | argument {f g : Forest} {last : Phrase .expression} {ops : List Operator} {ts : List Tree} {t : Tree} :
      Builds b last f (ops, ts) g → Groups ops ts t → Builds b (.argument last) f [t] g
  | comma {f g h : Forest} {first : Phrase .expression} {rest : Phrase .arguments} {ops : List Operator}
      {ts us : List Tree} {t : Tree} : Builds b first f (ops, ts) g → Groups ops ts t → Builds b rest g us h →
      Builds b (.comma first rest) f (t :: us) h
  | item {f g : Forest} {last : Phrase .expression} {ops : List Operator} {ts : List Tree} {t : Tree} :
      Builds b last f (ops, ts) g → Groups ops ts t → Builds b (.item last) f [(g.compute t).1] (g.compute t).2
  | more {f g h : Forest} {first : Phrase .expression} {rest : Phrase .items} {ops : List Operator} {ts : List Tree}
      {t : Tree} {vs : List Value} : Builds b first f (ops, ts) g → Groups ops ts t →
      Builds b rest (g.compute t).2 vs h → Builds b (.more first rest) f ((g.compute t).1 :: vs) h

variable {b : Bindings} {k : Kind} {p : Phrase k} {f g : Forest} {m : Made k}

theorem Phrase.Builds.nodes (h : p.Builds b f m g) : g.nodes = f.nodes := by
  induction h with
  | number | constant => rfl
  | name => exact Forest.nodes_rewindLists _ _
  | group _ _ ih | call _ _ ih | list _ ih | single _ ih | argument _ _ ih => exact ih
  | chain _ _ _ ih ih' | comma _ _ _ ih ih' => exact ih'.trans ih
  | item _ _ ih => exact (Forest.nodes_compute _ _).trans ih
  | more _ _ _ ih ih' => exact ih'.trans ((Forest.nodes_compute _ _).trans ih)

/-- Expressions have one operand more than operators, and the trees made have all their parameters. -/
def Suits : {k : Kind} → Phrase k → Made k → Prop
  | .primary, _, t => Tree.Applied t
  | .expression, _, (ops, ts) => ts.length = ops.length + 1 ∧ ∀ t ∈ ts, Tree.Applied t
  | .arguments, p, ts => List.length ts = p.count ∧ ∀ t ∈ ts, Tree.Applied t
  | .items, _, _ => True

theorem Phrase.Builds.suits (h : p.Builds b f m g) (ha : p.Applied) : Suits p m := by
  induction h with
  | number | name | list => exact .leaf ..
  | group _ hg ih => exact hg.applied (ih ha).2
  | constant h => exact .call ha.symm (by simp)
  | call h _ ih => exact .call ((ih ha.2).1.trans ha.1) (ih ha.2).2
  | single _ ih => exact ⟨rfl, fun t ht => List.mem_singleton.1 ht ▸ ih ha⟩
  | chain _ _ _ ih ih' =>
    obtain ⟨hlen, happlied⟩ := ih' ha.2
    exact ⟨by rw [List.length_cons, List.length_cons, hlen], by simpa using ⟨ih ha.1, happlied⟩⟩
  | argument _ hg ih => exact ⟨rfl, by simpa using hg.applied (ih ha).2⟩
  | comma _ hg _ ih ih' =>
    obtain ⟨hlen, happlied⟩ := ih' ha.2
    exact ⟨by rw [List.length_cons, hlen]; rfl, by simpa using ⟨hg.applied (ih ha.1).2, happlied⟩⟩
  | item | more => trivial

/-- Whatever has all its parameters and bound names comes to something. -/
theorem Phrase.exists_builds (p : Phrase k) (ha : p.Applied) (hb : ∀ n ∈ p.names, b.contains n = true) (f : Forest) :
    ∃ m g, p.Builds b f m g := by
  -- the tree of an expression, once its operands are built
  have grouped : ∀ {p : Phrase .expression} {f g : Forest} {m : Made .expression}, p.Builds b f m g → p.Applied →
      ∃ ops ts t, m = (ops, ts) ∧ Groups ops ts t := by
    intro p f g m h hp
    obtain ⟨t, ht⟩ := Groups.exists_of_length (h.suits hp).1
    exact ⟨_, _, t, rfl, ht⟩
  induction p generalizing f with
  | number text => exact ⟨_, _, .number text⟩
  | name text =>
    obtain ⟨target, ht⟩ := Option.isSome_iff_exists.1 (hb _ (List.mem_singleton_self _))
    exact ⟨_, _, .name ht⟩
  | group inner ih =>
    obtain ⟨m, g, h⟩ := ih ha hb f
    obtain ⟨ops, ts, t, rfl, ht⟩ := grouped h ha
    exact ⟨_, _, .group h ht⟩
  | constant h => exact ⟨_, _, .constant h⟩
  | call h args ih =>
    obtain ⟨m, g, hm⟩ := ih ha.2 hb f
    exact ⟨_, _, .call h hm⟩
  | list items ih =>
    obtain ⟨m, g, hm⟩ := ih ha hb f
    exact ⟨_, _, .list hm⟩
  | single operand ih =>
    obtain ⟨m, g, hm⟩ := ih ha hb f
    exact ⟨_, _, .single hm⟩
  | chain operand op rest ih ih' =>
    obtain ⟨m, g, hm⟩ := ih ha.1 (fun n hn => hb n (List.mem_append_left _ hn)) f
    obtain ⟨m', h, hm'⟩ := ih' ha.2 (fun n hn => hb n (List.mem_append_right _ hn)) g
    exact ⟨_, _, .chain op hm hm'⟩
  | argument last ih =>
    obtain ⟨m, g, h⟩ := ih ha hb f
    obtain ⟨ops, ts, t, rfl, ht⟩ := grouped h ha
    exact ⟨_, _, .argument h ht⟩
  | comma first rest ih ih' =>
    obtain ⟨m, g, h⟩ := ih ha.1 (fun n hn => hb n (List.mem_append_left _ hn)) f
    obtain ⟨ops, ts, t, rfl, ht⟩ := grouped h ha.1
    obtain ⟨m', g', h'⟩ := ih' ha.2 (fun n hn => hb n (List.mem_append_right _ hn)) g
    exact ⟨_, _, .comma h ht h'⟩
  | item last ih =>
    obtain ⟨m, g, h⟩ := ih ha hb f
    obtain ⟨ops, ts, t, rfl, ht⟩ := grouped h ha
    exact ⟨_, _, .item h ht⟩
  | more first rest ih ih' =>
    obtain ⟨m, g, h⟩ := ih ha.1 (fun n hn => hb n (List.mem_append_left _ hn)) f
    obtain ⟨ops, ts, t, rfl, ht⟩ := grouped h ha.1
    obtain ⟨m', g', h'⟩ := ih' ha.2 (fun n hn => hb n (List.mem_append_right _ hn)) (g.compute t).2
    exact ⟨_, _, .more h ht h'⟩

/-! ## Taking the tokens of a phrase -/

/-- Taking tokens pushes atoms, whatever the draft holds, and changes the forest from one to
another. -/
def Puts (b : Bindings) (tokens : List Token) (f : Forest) (as : List Atom) (g : Forest) : Prop :=
  ∀ (y : Yard) (lists : List OpenList) (width : Nat), ∃ width',
    Draft.takeAll b ⟨f, y, lists, width⟩ tokens = some ⟨g, y.pushAll as, lists, width'⟩

/-- Taking the tokens of items adds values to the innermost list, which began with this forest. -/
def Collects (b : Bindings) (tokens : List Token) (f : Forest) (vs : List Value) (g : Forest) : Prop :=
  ∀ (outer : Yard) (items : Array Value) (lists : List OpenList) (width : Nat), ∃ width',
    Draft.takeAll b ⟨f, {}, ⟨outer, f.size, items⟩ :: lists, width⟩ tokens =
      some ⟨g, {}, ⟨outer, f.size, items ++ vs.toArray⟩ :: lists, width'⟩

/-- What taking the tokens of a phrase has to do. -/
def Carries (b : Bindings) : {k : Kind} → Phrase k → Forest → Made k → Forest → Prop
  | .primary, p, f, t, g => ∃ as, Converts as t none ∧ Puts b p.tokens f as g
  | .expression, p, f, (ops, ts), g =>
    ∃ rows, List.Forall₂ (Converts · · none) rows ts ∧ Puts b p.tokens f (weave rows ops) g
  | .arguments, p, f, ts, g => ∃ as, ConvertsAll as ts ∧ Puts b p.tokens f as g
  | .items, p, f, vs, g => Collects b p.tokens f vs g

section Puts

variable {h : Forest} {tokens tokens' : List Token} {as as' : List Atom}

theorem Puts.append (hf : Puts b tokens f as g) (hg : Puts b tokens' g as' h) :
    Puts b (tokens ++ tokens') f (as ++ as') h := by
  intro y lists width
  obtain ⟨width', hw⟩ := hf y lists width
  obtain ⟨width'', hw'⟩ := hg (y.pushAll as) lists width'
  exact ⟨width'', by rw [Draft.takeAll_append, hw, Yard.pushAll_append]; exact hw'⟩

/-- One token that is an atom. -/
theorem puts_atom {token : Token} {a : Atom}
    (ht : ∀ d : Draft, d.take b token = some { d with yard := d.yard.push a }) : Puts b [token] f [a] f := by
  intro y lists width
  exact ⟨width, by rw [Draft.takeAll, ht]; rfl⟩

theorem puts_opening : Puts b [Phrase.opening] f [Mark.opening.atom] f :=
  puts_atom fun _ => rfl

theorem puts_closing : Puts b [Phrase.closing] f [Mark.closing.atom] f :=
  puts_atom fun _ => rfl

theorem puts_between : Puts b [Phrase.between] f [Mark.comma.atom] f :=
  puts_atom fun _ => rfl

theorem puts_operator (op : Operator) : Puts b [⟨op.symbol, .operator op⟩] f [op.atom] f :=
  puts_atom fun _ => rfl

theorem puts_builtin (h : Builtin) : Puts b [⟨h.symbol, .builtin h⟩] f [h.atom] f :=
  puts_atom fun _ => rfl

theorem puts_number (text : String) :
    Puts b [⟨text, .number⟩] f [⟨text, .operand (.number (Number.ofNumeral text))⟩] f :=
  puts_atom fun _ => rfl

theorem puts_variable {name : String} {target : NodeId} (ht : b.lookup name = some target) :
    Puts b [⟨name, .variable⟩] f [⟨name, .operand (.variable name target)⟩] (f.rewindLists target).2 := by
  intro y lists width
  refine ⟨max width (f.rewindLists target).1, ?_⟩
  simp only [Draft.takeAll, Draft.take, ht, Option.map_some, Draft.addVariable, Draft.add]
  rfl

/-- The values of a list go into one atom of the formula around it. -/
theorem Collects.puts {vs : List Value} (hc : Collects b tokens f vs g) :
    Puts b (⟨"", .listStart⟩ :: (tokens ++ [⟨"", .listEnd⟩])) f [⟨"", .operand (.list vs.toArray)⟩] g := by
  intro y lists width
  obtain ⟨width', hw⟩ := hc y #[] lists width
  refine ⟨max width' vs.toArray.size, ?_⟩
  simp only [Draft.takeAll, Draft.take, Draft.beginList, Draft.takeAll_append, hw, Option.bind_some, Draft.endList,
    Draft.add, Array.empty_append]
  rfl

/-- An item is complete: its tree is computed over the forest and its value kept. -/
theorem Puts.collects {ops : List Operator} {ts : List Tree} {t : Tree} {rows : List (List Atom)}
    (hp : Puts b tokens f (weave rows ops) g) (hn : g.nodes = f.nodes) (ht : Groups ops ts t)
    (hr : List.Forall₂ (Converts · · none) rows ts) (ha : ∀ t ∈ ts, t.Applied) :
    Collects b (tokens ++ [⟨"", .itemEnd⟩]) f [(g.compute t).1] (g.compute t).2 := by
  intro outer items lists width
  obtain ⟨width', hw⟩ := hp {} (⟨outer, f.size, items⟩ :: lists) width
  refine ⟨width', ?_⟩
  rw [Draft.takeAll_append, hw]
  simp only [Option.bind_some, Draft.takeAll, Draft.take, Draft.endItem, ht.finish_weave hr ha, ← Forest.size_congr hn]
  simp [Forest.compute]

theorem Collects.append {vs us : List Value} (hf : Collects b tokens f vs g) (hn : g.nodes = f.nodes)
    (hg : Collects b tokens' g us h) : Collects b (tokens ++ tokens') f (vs ++ us) h := by
  intro outer items lists width
  obtain ⟨width', hw⟩ := hf outer items lists width
  obtain ⟨width'', hw'⟩ := hg outer (items ++ vs.toArray) lists width'
  refine ⟨width'', ?_⟩
  rw [Draft.takeAll_append, hw, Option.bind_some, ← Forest.size_congr hn, hw']
  simp

end Puts

/-- Taking the tokens of a phrase does what the phrase comes to. -/
theorem Phrase.Builds.carries (h : p.Builds b f m g) (ha : p.Applied) : Carries b p f m g := by
  induction h with
  | number text => exact ⟨_, converts_leaf _ _, puts_number _⟩
  | name ht => exact ⟨_, converts_leaf _ _, puts_variable ht⟩
  | group _ hg ih =>
    obtain ⟨rows, hr, hp⟩ := ih ha
    obtain ⟨top, -, converts⟩ := hg.converts hr
    exact ⟨_, converts_group converts, puts_opening.append (hp.append puts_closing)⟩
  | constant h => exact ⟨_, converts_constant _ h, puts_builtin h⟩
  | call h _ ih =>
    obtain ⟨as, has, hp⟩ := ih ha.2
    exact ⟨_, has.call _ _ _ h, (puts_builtin h).append (puts_opening.append (hp.append puts_closing))⟩
  | list _ ih => exact ⟨_, converts_leaf _ _, (ih ha).puts⟩
  | single _ ih =>
    obtain ⟨as, has, hp⟩ := ih ha
    exact ⟨[as], .cons has .nil, hp⟩
  | chain op _ _ ih ih' =>
    obtain ⟨as, has, hp⟩ := ih ha.1
    obtain ⟨rows, hr, hp'⟩ := ih' ha.2
    exact ⟨as :: rows, .cons has hr, hp.append ((puts_operator op).append hp')⟩
  | argument _ hg ih =>
    obtain ⟨rows, hr, hp⟩ := ih ha
    obtain ⟨top, -, converts⟩ := hg.converts hr
    exact ⟨_, converts.all, hp⟩
  | comma _ hg _ ih ih' =>
    obtain ⟨rows, hr, hp⟩ := ih ha.1
    obtain ⟨as, has, hp'⟩ := ih' ha.2
    obtain ⟨top, -, converts⟩ := hg.converts hr
    exact ⟨_, converts.comma _ has, hp.append (puts_between.append hp')⟩
  | item hb hg ih =>
    obtain ⟨rows, hr, hp⟩ := ih ha
    exact hp.collects hb.nodes hg hr (hb.suits ha).2
  | more hb hg _ ih ih' =>
    obtain ⟨rows, hr, hp⟩ := ih ha.1
    have first := hp.collects hb.nodes hg hr (hb.suits ha.1).2
    have both := first.append ((Forest.nodes_compute _ _).trans hb.nodes) (ih' ha.2)
    rw [List.append_assoc] at both
    exact both

/-- Taking the tokens of a formula ends with its atoms in an empty yard. -/
theorem Phrase.Builds.takeAll {p : Phrase .expression} {ops : List Operator} {ts : List Tree} {t : Tree}
    (h : p.Builds b f (ops, ts) g) (ha : p.Applied) (ht : Groups ops ts t) :
    ∃ d, Draft.takeAll b { forest := f } p.tokens = some d ∧
      d.yard.finish d.forest = (some (t.plant g).1, (t.plant g).2) := by
  obtain ⟨rows, hr, hp⟩ := h.carries ha
  obtain ⟨width, hw⟩ := hp {} [] 0
  exact ⟨_, hw, ht.finish_weave hr (h.suits ha).2 g⟩

end Reading

end Formulary
