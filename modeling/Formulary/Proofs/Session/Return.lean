/-
Nothing that has been read can fail to be put together. Reading comes back from every expression and
primary to the level at which it began, so the formula of a text and the items of its lists all
begin as new ones and end as trees: there is no other cause to refuse a text than an error in it.
-/
import Formulary.Proofs.Session.Options
import Formulary.Proofs.Reading.Return

namespace Formulary

open Reading Text

namespace Session

variable {s : Session} {text : String}

/-- Wherever an item of a list is complete, its atoms make a tree. -/
theorem exists_finish_item {before after : List Token} {token : Token}
    (h : (read s.scope text).tokens = before ++ token :: after) (hk : token.kind = .itemEnd) :
    ∃ d list others root f, s.draft.takeAll s.bindings before = some d ∧ d.lists = list :: others ∧
      d.yard.finish d.forest = (some root, f) := by
  obtain ⟨last, hlast⟩ := s.exists_takeAll text
  rw [h, Draft.takeAll_append] at hlast
  obtain ⟨d, hd, hrest⟩ := Option.bind_eq_some_iff.1 hlast
  rw [Draft.takeAll] at hrest
  split at hrest
  · cases hrest
  · rename_i next hnext
    rw [Draft.take, hk] at hnext
    obtain ⟨list, others, root, f, hlists, hfin, -⟩ := Draft.endItem_eq_some.1 hnext
    exact ⟨d, list, others, root, f, hd, hlists, hfin⟩

/-- Where a text has been read to its end, its atoms make a tree. -/
theorem exists_finish (h : (read s.scope text).error? = none) : ∃ d root f,
    s.draft.takeAll s.bindings (read s.scope text).tokens = some d ∧ d.yard.finish d.forest = (some root, f) := by
  obtain ⟨d, root, f, hd, hfin, -⟩ := parse_of_ok ((result_parse_iff s text).2 h)
  exact ⟨d, root, f, hd, hfin⟩

/-- Whenever the driver reads an expression or a primary well from a place where no lexeme has been begun,
whatever it has built by then, it comes back: at least one character has been read, no lexeme is left, and
the brackets, the yards that rest, the nodes of the forest and the depth of parentheses in the yard at
hand are the same; and if an expression was begun with a fresh yard, a tree can be put together in the
end. So it fails in an item of a list only where reading its expression fails. All this is so too for
reading alone and taking the tokens that were read. Hence a tree comes out of every item of a list that
the session reads and of every text that it reads to its end, and what it refuses it refuses for the
error that was read. -/
theorem comesBack (s : Session) (text : String) :
    (∀ (bound : Nat) (d : Driver), d.cursor.lexeme = "" →
      (∀ d', Driver.expression s.options s.bindings bound d = .ok () d' →
        d.Returned d' ∧ (d.yard = {} → ∃ root f, d'.yard.finish d'.forest = (some root, f))) ∧
      (∀ d', Driver.primary s.options s.bindings (Driver.expression s.options s.bindings bound) bound d = .ok () d' →
        d.Returned d') ∧
      ∀ e d', Driver.item (Driver.expression s.options s.bindings bound) d = .error e d' →
        ∃ d'', Driver.expression s.options s.bindings bound d.pause = .error e d'') ∧
    (∀ (bound : Nat) (start stop : State) (d : Draft), start.cursor.lexeme = "" →
      (expression s.scope bound start = .ok () stop → ∃ d', Returned s.bindings start d stop d' ∧
        (d.yard = {} → ∃ root f, d'.yard.finish d'.forest = (some root, f))) ∧
      (primary s.scope (expression s.scope bound) bound start = .ok () stop →
        ∃ d', Returned s.bindings start d stop d')) ∧
    (∀ before token after, (read s.scope text).tokens = before ++ token :: after → token.kind = .itemEnd →
      ∃ d list others root f, s.draft.takeAll s.bindings before = some d ∧ d.lists = list :: others ∧
        d.yard.finish d.forest = (some root, f)) ∧
    ((read s.scope text).error? = none → ∃ d root f,
      s.draft.takeAll s.bindings (read s.scope text).tokens = some d ∧ d.yard.finish d.forest = (some root, f)) ∧
    ∀ e, (s.parse text).1.result = .error e ↔ (read s.scope text).error? = some e := by
  have bound : ∀ n, s.scope.binds n = true → s.bindings.contains n = true := fun _ h => h
  refine ⟨fun _ d hl => ⟨fun _ => Driver.expression_returned hl, fun _ => Driver.primary_returned hl,
      fun _ _ => Driver.item_error hl⟩,
    fun _ start stop d hl => ⟨fun h => ?_, fun h => ?_⟩, fun before token after => exists_finish_item,
    exists_finish, fun e => result_parse_eq_error⟩
  · exact expression_returned bound hl h d
  · exact primary_returned bound hl h d

/-- The start of a formula with an item in parentheses. -/
def bracketed : State :=
  { cursor := .ofText "[a,(a)]^PI" }

/-- The driver there. -/
def driving : Driver :=
  listBound.driver bracketed.cursor

theorem comesBack_listBound : bracketed.cursor.lexeme = "" ∧
    (∃ d, Driver.expression listBound.options listBound.bindings 11 driving = .ok () d ∧ driving.Returned d ∧
      ∃ root f, d.yard.finish d.forest = (some root, f)) ∧
    (∃ d, Driver.primary listBound.options listBound.bindings
      (Driver.expression listBound.options listBound.bindings 10) 10 driving = .ok () d ∧ driving.Returned d) ∧
    (∃ stop d', expression listBound.scope 11 bracketed = .ok () stop ∧
      Returned listBound.bindings bracketed listBound.draft stop d' ∧
      ∃ root f, d'.yard.finish d'.forest = (some root, f)) ∧
    (∃ stop d', primary listBound.scope (expression listBound.scope 10) 10 bracketed = .ok () stop ∧
      Returned listBound.bindings bracketed listBound.draft stop d') ∧
    (∃ before after, (read listBound.scope "[a,(a)]^PI").tokens = before ++ ⟨"", .itemEnd⟩ :: after ∧
      before.length = 6 ∧ ∃ d list others root f, listBound.draft.takeAll listBound.bindings before = some d ∧
        d.lists = list :: others ∧ d.yard.finish d.forest = (some root, f)) ∧
    (read listBound.scope "[a,(a)]^PI").error? = none ∧
    ∃ d root f, listBound.draft.takeAll listBound.bindings (read listBound.scope "[a,(a)]^PI").tokens = some d ∧
      d.yard.finish d.forest = (some root, f) := by
  have ends : ∀ {σ : Type} {r : EStateM ReadError σ Unit} {s : σ}, (r.run' s).isSome = true →
      ∃ s', r s = .ok () s' := by
    intro σ r s h
    cases hr : r s with
    | ok u s' => exact ⟨s', rfl⟩
    | error e s' =>
      unfold EStateM.run' EStateM.run at h
      rw [hr] at h
      cases h
  have whole : ∃ stop, expression listBound.scope 11 bracketed = .ok () stop := by
    rw [scope_listBound]
    exact ends (by decide +kernel)
  have list : ∃ stop, primary listBound.scope (expression listBound.scope 10) 10 bracketed = .ok () stop := by
    rw [scope_listBound]
    exact ends (by decide +kernel)
  have drivenWhole : ∃ d, Driver.expression listBound.options listBound.bindings 11 driving = .ok () d :=
    ends (by decide +kernel)
  have drivenList : ∃ d, Driver.primary listBound.options listBound.bindings
      (Driver.expression listBound.options listBound.bindings 10) 10 driving = .ok () d :=
    ends (by decide +kernel)
  have tokens : (read listBound.scope "[a,(a)]^PI").tokens =
      [⟨"", .listStart⟩, ⟨"a", .variable⟩, ⟨"", .itemEnd⟩, ⟨"(", .mark .opening⟩, ⟨"a", .variable⟩,
          ⟨")", .mark .closing⟩] ++
        ⟨"", .itemEnd⟩ :: [⟨"", .listEnd⟩, ⟨"^", .operator .power⟩, ⟨"PI", .builtin .pi⟩] := by
    rw [scope_listBound]
    decide +kernel
  have error : (read listBound.scope "[a,(a)]^PI").error? = none := by
    rw [scope_listBound]
    decide +kernel
  obtain ⟨drives, calls, items, finished, -⟩ := comesBack listBound "[a,(a)]^PI"
  obtain ⟨last, hlast⟩ := drivenWhole
  obtain ⟨returnedWhole, finishesWhole⟩ := (drives 11 driving rfl).1 last hlast
  obtain ⟨last', hlast'⟩ := drivenList
  obtain ⟨stop, hstop⟩ := whole
  obtain ⟨d, returned, finishes⟩ := (calls 11 bracketed stop listBound.draft rfl).1 hstop
  obtain ⟨stop', hstop'⟩ := list
  obtain ⟨d', returned'⟩ := (calls 10 bracketed stop' listBound.draft rfl).2 hstop'
  have returnedList := (drives 10 driving rfl).2.1 last' hlast'
  exact ⟨rfl, ⟨last, hlast, returnedWhole, finishesWhole rfl⟩, ⟨last', hlast', returnedList⟩,
    ⟨stop, d, hstop, returned, finishes rfl⟩, ⟨stop', d', hstop', returned'⟩,
    ⟨_, _, tokens, rfl, items _ _ _ tokens rfl⟩, error, finished error⟩

end Session

end Formulary
