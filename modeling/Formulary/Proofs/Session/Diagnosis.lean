/-
What an error tells. It stands where the text read ends, with the character found there. And unless a
name is not bound or brackets nest too deep, that character is the first one that is wrong: everything
before it is the beginning of a text that the session would accept.
-/
import Formulary.Proofs.Session.Options
import Formulary.Proofs.Reading.Viability

namespace Formulary

open Reading

namespace Session

/-- A formula that may be read whatever its depth is accepted under every limit that leaves room for
its brackets. -/
theorem parse_of_readable {s : Session} {text : String} {φ : Formula} (h : φ.Spells text.toList)
    (hr : φ.body.Readable s.scope) {limit : Nat} (hl : φ.body.depth ≤ limit) :
    ((s.withLimit limit).parse text).1.result = .ok () := by
  have admitted : φ.Admitted (s.withLimit limit).scope := ⟨hr.applied, hr.bound, hl⟩
  exact (result_parse_iff _ _).2 (read_of_finds h admitted hr.found).1

/-- An error splits the text into what has been read and a rest that begins with the character found;
nothing is found only at the end. If the error is no unknown name and not for the depth of brackets,
what has been read can be continued to a text that is accepted, as soon as the limit leaves room for
its brackets. -/
theorem located (s : Session) {text : String} {e : ReadError} (he : (s.parse text).1.result = .error e) :
    (∃ rest, text.toList = e.parsed.toList ++ rest ∧ e.found = rest.head?) ∧
    (e.found = none ↔ e.parsed = text) ∧
    ((∀ name, e.fault ≠ .undefinedVariable name) → (∀ limit, e.fault ≠ .nestingTooDeep limit) →
      ∃ (more : String) (depth : Nat), ∀ limit, depth ≤ limit →
        ((s.withLimit limit).parse (e.parsed ++ more)).1.result = .ok ()) := by
  obtain ⟨⟨rest, htext, hfound⟩, viable⟩ := read_viable (result_parse_eq_error.1 he)
  refine ⟨⟨rest, htext, hfound⟩, ?_, fun hname hdeep => ?_⟩
  · rw [hfound, List.head?_eq_none_iff]
    constructor
    · rintro rfl
      rw [List.append_nil] at htext
      exact String.toList_inj.1 htext.symm
    · intro same
      rw [same] at htext
      simpa using htext
  · rcases viable with (⟨name, hf⟩ | ⟨limit, hf⟩) | ⟨more, φ, spells, readable⟩
    · exact absurd hf (hname name)
    · exact absurd hf (hdeep limit)
    · refine ⟨String.ofList more, φ.body.depth, fun limit hl => parse_of_readable ?_ readable hl⟩
      rw [String.toList_append, String.toList_ofList]
      exact spells

/-- In `b = [a, log(2 )]` the second argument is missing; without the parenthesis it could follow. -/
theorem located_listBound : ∃ e, (listBound.parse "b = [a, log(2 )]").1.result = .error e ∧
    e = ⟨.expectedComma, "b = [a, log(2 ", some ')'⟩ ∧
    (∃ rest, "b = [a, log(2 )]".toList = e.parsed.toList ++ rest ∧ e.found = rest.head?) ∧
    ∃ (more : String) (depth : Nat), ∀ limit, depth ≤ limit →
      ((listBound.withLimit limit).parse (e.parsed ++ more)).1.result = .ok () := by
  have error : (read listBound.scope "b = [a, log(2 )]").error? =
      some ⟨.expectedComma, "b = [a, log(2 ", some ')'⟩ := by
    rw [scope_listBound]
    decide +kernel
  have refused := result_parse_eq_error.2 error
  obtain ⟨place, -, viable⟩ := located listBound refused
  exact ⟨_, refused, rfl, place, viable (by simp) (by simp)⟩

end Session

end Formulary
