/-
What a session has to know for a formula. Whether a text is accepted depends on the options and on
which names are bound, and not on what these are bound to: under the same options, a session that binds
more names accepts whatever one that binds fewer does, with a tree of the same sketch, and it refuses
in the same way whatever is not refused for a name. No name is ever forgotten, so what was accepted
once is accepted ever after.
-/
import Formulary.Proofs.Session.Options
import Formulary.Proofs.Session.Independence
import Formulary.Proofs.Reading.Sketch

namespace Formulary

open Reading

namespace Session

/-- A session has the options of another one and binds all of its names. -/
structure Knows (s' s : Session) : Prop where
  options : s'.options = s.options
  names : ∀ name, s.bindings.contains name = true → s'.bindings.contains name = true

theorem Knows.refl (s : Session) : s.Knows s :=
  ⟨rfl, fun _ h => h⟩

theorem Knows.trans {s s' s'' : Session} (h' : s''.Knows s') (h : s'.Knows s) : s''.Knows s :=
  ⟨h'.options.trans h.options, fun name hn => h'.names name (h.names name hn)⟩

/-- A formula adds a name at most. -/
theorem knows_parse (s : Session) (text : String) : (s.parse text).2.Knows s := by
  refine ⟨options_parse s text, fun name hn => ?_⟩
  rcases s.parse_cases text with ⟨error, forest, -, hp⟩ | ⟨d, root, forest, -, -, -, hp⟩
  · rw [hp]
    exact hn
  · rw [hp, bindings_accept]
    cases (read s.scope text).target with
    | none => exact hn
    | some target =>
      show ((s.bindings.bind target root).lookup name).isSome = true
      rw [Bindings.lookup_bind]
      split
      · rfl
      · exact hn

/-- No step of a run forgets a name, and so no run does. -/
theorem Later.knows {s s' : Session} (h : s.Later s') : s'.Knows s := by
  induction h with
  | refl => exact .refl s
  | tail _ step ih =>
    refine Knows.trans ?_ ih
    cases step with
    | parse text => exact knows_parse _ text
    | asked ha =>
      rw [ha.alike.twin]
      exact ⟨rfl, fun _ hn => hn⟩

/-- Whoever knows more reads the same, where it is not a name that is unknown. -/
theorem Knows.widens {s s' : Session} (h : s'.Knows s) :
    s.scope.Widens (fun e => ∃ name, e.fault = .undefinedVariable name) s'.scope :=
  widens_names (congrArg Options.matchPolicy h.options) (congrArg Options.maxNestingDepth h.options) h.names

/-! ## What a text comes to -/

/-- A text is accepted: the session gains a tree of this sketch, and binds this name to its root. -/
def AcceptsAs (s : Session) (text : String) (name? : Option String) (sketch : Tree) : Prop :=
  (s.parse text).1.result = .ok () ∧ ∃ root t, s.Gained (s.parse text).2 root t ∧ t.sketch = sketch ∧
    (s.parse text).2.bindings = name?.elim s.bindings (s.bindings.bind · root)

/-- A session that knows as much as another one comes to the same with a text: it accepts it with the
same name and sketch, and refuses it with the same error, unless that is an unknown name. -/
structure CarriesOn (s' s : Session) (text : String) : Prop where
  ok : (s.parse text).1.result = .ok () →
    ∃ name? sketch, s.AcceptsAs text name? sketch ∧ s'.AcceptsAs text name? sketch
  error : ∀ e, (s.parse text).1.result = .error e → (∀ name, e.fault ≠ .undefinedVariable name) →
    (s'.parse text).1.result = .error e

variable {s s' : Session} {text : String}

/-- What has been read as a formula is accepted with its sketch. -/
theorem acceptsAs_of_read {φ : Formula} (he : (read s.scope text).error? = none)
    (htarget : (read s.scope text).target = φ.target.map String.ofList)
    (htokens : (read s.scope text).tokens = φ.body.tokens) (ha : φ.body.Applied) {ops : List Operator}
    {ts : List Tree} {t : Tree} {g : Forest} (hb : φ.body.Builds s.bindings s.forest (ops, ts) g)
    (ht : Groups ops ts t) : s.AcceptsAs text (φ.target.map String.ofList) t.sketch := by
  obtain ⟨width, hp⟩ := parse_of_builds he htarget htokens ha hb ht
  rw [AcceptsAs, hp]
  exact ⟨result_accept .., _, t, gained_accept hb .., rfl, bindings_accept ..⟩

theorem Knows.parse_ok (h : s'.Knows s) (hok : (s.parse text).1.result = .ok ()) :
    ∃ name? sketch, s.AcceptsAs text name? sketch ∧ s'.AcceptsAs text name? sketch := by
  have he := (result_parse_iff s text).1 hok
  obtain ⟨φ, -, ha, htarget, htokens⟩ := read_sound he
  rcases h.widens.read text with same | ⟨e, he', -⟩
  · have ha' : φ.Admitted s'.scope := by
      refine ⟨ha.applied, fun n hn => h.names n (ha.bound n hn), ?_⟩
      have limit : s'.scope.nestingLimit = s.scope.nestingLimit := congrArg Options.maxNestingDepth h.options
      rw [limit]
      exact ha.depth
    obtain ⟨ops, ts, t, g, hb, ht⟩ := exists_tree ha
    obtain ⟨ops', ts', t', g', hb', ht'⟩ := exists_tree ha'
    refine ⟨_, t.sketch, acceptsAs_of_read he htarget htokens ha.applied hb ht, ?_⟩
    rw [ht.sketch_eq ht' (hb.sketch_eq hb')]
    exact acceptsAs_of_read (by rw [same, he]) (by rw [same, htarget]) (by rw [same, htokens]) ha.applied hb' ht'
  · rw [he] at he'
    cases he'

theorem Knows.parse_error (h : s'.Knows s) {e : ReadError} (he : (s.parse text).1.result = .error e)
    (hne : ∀ name, e.fault ≠ .undefinedVariable name) : (s'.parse text).1.result = .error e := by
  rw [result_parse_eq_error] at he ⊢
  rcases h.widens.read text with same | ⟨e', he', name, hname⟩
  · rw [same, he]
  · cases he.symm.trans he'
    exact absurd hname (hne name)

/-- What a text comes to depends on the options and on which names are bound, and not on what they are
bound to: a session carries on from every other one that it knows as much as. So what has been accepted
in a run is accepted at every later point of it. -/
theorem carriesOn (s : Session) (text : String) :
    (∀ s' : Session, s'.Knows s → s'.CarriesOn s text) ∧
    ∀ s' : Session, s.Later s' → (s.parse text).1.result = .ok () → (s'.parse text).1.result = .ok () := by
  refine ⟨fun s' h => ⟨h.parse_ok, fun e he => h.parse_error he⟩, fun s' later hok => ?_⟩
  obtain ⟨name?, sketch, -, accepted⟩ := later.knows.parse_ok hok
  exact accepted.1

/-- With `a` bound to a sum and no longer to a list, `b=[a,1]*a` comes to a tree of the same sketch. -/
theorem carriesOn_listBound : (listBound.parse "a=a+a").2.Knows listBound ∧
    (listBound.parse "b=[a,1]*a").1.result = .ok () ∧
    ((listBound.parse "a=a+a").2.parse "b=[a,1]*a").1.result = .ok () ∧
    ∃ name? sketch, listBound.AcceptsAs "b=[a,1]*a" name? sketch ∧
      (listBound.parse "a=a+a").2.AcceptsAs "b=[a,1]*a" name? sketch := by
  have later : listBound.Later (listBound.parse "a=a+a").2 := .single (.parse _ _)
  have hok : (listBound.parse "b=[a,1]*a").1.result = .ok () := by
    rw [result_parse_iff, scope_listBound]
    decide +kernel
  obtain ⟨carried, ever⟩ := carriesOn listBound "b=[a,1]*a"
  exact ⟨later.knows, hok, ever _ later hok, (carried _ later.knows).ok hok⟩

end Session

end Formulary
