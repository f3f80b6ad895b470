/-
Where a formula mentions a list last. A variable that reaches the list puts its cursor back to zero;
if it stands inside of a list literal, the item around it is evaluated when it ends, and reads on. So
once all tokens of a phrase have been followed, the place of the last such variable tells whether the
cursor is at zero.
-/
import Formulary.Proofs.Reading.Trail
import Formulary.Proofs.Reading.Phrase

namespace Formulary.Reading

open Forest

/-- The number of list literals that are open, and whether the last variable that reaches a place
stood inside of one, if there was such a variable. -/
structure Mention where
  depth : Nat := 0
  inside? : Option Bool := none
  deriving DecidableEq, Repr

/-- Goes over one token. -/
def Mention.step (b : Bindings) (f : Forest) (place : NodeId) (m : Mention) (token : Token) : Mention :=
  match token.kind with
  | .variable =>
    match b.lookup token.text with
    | none => m
    | some target => if place ∈ f.reachable target then { m with inside? := some (decide (0 < m.depth)) } else m
  | .listStart => { m with depth := m.depth + 1 }
  | .listEnd => { m with depth := m.depth - 1 }
  | _ => m

/-- Goes over tokens in turn. -/
def Mention.follow (b : Bindings) (f : Forest) (place : NodeId) (m : Mention) (tokens : List Token) : Mention :=
  tokens.foldl (Mention.step b f place) m

/-- The reads that the open items will take, without those of the formula around all lists. -/
def Trail.inner (trail : Trail) : List Nat :=
  (trail.reads :: trail.outer).dropLast

/-- What the last mention of a list of this size tells about its trail. Nothing reads a list that
has not been mentioned. After a mention outside of all list literals its cursor is at zero and no
open item reads it; after one inside, it has been read or an open item will read it. -/
structure Mention.Tells (size : Nat) (m : Mention) (trail : Trail) : Prop where
  depth : m.depth = trail.outer.length
  unmentioned : m.inside? = none → ∀ n ∈ trail.reads :: trail.outer, n = 0
  outside : m.inside? = some false → trail.cursor = 0 ∧ ∀ n ∈ trail.inner, n = 0
  inside : m.inside? = some true → 0 < size → 0 < trail.cursor ∨ ∃ n ∈ trail.inner, 0 < n
  empty : m.inside? ≠ none → size = 0 → trail.cursor = 0

namespace Mention.Tells

variable {b : Bindings} {f : Forest} {place : NodeId} {size : Nat} {m : Mention} {trail : Trail}

theorem start (size cursor : Nat) : Mention.Tells size {} { cursor := cursor } where
  depth := rfl
  unmentioned _ := by simp
  outside h := by cases h
  inside h := by cases h
  empty h := absurd rfl h

theorem listStart (h : m.Tells size trail) :
    (m.step b f place ⟨"", .listStart⟩).Tells size (trail.step b f place ⟨"", .listStart⟩) := by
  have inner : (trail.step b f place ⟨"", .listStart⟩).inner = 0 :: trail.inner := rfl
  constructor
  · exact congrArg (· + 1) h.depth
  · intro hm n hn
    rcases List.mem_cons.1 hn with rfl | hn
    · rfl
    · exact h.unmentioned hm n hn
  · intro hm
    obtain ⟨hc, hn⟩ := h.outside hm
    exact ⟨hc, by rw [inner]; simpa using hn⟩
  · intro hm hs
    rw [inner]
    exact (h.inside hm hs).imp id fun ⟨n, hn, hpos⟩ => ⟨n, List.mem_cons_of_mem _ hn, hpos⟩
  · exact h.empty

/-- An item ends, which only open lists have. -/
theorem itemEnd (h : m.Tells size trail) (hs : f.listSize? place = some size) (ho : trail.outer ≠ []) :
    (m.step b f place ⟨"", .itemEnd⟩).Tells size (trail.step b f place ⟨"", .itemEnd⟩) := by
  rcases trail with ⟨cursor, reads, _ | ⟨n, outer⟩⟩
  · exact absurd rfl ho
  have inner : Trail.inner ⟨cursor, reads, n :: outer⟩ = reads :: (n :: outer).dropLast := rfl
  have inner' : (Trail.step b f place ⟨cursor, reads, n :: outer⟩ ⟨"", .itemEnd⟩).inner = 0 :: (n :: outer).dropLast :=
    rfl
  have moved : (Trail.step b f place ⟨cursor, reads, n :: outer⟩ ⟨"", .itemEnd⟩).cursor =
      FullTree.after size cursor reads := by
    simp only [Trail.step, hs, Option.getD_some]
  constructor
  · exact h.depth
  · intro hm k hk
    rcases List.mem_cons.1 hk with rfl | hk
    · rfl
    · exact h.unmentioned hm k (List.mem_cons_of_mem _ hk)
  · intro hm
    obtain ⟨hc, hn⟩ := h.outside hm
    rw [inner] at hn
    have none : reads = 0 := hn reads (List.mem_cons_self ..)
    refine ⟨by rw [moved, none]; exact hc, fun k hk => ?_⟩
    rw [inner'] at hk
    rcases List.mem_cons.1 hk with rfl | hk
    · rfl
    · exact hn k (List.mem_cons_of_mem _ hk)
  · intro hm hpos
    rw [moved, inner']
    rcases Nat.eq_zero_or_pos reads with none | some
    · -- the item reads nothing, so whatever has read before or will read is still there
      rw [none]
      refine (h.inside hm hpos).imp id ?_
      rw [inner]
      rintro ⟨k, hk, hk0⟩
      rcases List.mem_cons.1 hk with rfl | hk
      · omega
      · exact ⟨k, List.mem_cons_of_mem _ hk, hk0⟩
    · left
      obtain ⟨more, rfl⟩ := Nat.exists_eq_add_of_lt some
      rw [Nat.zero_add, FullTree.after, if_neg (by omega)]
      omega
  · intro hm hzero
    rw [moved, hzero]
    have := h.empty hm hzero
    cases reads <;> simpa [FullTree.after] using this

/-- A list ends, right behind an item. -/
theorem listEnd (h : m.Tells size trail) (hr : trail.reads = 0) (ho : trail.outer ≠ []) :
    (m.step b f place ⟨"", .listEnd⟩).Tells size (trail.step b f place ⟨"", .listEnd⟩) := by
  rcases trail with ⟨cursor, reads, _ | ⟨n, outer⟩⟩
  · exact absurd rfl ho
  cases hr
  have inner : Trail.inner ⟨cursor, 0, n :: outer⟩ = 0 :: (n :: outer).dropLast := rfl
  have inner' : (Trail.step b f place ⟨cursor, 0, n :: outer⟩ ⟨"", .listEnd⟩).inner = (n :: outer).dropLast := rfl
  constructor
  · simp only [Mention.step, h.depth]
    rfl
  · exact fun hm k hk => h.unmentioned hm k (List.mem_cons_of_mem _ hk)
  · intro hm
    obtain ⟨hc, hn⟩ := h.outside hm
    rw [inner] at hn
    exact ⟨hc, fun k hk => hn k (List.mem_cons_of_mem _ hk)⟩
  · intro hm hs
    refine (h.inside hm hs).imp id ?_
    rw [inner, inner']
    rintro ⟨k, hk, hpos⟩
    rcases List.mem_cons.1 hk with rfl | hk
    · omega
    · exact ⟨k, hk, hpos⟩
  · exact h.empty

/-- A variable that reaches the list mentions it, and will read it. -/
theorem mentioned (h : m.Tells size trail) {reads : Nat} (hr : 0 < reads) :
    Mention.Tells size { m with inside? := some (decide (0 < m.depth)) }
      { trail with cursor := 0, reads := trail.reads + reads } := by
  rcases trail with ⟨cursor, before, outer⟩
  have depth : m.depth = outer.length := h.depth
  constructor
  · exact depth
  · intro hm
    cases hm
  · intro hm
    have none : ¬ 0 < outer.length := depth ▸ of_decide_eq_false (Option.some.inj hm)
    cases List.eq_nil_of_length_eq_zero (Nat.eq_zero_of_not_pos none)
    exact ⟨rfl, by simp [Trail.inner]⟩
  · intro hm _
    have some : 0 < outer.length := depth ▸ of_decide_eq_true (Option.some.inj hm)
    refine .inr ⟨before + reads, ?_, by omega⟩
    rw [Trail.inner, List.dropLast_cons_of_ne_nil (List.ne_nil_of_length_pos some)]
    exact List.mem_cons_self ..
  · exact fun _ _ => rfl

/-- A variable mentions the list if it reaches it, and leaves it alone otherwise. -/
theorem name (h : m.Tells size trail) (hf : f.Descends)
    (hb : ∀ name target, b.lookup name = some target → target < f.size) (hs : f.listSize? place = some size)
    (text : String) : (m.step b f place ⟨text, .variable⟩).Tells size (trail.step b f place ⟨text, .variable⟩) := by
  simp only [Mention.step, Trail.step]
  cases hl : b.lookup text with
  | none => exact h
  | some target =>
    have grounded := hf.grounded (hb text target hl)
    have isList : (f.listSize? place).isSome := by rw [hs]; rfl
    by_cases reached : place ∈ f.reachable target
    · simp only [if_pos reached, if_pos (And.intro reached isList)]
      obtain ⟨label, items, hp, -⟩ := get?_of_listSize? hs
      exact h.mentioned (readCount_pos grounded ((mem_reachable ..).1 reached).2 hp)
    · have unread := readCount_eq_zero grounded reached
      simp only [if_neg reached, if_neg fun both => reached (And.left both), unread, Nat.add_zero]
      exact h

end Mention.Tells

/-! ## Over phrases -/

section Phrases

variable {b : Bindings} {f : Forest} {place : NodeId} {size : Nat}

/-- Over these tokens a mention goes on telling, and all lists that they open they also close. -/
def Keeps (b : Bindings) (f : Forest) (place : NodeId) (size : Nat) (tokens : List Token) : Prop :=
  ∀ (m : Mention) (trail : Trail), m.Tells size trail →
    (m.follow b f place tokens).Tells size (trail.follow b f place tokens) ∧
      (trail.follow b f place tokens).outer = trail.outer

/-- Within a list the same holds for the tokens of items, and they leave no reads behind for the end
of the list. -/
def Fills (b : Bindings) (f : Forest) (place : NodeId) (size : Nat) (tokens : List Token) : Prop :=
  ∀ (m : Mention) (trail : Trail), m.Tells size trail → trail.outer ≠ [] →
    (m.follow b f place tokens).Tells size (trail.follow b f place tokens) ∧
      (trail.follow b f place tokens).outer = trail.outer ∧ (trail.follow b f place tokens).reads = 0

theorem Mention.follow_append (m : Mention) (tokens more : List Token) :
    m.follow b f place (tokens ++ more) = (m.follow b f place tokens).follow b f place more :=
  List.foldl_append

theorem Trail.follow_append (trail : Trail) (tokens more : List Token) :
    trail.follow b f place (tokens ++ more) = (trail.follow b f place tokens).follow b f place more :=
  List.foldl_append

theorem Keeps.append {tokens more : List Token} (h : Keeps b f place size tokens) (h' : Keeps b f place size more) :
    Keeps b f place size (tokens ++ more) := by
  intro m trail hm
  obtain ⟨told, outer⟩ := h m trail hm
  obtain ⟨told', outer'⟩ := h' _ _ told
  rw [Mention.follow_append, Trail.follow_append]
  exact ⟨told', outer'.trans outer⟩

/-- A token that is neither a variable nor part of a list. -/
theorem keeps_still {token : Token} (hm : ∀ m : Mention, m.step b f place token = m)
    (ht : ∀ trail : Trail, trail.step b f place token = trail) : Keeps b f place size [token] := by
  intro m trail h
  show (m.step b f place token).Tells size (trail.step b f place token) ∧ (trail.step b f place token).outer = _
  rw [hm, ht]
  exact ⟨h, rfl⟩

theorem keeps_number (text : String) : Keeps b f place size [⟨text, .number⟩] :=
  keeps_still (fun _ => rfl) fun _ => rfl

theorem keeps_builtin (g : Builtin) : Keeps b f place size [⟨g.symbol, .builtin g⟩] :=
  keeps_still (fun _ => rfl) fun _ => rfl

theorem keeps_operator (op : Operator) : Keeps b f place size [⟨op.symbol, .operator op⟩] :=
  keeps_still (fun _ => rfl) fun _ => rfl

theorem keeps_mark (text : String) (mark : Infix.Mark) : Keeps b f place size [⟨text, .mark mark⟩] :=
  keeps_still (fun _ => rfl) fun _ => rfl

theorem keeps_name (hf : f.Descends) (hb : ∀ name target, b.lookup name = some target → target < f.size)
    (hs : f.listSize? place = some size) (text : String) : Keeps b f place size [⟨text, .variable⟩] := by
  intro m trail h
  refine ⟨h.name hf hb hs text, ?_⟩
  show (trail.step b f place ⟨text, .variable⟩).outer = trail.outer
  simp only [Trail.step]
  split <;> rfl

/-- The tokens of an expression, as an item. -/
theorem Keeps.fills {tokens : List Token} (h : Keeps b f place size tokens) (hs : f.listSize? place = some size) :
    Fills b f place size (tokens ++ [⟨"", .itemEnd⟩]) := by
  intro m trail hm ho
  obtain ⟨told, outer⟩ := h m trail hm
  have ended : (Mention.step b f place _ ⟨"", .itemEnd⟩).Tells size (Trail.step b f place _ ⟨"", .itemEnd⟩) :=
    told.itemEnd hs (by rwa [outer])
  rw [Mention.follow_append, Trail.follow_append]
  exact ⟨ended, outer, rfl⟩

theorem Fills.append {tokens more : List Token} (h : Fills b f place size tokens) (h' : Fills b f place size more) :
    Fills b f place size (tokens ++ more) := by
  intro m trail hm ho
  obtain ⟨told, outer, -⟩ := h m trail hm ho
  obtain ⟨told', outer', reads⟩ := h' _ _ told (by rwa [outer])
  rw [Mention.follow_append, Trail.follow_append]
  exact ⟨told', outer'.trans outer, reads⟩

/-- The tokens of items, as a list. -/
theorem Fills.keeps {tokens : List Token} (h : Fills b f place size tokens) :
    Keeps b f place size (⟨"", .listStart⟩ :: (tokens ++ [⟨"", .listEnd⟩])) := by
  intro m trail hm
  have began : (m.step b f place ⟨"", .listStart⟩).Tells size (trail.step b f place ⟨"", .listStart⟩) := hm.listStart
  have opened : (trail.step b f place ⟨"", .listStart⟩).outer ≠ [] := by simp [Trail.step]
  obtain ⟨told, outer, reads⟩ := h _ _ began opened
  have ended : (Mention.step b f place _ ⟨"", .listEnd⟩).Tells size (Trail.step b f place _ ⟨"", .listEnd⟩) :=
    told.listEnd reads (by rwa [outer])
  have split : ∀ token : Token, token :: (tokens ++ [⟨"", .listEnd⟩]) = [token] ++ tokens ++ [⟨"", .listEnd⟩] :=
    fun _ => rfl
  rw [split, Mention.follow_append, Trail.follow_append, Mention.follow_append, Trail.follow_append]
  refine ⟨ended, ?_⟩
  -- the list that ends is the one that was begun
  exact congrArg List.tail outer

/-- What the tokens of a phrase do to mentions. -/
def Follows (b : Bindings) (f : Forest) (place : NodeId) (size : Nat) : {k : Kind} → Phrase k → Prop
  | .items, p => Fills b f place size p.tokens
  | .primary, p | .expression, p | .arguments, p => Keeps b f place size p.tokens

theorem Phrase.follows (hf : f.Descends) (hb : ∀ name target, b.lookup name = some target → target < f.size)
    (hs : f.listSize? place = some size) {k : Kind} (p : Phrase k) : Follows b f place size p := by
  induction p with
  | number text => exact keeps_number _
  | name text => exact keeps_name hf hb hs _
  | group inner ih => exact (keeps_mark _ _).append (ih.append (keeps_mark _ _))
  | constant g => exact keeps_builtin g
  | call g args ih => exact (keeps_builtin g).append ((keeps_mark _ _).append (ih.append (keeps_mark _ _)))
  | list items ih => exact ih.keeps
  | single operand ih => exact ih
  | chain operand op rest ih ih' => exact ih.append ((keeps_operator op).append ih')
  | argument last ih => exact ih
  | comma first rest ih ih' => exact ih.append ((keeps_mark _ _).append ih')
  | item last ih => exact ih.fills hs
  | more first rest ih ih' =>
    have both := (ih.fills hs).append ih'
    rw [List.append_assoc] at both
    exact both

end Phrases

end Formulary.Reading
