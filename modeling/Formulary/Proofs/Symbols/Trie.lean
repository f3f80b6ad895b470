/-
Prefix trees whose nodes name each other by places, and the rows of branches they stand for. Entering
a symbol changes only nodes on its way and adds the others at the end, so every branch beside the way
stays what it was; and walking from place to place finds what is found in the row.
-/
import Formulary.Proofs.Symbols.Row

namespace Formulary.Symbols

variable {α : Type}

/-! ## Nodes that stand for a row -/

/-- From the children of a node on, the nodes at the places stand for a row. -/
inductive Shows (nodes : Array (TrieNode α)) : List (Char × Nat) → Row α → List Nat → Prop
  | nil : Shows nodes [] .nil []
  | branch {c : Char} {place : Nat} {node : TrieNode α} {children : List (Char × Nat)} {below beside : Row α}
      {inner outer : List Nat} : nodes[place]? = some node → Shows nodes node.children below inner →
      Shows nodes children beside outer →
      Shows nodes ((c, place) :: children) (.branch c node.entry below beside) (place :: (inner ++ outer))

namespace Shows

variable {nodes nodes' : Array (TrieNode α)} {children : List (Char × Nat)} {row : Row α} {places : List Nat}
  {c : Char} {next : Nat}

/-- Only its own nodes matter for a row. -/
theorem transfer (h : Shows nodes children row places) (same : ∀ i ∈ places, nodes'[i]? = nodes[i]?) :
    Shows nodes' children row places := by
  induction h with
  | nil => exact .nil
  | branch hn _ _ ih ih' =>
    obtain ⟨here, others⟩ := List.forall_mem_cons.1 same
    obtain ⟨inner, outer⟩ := List.forall_mem_append.1 others
    exact .branch (here.trans hn) (ih inner) (ih' outer)

theorem lt_size (h : Shows nodes children row places) : ∀ i ∈ places, i < nodes.size := by
  induction h with
  | nil => simp
  | branch hn _ _ ih ih' =>
    exact List.forall_mem_cons.2 ⟨(Array.getElem?_eq_some_iff.1 hn).1, List.forall_mem_append.2 ⟨ih, ih'⟩⟩

/-! ## One character -/

/-- Where no character leads on, the row has no branch for it. -/
theorem find_of_lookup_none (h : Shows nodes children row places) (hl : children.lookup c = none)
    (policy : MatchPolicy) (rest : List Char) : row.find policy (c :: rest) = none := by
  induction h with
  | nil => rw [Row.find]
  | @branch d _ _ _ _ _ _ _ _ _ _ _ ih =>
    rw [List.lookup_cons] at hl
    have hc : c ≠ d := fun h => by simp [h] at hl
    rw [Row.find, if_neg hc, ih (by simpa [beq_false_of_ne hc] using hl)]

/-- A new branch stands behind the others. -/
theorem insert_new (h : Shows nodes children row places) (hl : children.lookup c = none)
    (same : ∀ i ∈ places, nodes'[i]? = nodes[i]?) {node : TrieNode α} {inner : List Nat} {rest : List Char} {a : α}
    (hn : nodes'[next]? = some node) (hentry : node.entry = Row.entryFor none rest a)
    (hbelow : Shows nodes' node.children (Row.insert .nil rest a) inner) :
    Shows nodes' (children ++ [(c, next)]) (row.insert (c :: rest) a) (places ++ next :: inner) := by
  induction h with
  | nil =>
    have last := Shows.branch (c := c) hn hbelow .nil
    rw [hentry, List.append_nil] at last
    exact last
  | @branch d _ _ _ _ _ _ _ hsibling below _ _ ih =>
    rw [List.lookup_cons] at hl
    have hc : c ≠ d := fun h => by simp [h] at hl
    obtain ⟨here, others⟩ := List.forall_mem_cons.1 same
    obtain ⟨inner, outer⟩ := List.forall_mem_append.1 others
    rw [Row.insert, if_neg hc, List.cons_append, List.cons_append, List.append_assoc]
    exact .branch (here.trans hsibling) (below.transfer inner) (ih (by simpa [beq_false_of_ne hc] using hl) outer)

theorem perm_rotate (place next : Nat) (inner below others : List Nat) :
    (place :: (inner ++ (next :: (below ++ others)))).Perm (next :: (below ++ (place :: (inner ++ others)))) := by
  rw [List.perm_iff_count]
  intro i
  simp only [List.count_cons, List.count_append]
  omega

/-- Where a character leads on, the row has a branch for it. What is found is found below, and a symbol
may be entered below whatever becomes of the nodes there, as long as the others stay as they are. -/
theorem exists_branch (h : Shows nodes children row places) (hl : children.lookup c = some next) :
    ∃ node below inner others, nodes[next]? = some node ∧ Shows nodes node.children below inner ∧
      places.Perm (next :: (inner ++ others)) ∧
      (∀ policy rest, row.find policy (c :: rest) = Row.find policy (.branch c node.entry below .nil) (c :: rest)) ∧
      ∀ {nodes' : Array (TrieNode α)} {node' : TrieNode α} {inner' : List Nat} {rest : List Char} {a : α},
        (∀ i ∈ others, nodes'[i]? = nodes[i]?) → nodes'[next]? = some node' →
        node'.entry = Row.entryFor node.entry rest a → Shows nodes' node'.children (below.insert rest a) inner' →
        ∃ places', Shows nodes' children (row.insert (c :: rest) a) places' ∧
          places'.Perm (next :: (inner' ++ others)) := by
  induction h with
  | nil => cases hl
  | @branch d place node children below beside inner outer hn hbelow hbeside _ ih =>
    rw [List.lookup_cons] at hl
    by_cases hc : c = d
    · subst hc
      obtain rfl : place = next := by simpa using hl
      refine ⟨node, below, inner, outer, hn, hbelow, .refl _, fun policy rest => ?_, ?_⟩
      · rw [Row.find, Row.find, if_pos rfl, if_pos rfl]
      · intro nodes' node' inner' rest a same hn' hentry hbelow'
        refine ⟨_, ?_, .refl _⟩
        rw [Row.insert, if_pos rfl, ← hentry]
        exact .branch hn' hbelow' (hbeside.transfer same)
    · obtain ⟨node₁, below₁, inner₁, others, hn₁, hbelow₁, hplaces, hfind, graft⟩ :=
        ih (by simpa [beq_false_of_ne hc] using hl)
      refine ⟨node₁, below₁, inner₁, place :: (inner ++ others), hn₁, hbelow₁, ?_, fun policy rest => ?_, ?_⟩
      · exact ((hplaces.append_left inner).cons place).trans (perm_rotate ..)
      · rw [Row.find, if_neg hc, hfind]
      · intro nodes' node' inner' rest a same hn' hentry hbelow'
        obtain ⟨here, same⟩ := List.forall_mem_cons.1 same
        obtain ⟨hinner, hothers⟩ := List.forall_mem_append.1 same
        obtain ⟨places', later, hplaces'⟩ := graft hothers hn' hentry hbelow'
        refine ⟨place :: (inner ++ places'), ?_, ((hplaces'.append_left inner).cons place).trans (perm_rotate ..)⟩
        rw [Row.insert, if_neg hc]
        exact .branch (here.trans hn) (hbelow.transfer hinner) later

end Shows

namespace Trie

/-! ## Entering symbols -/

theorem getElem?_update (t : Trie α) (place : Nat) (change : TrieNode α → TrieNode α) (i : Nat) :
    (t.update place change).nodes[i]? = if place = i then t.nodes[i]?.map change else t.nodes[i]? :=
  Array.getElem?_modify

/-- Where a character led nowhere, a new node stands at the end, and only its parent has changed. -/
theorem descend_eq_of_none {t : Trie α} {place : Nat} {node : TrieNode α} {c : Char} (hn : t.nodes[place]? = some node)
    (hl : node.children.lookup c = none) : ∃ grown : Trie α, t.descend place c = (t.nodes.size, grown) ∧
      grown.nodes.size = t.nodes.size + 1 ∧ grown.nodes[t.nodes.size]? = some {} ∧
      grown.nodes[place]? = some { node with children := node.children ++ [(c, t.nodes.size)] } ∧
      ∀ i < t.nodes.size, i ≠ place → grown.nodes[i]? = t.nodes[i]? := by
  have leads : t.child? place c = none := by rw [child?, hn, Option.bind_some, hl]
  have hplace : place < t.nodes.size := (Array.getElem?_eq_some_iff.1 hn).1
  refine ⟨_, by rw [descend, leads], by simp [update], ?_, ?_, fun i hi hne => ?_⟩
  · rw [getElem?_update, if_neg hplace.ne, Array.getElem?_push_size]
  · rw [getElem?_update, if_pos rfl, Array.getElem?_push, if_neg hplace.ne, hn, Option.map_some]
  · rw [getElem?_update, if_neg hne.symm, Array.getElem?_push, if_neg hi.ne]

/-- From a node on, entering the rest of a symbol changes that node and those of its row, and nothing
else that was there. The node then stands for the row with the symbol, and has its entry if the symbol
ends there. -/
theorem exists_insertFrom (a : α) (symbol : List Char) {t : Trie α} {place : Nat} {node : TrieNode α} {row : Row α}
    {places : List Nat} (hn : t.nodes[place]? = some node) (h : Shows t.nodes node.children row places)
    (distinct : (place :: places).Nodup) :
    ∃ node' places', (t.insertFrom place symbol a).nodes[place]? = some node' ∧
      node'.entry = Row.entryFor node.entry symbol a ∧
      Shows (t.insertFrom place symbol a).nodes node'.children (row.insert symbol a) places' ∧
      (place :: places').Nodup ∧ (∀ i ∈ places', i ∈ places ∨ t.nodes.size ≤ i) ∧
      ∀ i < t.nodes.size, i ∉ place :: places → (t.insertFrom place symbol a).nodes[i]? = t.nodes[i]? := by
  induction symbol generalizing t place node row places with
  | nil =>
    have elsewhere : ∀ i, i ≠ place → (t.insertFrom place [] a).nodes[i]? = t.nodes[i]? := fun i hi => by
      rw [insertFrom, getElem?_update, if_neg hi.symm]
    refine ⟨{ node with entry := some a }, places, ?_, rfl, ?_, distinct, fun i hi => .inl hi, fun i _ hi => ?_⟩
    · rw [insertFrom, getElem?_update, if_pos rfl, hn, Option.map_some]
    · rw [Row.insert_empty]
      exact h.transfer fun i hi => elsewhere i fun heq => (List.nodup_cons.1 distinct).1 (heq ▸ hi)
    · exact elsewhere i fun heq => hi (heq ▸ List.mem_cons_self ..)
  | cons c rest ih =>
    have leads : t.child? place c = node.children.lookup c := by rw [child?, hn, Option.bind_some]
    have hplace : place < t.nodes.size := (Array.getElem?_eq_some_iff.1 hn).1
    obtain ⟨hfresh, hplaces⟩ := List.nodup_cons.1 distinct
    cases hl : node.children.lookup c with
    | some next =>
      obtain ⟨node₁, below, inner, others, hn₁, hbelow, hperm, -, graft⟩ := h.exists_branch hl
      have step : t.insertFrom place (c :: rest) a = t.insertFrom next rest a := by rw [insertFrom, descend, leads, hl]
      have bounded := h.lt_size
      obtain ⟨hnext, hrest⟩ := List.nodup_cons.1 (hperm.nodup_iff.1 hplaces)
      obtain ⟨hinner, hothers, hapart⟩ := List.nodup_append.1 hrest
      have mem : ∀ i, i ∈ places ↔ i = next ∨ i ∈ inner ∨ i ∈ others := fun i => by simp [hperm.mem_iff]
      obtain ⟨node₁', inner', hn₁', hentry', hbelow', hinner', hnew, hsame⟩ :=
        ih hn₁ hbelow (List.nodup_cons.2 ⟨fun hi => hnext (List.mem_append_left _ hi), hinner⟩)
      rw [step]
      -- neither the parent nor the branches beside have been on the way
      have kept : (t.insertFrom next rest a).nodes[place]? = t.nodes[place]? := hsame place hplace (by grind)
      obtain ⟨places', hshows, hperm'⟩ := graft (fun i hi => hsame i (by grind) (by grind)) hn₁' hentry' hbelow'
      have mem' : ∀ i, i ∈ places' ↔ i = next ∨ i ∈ inner' ∨ i ∈ others := fun i => by simp [hperm'.mem_iff]
      refine ⟨node, places', kept.trans hn, rfl, hshows, List.nodup_cons.2 ⟨by grind, hperm'.nodup_iff.2 ?_⟩,
        by grind, fun i hi hne => hsame i hi (by grind)⟩
      obtain ⟨hnext', hinner'⟩ := List.nodup_cons.1 hinner'
      exact List.nodup_cons.2 ⟨by grind, List.nodup_append.2 ⟨hinner', hothers, by grind⟩⟩
    | none =>
      obtain ⟨grown, hstep, hsize, hnext, hparent, hkept⟩ := descend_eq_of_none hn hl
      have step : t.insertFrom place (c :: rest) a = grown.insertFrom t.nodes.size rest a := by rw [insertFrom, hstep]
      obtain ⟨node₁, inner, hn₁, hentry, hbelow, hinner, hnew, hsame⟩ :=
        ih hnext .nil (List.nodup_singleton _)
      have hbehind : ∀ i ∈ inner, t.nodes.size < i := fun i hi => by
        have := (hnew i hi).resolve_left (by simp)
        omega
      have kept : ∀ i < t.nodes.size, (t.insertFrom place (c :: rest) a).nodes[i]? = grown.nodes[i]? := fun i hi => by
        rw [step]
        exact hsame i (by omega) (by simp; omega)
      rw [← step] at hn₁ hbelow
      refine ⟨_, places ++ t.nodes.size :: inner, (kept place hplace).trans hparent, rfl,
        h.insert_new hl (fun i hi => ?_) hn₁ hentry hbelow, ?_, fun i hi => ?_, fun i hi hne => ?_⟩
      · have hlt := h.lt_size i hi
        exact (kept i hlt).trans (hkept i hlt fun heq => hfresh (heq ▸ hi))
      · have bounded := h.lt_size
        refine List.nodup_cons.2 ⟨by grind, List.nodup_append.2 ⟨hplaces, hinner, by grind⟩⟩
      · rcases List.mem_append.1 hi with hi | hi
        · exact .inl hi
        · rcases List.mem_cons.1 hi with rfl | hi
          · exact .inr (Nat.le_refl _)
          · exact .inr (hbehind i hi).le
      · exact (kept i hi).trans (hkept i hi fun heq => hne (heq ▸ List.mem_cons_self ..))

/-- From the root on, the nodes of a tree stand for a row. -/
def Represents (t : Trie α) (row : Row α) : Prop :=
  ∃ node places, t.nodes[0]? = some node ∧ Shows t.nodes node.children row places ∧ (0 :: places).Nodup

theorem represents_new : ({} : Trie α).Represents .nil :=
  ⟨{}, [], rfl, .nil, List.nodup_singleton 0⟩

/-- Entering a symbol enters it into the row. -/
theorem Represents.insert {t : Trie α} {row : Row α} (h : t.Represents row) (symbol : List Char) (a : α) :
    (t.insert symbol a).Represents (row.insert symbol a) := by
  obtain ⟨node, places, hn, hshows, distinct⟩ := h
  obtain ⟨node', places', hn', -, hshows', distinct', -⟩ := exists_insertFrom a symbol hn hshows distinct
  exact ⟨node', places', hn', hshows', distinct'⟩

/-- After any symbols were entered, the nodes stand for the row of these symbols. -/
theorem represents_ofList (symbols : List (String × α)) : (ofList symbols).Represents (Row.ofList symbols) := by
  have entered : ∀ {t : Trie α} {row : Row α}, t.Represents row →
      (symbols.foldl (fun t s => t.insert s.1.toList s.2) t).Represents
        (symbols.foldl (fun row s => row.insert s.1.toList s.2) row) := by
    induction symbols with
    | nil => exact id
    | cons s rest ih => exact fun h => ih (h.insert s.1.toList s.2)
  exact entered represents_new

/-! ## Recognising symbols -/

/-- Walking finds what the row below a place finds, or else what was found before. -/
theorem walk_eq {t : Trie α} (policy : MatchPolicy) {place : Nat} {node : TrieNode α} {row : Row α}
    {places : List Nat} (hn : t.nodes[place]? = some node) (h : Shows t.nodes node.children row places)
    (length : Nat) (found : Option (α × Nat)) (text : List Char) : t.walk policy place length found text =
      ((row.find policy text).map fun p => (p.1, length + p.2)).or found := by
  induction text generalizing place node row places length found with
  | nil => cases row <;> rfl
  | cons c rest ih =>
    have leads : t.child? place c = node.children.lookup c := by rw [child?, hn, Option.bind_some]
    rw [walk, leads]
    cases hl : node.children.lookup c with
    | none => rw [h.find_of_lookup_none hl, Option.map_none, Option.none_or]
    | some next =>
      obtain ⟨node', below, inner, others, hn', hbelow, -, hfind, -⟩ := h.exists_branch hl
      have entry : t.entryAt next = node'.entry := by rw [entryAt, hn', Option.bind_some]
      have onward := ih hn' hbelow (length + 1)
      simp only [entry, hfind, Row.find, if_true, onward]
      cases policy <;> cases node'.entry <;> cases below.find _ rest <;> simp <;> omega

/-- What a tree finds at a position of the input, its row finds at the head of what is left there. -/
theorem Represents.find_eq {t : Trie α} {row : Row α} (h : t.Represents row) (input : List Char) (position : Nat)
    (policy : MatchPolicy) : t.find input position policy = row.find policy (input.drop position) := by
  obtain ⟨node, places, hn, hshows, -⟩ := h
  rw [find, walk_eq policy hn hshows]
  simp

end Trie

end Formulary.Symbols
