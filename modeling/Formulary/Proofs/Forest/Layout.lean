/-
How trees lie in a forest. The nodes of a tree are contiguous: first those of its children, one
child after the other, and its root last. So a row of trees without gaps between them has every node
of its stretch in exactly one tree, and there is exactly one way down to it through children.
-/
import Formulary.Proofs.Forest.Reference

namespace Formulary.Forest

/-- The trees with these roots lie side by side from one place up to another. -/
inductive Spans (f : Forest) : Nat → List Nat → Nat → Prop
  | nil (lo : Nat) : Spans f lo [] lo
  | cons {lo root hi : Nat} {node : Node} {row : List Nat} :
      f.get? root = some node → Spans f lo node.children root → Spans f (root + 1) row hi →
      Spans f lo (root :: row) hi

namespace Spans

variable {f : Forest} {lo mid hi root : Nat} {row xs ys : List Nat}

theorem le (h : f.Spans lo row hi) : lo ≤ hi := by
  induction h with
  | nil lo => exact Nat.le_refl lo
  | cons _ _ _ ihc ihr => omega

theorem append (hx : f.Spans lo xs mid) (hy : f.Spans mid ys hi) : f.Spans lo (xs ++ ys) hi := by
  induction hx with
  | nil lo => exact hy
  | cons hn hc _ _ ih => exact .cons hn hc (ih hy)

theorem split (h : f.Spans lo (xs ++ ys) hi) : ∃ mid, f.Spans lo xs mid ∧ f.Spans mid ys hi := by
  induction xs generalizing lo with
  | nil => exact ⟨lo, .nil lo, h⟩
  | cons x xs ih =>
    cases h with
    | cons hn hc hr =>
      obtain ⟨mid, hx, hy⟩ := ih hr
      exact ⟨mid, .cons hn hc hx, hy⟩

/-- A single tree ends with its root. -/
theorem singleton_iff : f.Spans lo [root] hi ↔
    hi = root + 1 ∧ ∃ node, f.get? root = some node ∧ f.Spans lo node.children root := by
  constructor
  · intro h
    cases h with
    | cons hn hc hr =>
      cases hr
      exact ⟨rfl, _, hn, hc⟩
  · rintro ⟨rfl, node, hn, hc⟩
    exact .cons hn hc (.nil _)

/-- Trees stay where they are as long as their nodes do. -/
theorem transfer {g : Forest} (h : f.Spans lo row hi)
    (hg : ∀ id node, id < hi → f.get? id = some node → g.get? id = some node) : g.Spans lo row hi := by
  induction h with
  | nil lo => exact .nil lo
  | cons hn _ hr ihc ihr =>
    have hlt := hr.le
    exact .cons (hg _ _ (by omega) hn) (ihc fun id node hid => hg id node (by omega)) (ihr hg)

theorem mem_bounds (h : f.Spans lo row hi) : ∀ id ∈ row, lo ≤ id ∧ id < hi := by
  induction h with
  | nil lo => simp
  | cons hn hc hr _ ih =>
    have hle := hc.le
    have hlt := hr.le
    intro id hid
    rcases List.mem_cons.1 hid with rfl | hid
    · exact ⟨hle, by omega⟩
    · have := ih id hid
      omega

/-- The roots of a row rise. -/
theorem pairwise (h : f.Spans lo row hi) : row.Pairwise (· < ·) := by
  induction h with
  | nil lo => exact .nil
  | cons _ _ hr _ ih => exact .cons (fun id hid => (hr.mem_bounds id hid).1) ih

theorem root_bounds {root : NodeId} (h : f.Spans lo [root] hi) : lo ≤ root ∧ root < hi :=
  h.mem_bounds root (List.mem_singleton_self root)

/-- A row ends with its last root. -/
theorem getLast?_eq (h : f.Spans lo row hi) (hne : row ≠ []) : row.getLast? = some (hi - 1) := by
  induction h with
  | nil lo => exact absurd rfl hne
  | @cons _ root _ _ row _ _ hr _ ih =>
    cases row with
    | nil =>
      cases hr
      rfl
    | cons next row => rw [List.getLast?_cons_cons, ih (by simp)]

/-- The children of every node in the stretch of a row lie before it. -/
theorem children_lt (h : f.Spans lo row hi) {id : Nat} {node : Node} (hn : f.get? id = some node)
    (hlo : lo ≤ id) (hhi : id < hi) : ∀ child ∈ node.children, child < id := by
  induction h with
  | nil lo => omega
  | @cons lo root hi node' row hroot hc hr ihc ihr =>
    rcases Nat.lt_trichotomy id root with hid | rfl | hid
    · exact ihc hlo hid
    · rw [hroot] at hn
      cases hn
      exact fun child hchild => (hc.mem_bounds child hchild).2
    · exact ihr hid hhi

/-- Every node in the stretch of a row is the root of a tree that ends with it. -/
theorem exists_singleton (h : f.Spans lo row hi) {id : Nat} (hlo : lo ≤ id) (hhi : id < hi) :
    ∃ first, f.Spans first [id] (id + 1) := by
  induction h with
  | nil lo => omega
  | @cons lo root hi node row hroot hc hr ihc ihr =>
    rcases Nat.lt_trichotomy id root with hid | rfl | hid
    · exact ihc hlo hid
    · exact ⟨lo, singleton_iff.2 ⟨rfl, node, hroot, hc⟩⟩
    · exact ihr hid hhi

/-- Nor do the children of a node in the stretch lie before the stretch. -/
theorem le_children (h : f.Spans lo row hi) {id : Nat} {node : Node} (hn : f.get? id = some node)
    (hlo : lo ≤ id) (hhi : id < hi) : ∀ child ∈ node.children, lo ≤ child := by
  induction h with
  | nil lo => omega
  | @cons lo root hi node' row hroot hc hr ihc ihr =>
    have hle := hc.le
    rcases Nat.lt_trichotomy id root with hid | rfl | hid
    · exact ihc hlo hid
    · rw [hroot] at hn
      cases hn
      exact fun child hchild => (hc.mem_bounds child hchild).1
    · intro child hchild
      have := ihr hid hhi child hchild
      omega

end Spans

/-! ## Ways down -/

mutual

/-- The node at the end of a way down from a place, which names each child by its number. -/
def follow (f : Forest) (id : Nat) : List Nat → Option Nat
  | [] => some id
  | k :: path =>
    match f.get? id with
    | none => none
    | some node => f.followFrom node.children (k :: path)
termination_by path => (path.length, 1)

/-- The node at the end of a way down that begins with one of several roots. -/
def followFrom (f : Forest) (roots : List Nat) : List Nat → Option Nat
  | [] => none
  | k :: path =>
    match roots[k]? with
    | none => none
    | some id => f.follow id path
termination_by path => (path.length, 0)

end

/-- A way down from a row ends at its first root, goes on from there to a child, or begins with a
later root. -/
theorem followFrom_cons_eq_some {f : Forest} {root id : Nat} {row : List Nat} {node : Node} {path : List Nat}
    (hn : f.get? root = some node) : f.followFrom (root :: row) path = some id ↔
      (path = [0] ∧ id = root) ∨ (∃ rest, path = 0 :: rest ∧ f.followFrom node.children rest = some id) ∨
      ∃ k rest, path = (k + 1) :: rest ∧ f.followFrom row (k :: rest) = some id := by
  match path with
  | [] => simp [followFrom]
  | [0] => simp [followFrom, follow, eq_comm]
  | 0 :: k :: path => simp [followFrom, follow, hn]
  | (k + 1) :: path => simp [followFrom]

theorem followFrom_singleton (f : Forest) (root : Nat) (path : List Nat) :
    f.followFrom [root] (0 :: path) = f.follow root path := by
  rw [followFrom]
  rfl

namespace Spans

variable {f : Forest} {lo hi root : Nat} {row : List Nat}

/-- A way down leads nowhere outside the stretch of its row. -/
theorem bounds_of_followFrom (h : f.Spans lo row hi) {path : List Nat} {id : Nat}
    (hp : f.followFrom row path = some id) : lo ≤ id ∧ id < hi := by
  induction h generalizing path id with
  | nil lo => cases path <;> simp [followFrom] at hp
  | @cons lo root hi node row hroot hc hr ihc ihr =>
    have hle := hc.le
    have hlt := hr.le
    rcases (followFrom_cons_eq_some hroot).1 hp with ⟨-, rfl⟩ | ⟨rest, -, hrest⟩ | ⟨k, rest, -, hrest⟩
    · omega
    · have := ihc hrest
      omega
    · have := ihr hrest
      omega

/-- To every node in the stretch of a row there is exactly one way down. -/
theorem existsUnique_followFrom (h : f.Spans lo row hi) {id : Nat} (hlo : lo ≤ id) (hhi : id < hi) :
    ∃! path, f.followFrom row path = some id := by
  induction h with
  | nil lo => omega
  | @cons lo root hi node row hroot hc hr ihc ihr =>
    -- the stretch of the children, the root itself and the stretch of the later roots do not meet
    rcases Nat.lt_trichotomy id root with hid | rfl | hid
    · obtain ⟨path, hp, unique⟩ := ihc hlo hid
      refine ⟨0 :: path, (followFrom_cons_eq_some hroot).2 (.inr (.inl ⟨path, rfl, hp⟩)), fun other ho => ?_⟩
      rcases (followFrom_cons_eq_some hroot).1 ho with ⟨-, rfl⟩ | ⟨rest, rfl, hrest⟩ | ⟨k, rest, -, hrest⟩
      · exact absurd hid (Nat.lt_irrefl _)
      · rw [unique rest hrest]
      · have := (hr.bounds_of_followFrom hrest).1
        omega
    · refine ⟨[0], (followFrom_cons_eq_some hroot).2 (.inl ⟨rfl, rfl⟩), fun other ho => ?_⟩
      rcases (followFrom_cons_eq_some hroot).1 ho with ⟨rfl, -⟩ | ⟨rest, -, hrest⟩ | ⟨k, rest, -, hrest⟩
      · rfl
      · have := (hc.bounds_of_followFrom hrest).2
        omega
      · have := (hr.bounds_of_followFrom hrest).1
        omega
    · obtain ⟨path, hp, unique⟩ := ihr hid hhi
      obtain ⟨k, path, rfl⟩ : ∃ k rest, path = k :: rest := by
        cases path with
        | nil => simp [followFrom] at hp
        | cons k rest => exact ⟨k, rest, rfl⟩
      refine ⟨(k + 1) :: path, (followFrom_cons_eq_some hroot).2 (.inr (.inr ⟨k, path, rfl, hp⟩)), fun other ho => ?_⟩
      rcases (followFrom_cons_eq_some hroot).1 ho with ⟨-, rfl⟩ | ⟨rest, -, hrest⟩ | ⟨j, rest, rfl, hrest⟩
      · exact absurd hid (Nat.lt_irrefl _)
      · have := (hc.bounds_of_followFrom hrest).2
        omega
      · cases unique _ hrest
        rfl

/-- The nodes of a single tree are the stretch that ends with its root. -/
theorem exists_follow_iff (h : f.Spans lo [root] hi) (id : Nat) :
    (∃ path, f.follow root path = some id) ↔ lo ≤ id ∧ id ≤ root := by
  have hhi := (singleton_iff.1 h).1
  constructor
  · rintro ⟨path, hp⟩
    rw [← followFrom_singleton] at hp
    have := h.bounds_of_followFrom hp
    omega
  · rintro ⟨hlo, hle⟩
    obtain ⟨path, hp, -⟩ := h.existsUnique_followFrom hlo (by omega : id < hi)
    obtain ⟨-, node, hnode, -⟩ := singleton_iff.1 h
    rcases (followFrom_cons_eq_some hnode).1 hp with ⟨-, rfl⟩ | ⟨rest, rfl, -⟩ | ⟨k, rest, -, hrest⟩
    · exact ⟨[], by rw [follow]⟩
    · exact ⟨rest, by rwa [← followFrom_singleton]⟩
    · simp [followFrom] at hrest

/-- From the root of a tree no two ways down lead to the same node. -/
theorem follow_unique (h : f.Spans lo [root] hi) {path other : List Nat} {id : Nat}
    (hp : f.follow root path = some id) (ho : f.follow root other = some id) : path = other := by
  rw [← followFrom_singleton] at hp ho
  obtain ⟨hlo, hhi⟩ := h.bounds_of_followFrom hp
  have := (h.existsUnique_followFrom hlo hhi).unique hp ho
  exact (List.cons.inj this).2

end Spans

end Formulary.Forest
