/-
A prefix tree over characters that recognises symbols at the head of a text. Its nodes stand in one
row that only grows at its end, the root first. A node names the nodes below it by their places in
the row, one for each character that leads on.
-/
namespace Formulary.Symbols

/-- What is recognised when one symbol begins another. -/
inductive MatchPolicy where
  /-- The longest symbol at the head of the text. -/
  | longest
  /-- The shortest one; a symbol that another one begins is never found. -/
  | firstAccepting
  deriving DecidableEq, Repr

/-- A node of a prefix tree: where characters lead, and the entry of the symbol that ends here. -/
structure TrieNode (α : Type) where
  children : List (Char × Nat) := []
  entry : Option α := none
  deriving Repr

/-- A prefix tree. The new one has a root and no symbols. -/
structure Trie (α : Type) where
  nodes : Array (TrieNode α) := #[{}]
  deriving Repr

namespace Trie

variable {α : Type}

/-- The place that a character leads to from another one. -/
def child? (t : Trie α) (place : Nat) (c : Char) : Option Nat :=
  t.nodes[place]?.bind (·.children.lookup c)

/-- The entry at a place. -/
def entryAt (t : Trie α) (place : Nat) : Option α :=
  t.nodes[place]?.bind (·.entry)

/-! ## Entering symbols -/

/-- Changes the node at a place. -/
def update (t : Trie α) (place : Nat) (change : TrieNode α → TrieNode α) : Trie α where
  nodes := t.nodes.modify place change

/-- Follows a character, to a new node at the end of the row if it leads nowhere yet. -/
def descend (t : Trie α) (place : Nat) (c : Char) : Nat × Trie α :=
  match t.child? place c with
  | some next => (next, t)
  | none =>
    let next := t.nodes.size
    let grown : Trie α := { nodes := t.nodes.push {} }
    (next, grown.update place fun node => { node with children := node.children ++ [(c, next)] })

/-- Enters the rest of a symbol from a place on. -/
def insertFrom (t : Trie α) (place : Nat) : List Char → α → Trie α
  | [], a => t.update place fun node => { node with entry := some a }
  | c :: rest, a =>
    let (next, t) := t.descend place c
    t.insertFrom next rest a

/-- Enters a symbol; a symbol that is there already gets the new entry. -/
def insert (t : Trie α) (symbol : List Char) (a : α) : Trie α :=
  t.insertFrom 0 symbol a

/-- The tree of a list of symbols; of two equal symbols the later one counts. -/
def ofList (symbols : List (String × α)) : Trie α :=
  symbols.foldl (fun t s => t.insert s.1.toList s.2) {}

/-! ## Recognising symbols -/

/-- Follows the characters ahead, `length` characters behind the root and with the latest symbol
found, until they lead nowhere or the policy is content. -/
def walk (t : Trie α) (policy : MatchPolicy) (place length : Nat) (found : Option (α × Nat)) :
    List Char → Option (α × Nat)
  | [] => found
  | c :: rest =>
    match t.child? place c with
    | none => found
    | some next =>
      match t.entryAt next with
      | none => t.walk policy next (length + 1) found rest
      | some a =>
        match policy with
        | .longest => t.walk policy next (length + 1) (some (a, length + 1)) rest
        | .firstAccepting => some (a, length + 1)

/-- The entry of the symbol that begins at a position of the input, with the symbol's length. Past
the end of the input none begins, and the empty symbol is never found. -/
def find (t : Trie α) (input : List Char) (position : Nat) (policy : MatchPolicy) : Option (α × Nat) :=
  t.walk policy 0 0 none (input.drop position)

end Trie

end Formulary.Symbols
