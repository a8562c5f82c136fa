import Chomsky.Grammar.Basic

/-!
# Derivation trees

A derivation tree over productions in Chomsky Normal Form: a leaf turns its nonterminal into a
terminal, a branch turns it into the roots of its two subtrees.

* **`Tree.Fits`**: every node uses a production of the grammar;
* `Tree.size_add_one`: a tree of a word of length `n` has `2 * n - 1` nodes.
-/

namespace Chomsky

/-- **A derivation tree.** -/
inductive Tree where
  | leaf (root terminal : Char)
  | branch (root : Char) (left right : Tree)
deriving DecidableEq, Repr

namespace Tree

def root : Tree → Char
  | leaf c _ => c
  | branch c _ _ => c

/-- The alternative that the root uses. -/
def alternative : Tree → Alternative
  | leaf _ t => .unary t
  | branch _ l r => .binary l.root r.root

/-- The word at the leaves, from left to right. -/
def yield : Tree → Word
  | leaf _ t => [t]
  | branch _ l r => l.yield ++ r.yield

/-- The number of nodes on the longest path from the root. -/
def height : Tree → Nat
  | leaf _ _ => 1
  | branch _ l r => 1 + Nat.max l.height r.height

def size : Tree → Nat
  | leaf _ _ => 1
  | branch _ l r => 1 + l.size + r.size

/-- **Every node uses a production of the grammar.** -/
def Fits (g : Grammar) : Tree → Prop
  | leaf c t => (⟨c, .unary t⟩ : Production) ∈ g.productions
  | branch c l r =>
    (⟨c, .binary l.root r.root⟩ : Production) ∈ g.productions ∧ l.Fits g ∧ r.Fits g

/-- **A tree has one node less than twice its leaves.** -/
theorem size_add_one : ∀ t : Tree, t.size + 1 = 2 * t.yield.length
  | leaf _ _ => rfl
  | branch _ l r => by
    have h1 := size_add_one l
    have h2 := size_add_one r
    simp only [size, yield, List.length_append]
    omega

end Tree

end Chomsky
