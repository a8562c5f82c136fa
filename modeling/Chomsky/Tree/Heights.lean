import Chomsky.Tree.Basic

/-!
# Least heights

The least height of a derivation tree of each nonterminal, for those that have one. A table of the
least heights of the trees of height at most `k` gives the table for `k + 1`, and one round for every
nonterminal is enough.

* `Grammar.heightOver`, `Grammar.heightsOver`: one round;
* `Grammar.heightsWithin`: trees of bounded height;
* **`Grammar.leastHeights`**: all trees.
-/

namespace Chomsky

/-- A table from nonterminals to heights. -/
abbrev Heights : Type := List (Char × Nat)

def Heights.get? (heights : Heights) (c : Char) : Option Nat := heights.lookup c

/-- The height of the least tree that begins with an alternative, if both subtrees have one. -/
def Alternative.height? (heights : Heights) : Alternative → Option Nat
  | unary _ => some 1
  | binary left right => do return 1 + Nat.max (← heights.get? left) (← heights.get? right)

def least? : List Nat → Option Nat
  | [] => none
  | n :: ns =>
    match least? ns with
    | some m => some (Nat.min n m)
    | none => some n

namespace Grammar

variable (g : Grammar)

/-- The least height of a tree of a nonterminal whose subtrees are in the table. -/
def heightOver (heights : Heights) (c : Char) : Option Nat :=
  least? ((g.alternatives c).filterMap (·.height? heights))

/-- The least heights of the trees whose subtrees are in the table. -/
def heightsOver (heights : Heights) : Heights :=
  g.nonterminals.filterMap fun c => (g.heightOver heights c).map (c, ·)

/-- The least heights of the trees of height at most `k`. -/
def heightsWithin : Nat → Heights
  | 0 => []
  | k + 1 => g.heightsOver (heightsWithin k)

/-- **The least height of a derivation tree of each nonterminal that has one.** -/
def leastHeights : Heights := g.heightsWithin g.nonterminals.length

end Grammar

end Chomsky
