import Chomsky.Grammar.Basic

/-!
# Listings

The text of a grammar: one line for each head that has an entry, its alternatives sorted by
their texts. Sorting by text differs from the order of the alternatives, in which every binary
alternative comes first.

* **`Grammar.listing`**: the whole grammar.
-/

namespace Chomsky.Grammar

variable (g : Grammar)

/-- The texts of the alternatives of a head, ascending by code points. -/
def sortedTexts (head : Char) : List String :=
  ((g.alternatives head).map (·.text)).mergeSort

/-- **The rule of a head**, as in `S::=AB|a`; nothing when it has no production. -/
def ruleText (head : Char) : String :=
  match g.sortedTexts head with
  | [] => ""
  | texts => s!"{head}::=" ++ "|".intercalate texts

/-- The heads that have an entry, in the order of declaration. -/
def heads : List Char := g.nonterminals.filter fun head => (g.productions.get? head).isSome

/-- **The listing of a grammar**: a line for every head that has an entry. -/
def listing : String :=
  String.join (g.heads.map fun head => s!"{head} -> {g.ruleText head}\n")

end Chomsky.Grammar
