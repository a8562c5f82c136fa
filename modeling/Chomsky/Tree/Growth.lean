import Chomsky.Draws
import Chomsky.Tree.Heights

/-!
# Growing random trees

A tree grows from its root downwards, the left subtree before the right one, by a random choice at
every node. Above a given depth any alternative that derives a word may be chosen, from that depth on
only those that end soonest, so growth always ends.

* **`Grammar.candidates`**: the alternatives a node may choose;
* **`Grammar.growTree`**, `Grammar.randomWordFrom`, **`Grammar.randomWord`**.
-/

namespace Chomsky

/-- Why no word is generated. -/
inductive GrowthError where
  | noStartSymbol
  | undefinedNonterminal (c : Char)
  | unproductive (c : Char)
  /-- The supply of random numbers is used up. -/
  | outOfDraws
deriving DecidableEq, Repr

def GrowthError.message : GrowthError → String
  | noStartSymbol => "The grammar has no start symbol"
  | undefinedNonterminal c => s!"No definition for nonterminal `{c}`"
  | unproductive c => s!"Nonterminal `{c}` never derives a word"
  | outOfDraws => "The random numbers are used up"

/-- A computation that takes random numbers. They are taken even if it fails later. -/
abbrev Growth : Type → Type := ExceptT GrowthError (StateM Draws)

namespace Growth

/-- One of the candidates at random. -/
def oneOf {α : Type} (candidates : List α) : Growth α :=
  ExceptT.mk fun draws =>
    let (i?, rest) := draws.choose candidates.length
    match i?.bind (candidates[·]?) with
    | some a => (.ok a, rest)
    | none => (.error .outOfDraws, rest)

end Growth

/-- An alternative that derives a word may be chosen as long as there is room, and one of least height
always. -/
def Alternative.isCandidate (heights : Heights) (room least : Nat) (a : Alternative) : Bool :=
  match a.height? heights with
  | some height => 0 < room || height = least
  | none => false

namespace Grammar

variable (g : Grammar)

def whyBarren (c : Char) : GrowthError :=
  if g.alternatives c = [] then .undefinedNonterminal c else .unproductive c

/-- **The alternatives that a node may choose** with `room` levels left above the depth bound. Without
room they are those of least height. -/
def candidates (heights : Heights) (room : Nat) (c : Char) : Except GrowthError (List Alternative) :=
  match heights.get? c with
  | none => .error (g.whyBarren c)
  | some least =>
    match (g.alternatives c).filter (·.isCandidate heights room least) with
    | [] => .error (g.whyBarren c)
    | chosen => .ok chosen

def alternativeAt (heights : Heights) (room : Nat) (c : Char) : Growth Alternative :=
  match g.candidates heights room c with
  | .ok candidates => Growth.oneOf candidates
  | .error e => throw e

/-- A random tree of height at most `limit`. -/
def grow (heights : Heights) : (limit room : Nat) → Char → Growth Tree
  | 0, _, c => throw (g.whyBarren c)
  | limit + 1, room, c => do
    match ← g.alternativeAt heights room c with
    | .unary terminal => return .leaf c terminal
    | .binary left right =>
      let l ← grow heights limit (room - 1) left
      let r ← grow heights limit (room - 1) right
      return .branch c l r

/-- **A random tree of a nonterminal.** From depth `maxDepth` on each node takes a shortest way down,
which has at most one level for each nonterminal; so the limit on the height is never met. -/
def growTree (maxDepth : Nat) (c : Char) : Growth Tree :=
  g.grow g.leastHeights (maxDepth + g.nonterminals.length) maxDepth c

def randomWordFrom (maxDepth : Nat) (c : Char) : Growth Word := do
  return (← g.growTree maxDepth c).yield

/-- **A random word of the grammar.** -/
def randomWord (maxDepth : Nat) : Growth Word :=
  match g.start with
  | some c => g.randomWordFrom maxDepth c
  | none => throw .noStartSymbol

end Grammar

end Chomsky
