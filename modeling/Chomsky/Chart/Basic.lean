import Chomsky.Grammar.Basic
import Chomsky.Chart.Span

/-!
# Charts

A chart tells for every span of a word which nonterminals derive it. The cells of the single places
are given; a longer span is derived from the cells of the two parts of each of its splits. Cells hold
positions in the order of declaration, so a cell lists its nonterminals in that order.

* **`Chart.cell`**, `Chart.symbols`, `Chart.accepts`.
-/

namespace Chomsky

/-- The nonterminals of one span, by position. -/
abbrev Cell : Type := OrderedSet Nat

/-- A binary production, its symbols given by position. -/
structure BinaryRule where
  head : Nat
  left : Nat
  right : Nat
deriving DecidableEq, Repr

/-- The binary productions of a grammar. -/
def Grammar.binaryRules (g : Grammar) : List BinaryRule :=
  g.listedProductions.filterMap fun p =>
    match p.alternative with
    | .binary left right => do
      return ⟨← g.position? p.head, ← g.position? left, ← g.position? right⟩
    | .unary _ => none

/-- The rule joins a left and a right cell. -/
def BinaryRule.joins (r : BinaryRule) (left right : Cell) : Bool := r.left ∈ left && r.right ∈ right

/-- The cell of a span, from the cells of all shorter ones: the heads of the rules that join the two
parts of one of its splits. -/
def deriveCell (rules : List BinaryRule) (n : Nat) (cells : Array Cell) (s : Span) : Cell :=
  let parts := s.splits.map fun p =>
    (cells.getD (p.1.position n) ∅, cells.getD (p.2.position n) ∅)
  .ofList <| (rules.filter fun r => parts.any fun p => r.joins p.1 p.2).map (·.head)

/-- **Appends the cells of the longer spans**, in the order of their positions, to those of the single
places. -/
def fillCells (rules : List BinaryRule) (n : Nat) (base : Array Cell) : Array Cell :=
  (Span.longer n).foldl (fun cells s => cells.push (deriveCell rules n cells s)) base

/-- **A chart**: the cells of all spans of a word, in the order of their positions. -/
structure Chart where
  length : Nat
  /-- The nonterminals in the order of declaration. -/
  nonterminals : List Char
  cells : Array Cell
deriving DecidableEq

namespace Chart

/-- The chart over given cells of the single places. -/
def ofBase (g : Grammar) (base : List Cell) : Chart where
  length := base.length
  nonterminals := g.nonterminals
  cells := fillCells g.binaryRules base.length base.toArray

variable (chart : Chart)

/-- **The cell of the span from place `i` to place `j`**; there is none outside the word. -/
def cell (i j : Nat) : Option Cell :=
  if (⟨i, j⟩ : Span).Within chart.length then chart.cells[(⟨i, j⟩ : Span).position chart.length]?
  else none

/-- The nonterminals of a span, in the order of declaration. -/
def symbols (i j : Nat) : Word :=
  match chart.cell i j with
  | some cell => cell.toList.filterMap (chart.nonterminals[·]?)
  | none => []

/-- **A symbol is accepted if it derives the whole word.** -/
def accepts (symbol : Char) : Bool :=
  0 < chart.length && symbol ∈ chart.symbols 0 (chart.length - 1)

end Chart

end Chomsky
