import Chomsky.Chart.Basic

/-!
# Recognition

The chart of a word begins with the nonterminals that have each letter as an alternative, the chart of
a sentential form with its symbols themselves.

* **`Grammar.wordChart`**, `Grammar.isDerived`;
* **`Grammar.formChart`**.
-/

namespace Chomsky

/-- Why there is no chart. -/
inductive ChartError where
  | emptyWord
  | incompleteGrammar
  | unknownTerminal (c : Char)
  | unknownNonterminal (c : Char)
deriving DecidableEq, Repr

def ChartError.message : ChartError → String
  | emptyWord => "The word is empty"
  | incompleteGrammar => "The grammar has no nonterminals or no start symbol"
  | unknownTerminal c => s!"`{c}` is not a terminal of the grammar"
  | unknownNonterminal c => s!"`{c}` is not a nonterminal of the grammar"

namespace Grammar

variable (g : Grammar)

/-- The nonterminals that have a letter as an alternative. -/
def letterCell (letter : Char) : Cell :=
  .ofList <| g.listedProductions.filterMap fun p =>
    if p.alternative = .unary letter then g.position? p.head else none

def symbolCell (symbol : Char) : Cell := .ofList (g.position? symbol).toList

/-- **The chart of a word**, with the start symbol that has to derive it. -/
def wordChart (w : Word) : Except ChartError (Chart × Char) :=
  if w = [] then .error .emptyWord
  else match g.start with
    | none => .error .incompleteGrammar
    | some start =>
      if g.nonterminals = [] then .error .incompleteGrammar
      else match w.find? (!g.isTerminal ·) with
        | some c => .error (.unknownTerminal c)
        | none => .ok (.ofBase g (w.map g.letterCell), start)

/-- **Whether the grammar derives a word.** -/
def isDerived (w : Word) : Except ChartError Bool :=
  (g.wordChart w).map fun p => p.1.accepts p.2

/-- **The chart of a sentential form** of nonterminals. -/
def formChart (form : Word) : Except ChartError Chart :=
  match form.find? (!g.isNonterminal ·) with
  | some c => .error (.unknownNonterminal c)
  | none => .ok (.ofBase g (form.map g.symbolCell))

end Grammar

end Chomsky
