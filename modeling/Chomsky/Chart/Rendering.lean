import Chomsky.Chart.Recognition

/-!
# Charts as text

A rendered chart has a line for every place of the word, with a cell for every span that begins there.

* **`Chart.text`**; `Grammar.wordChartText`, `Grammar.formChartText`.
-/

namespace Chomsky

namespace Chart

variable (chart : Chart)

/-- A cell as text, as in `(0,1): SA `. -/
def cellText (i j : Nat) : String := s!"({i},{j}): {String.ofList (chart.symbols i j)} "

/-- The line of the spans that begin at place `i`. -/
def rowText (i : Nat) : String :=
  String.join ((List.range' i (chart.length - i)).map (chart.cellText i)) ++ "\n"

/-- **The text of a chart.** -/
def text : String := String.join ((List.range chart.length).map chart.rowText)

end Chart

namespace Grammar

def wordChartText (g : Grammar) (w : Word) : Except ChartError String :=
  (g.wordChart w).map fun p => p.1.text

def formChartText (g : Grammar) (form : Word) : Except ChartError String :=
  (g.formChart form).map (·.text)

end Grammar

end Chomsky
