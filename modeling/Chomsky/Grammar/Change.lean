import Chomsky.Grammar.Basic

/-!
# Histories of changes

A grammar grows by single changes, each of which may be refused. A history is any list of changes, and
the next change is made to whatever the one before has left behind.

* `Grammar.attempt`: what a change leaves behind;
* **`Grammar.after`**: what a history leaves behind.
-/

namespace Chomsky

/-- **One change of a grammar.** -/
inductive Change where
  | declareNonterminal (symbol : Char)
  | declareTerminal (symbol : Char)
  | setStart (symbol : Char)
  | add (production : Production)
  | addWritten (head : Char) (rhs : String)
  /-- Forgets every symbol and production. -/
  | clear
deriving DecidableEq, Repr

/-- What a change makes of a grammar. -/
def Change.apply : Change → Grammar → ChangeResult
  | declareNonterminal c, g => g.declareNonterminal c
  | declareTerminal c, g => g.declareTerminal c
  | setStart c, g => g.setStart c
  | add p, g => g.add p
  | addWritten head rhs, g => g.addWritten head rhs
  | clear, g => (.ok (), g.clear)

namespace Grammar

/-- The grammar that a change leaves behind, whether it is made or refused. -/
def attempt (g : Grammar) (change : Change) : Grammar := (change.apply g).2

/-- **The grammar after a history of changes.** -/
def after (g : Grammar) (history : List Change) : Grammar := history.foldl attempt g

theorem after_cons (g : Grammar) (change : Change) (history : List Change) :
    g.after (change :: history) = (g.attempt change).after history := rfl

theorem after_append (g : Grammar) (first second : List Change) :
    g.after (first ++ second) = (g.after first).after second :=
  List.foldl_append

end Grammar

end Chomsky
