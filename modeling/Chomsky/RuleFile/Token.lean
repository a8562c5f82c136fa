import Chomsky.Symbol

/-!
# Tokens of a rule line

A line of a rule file is a sequence of symbols, bars and equals signs, with blanks anywhere
between them. An equals sign is written `=` or `::=`.

* **`Token.scan`**: the tokens of a line, or the character where reading stops.
-/

namespace Chomsky

inductive Token where
  | equals
  | bar
  | symbol (s : Symbol)
deriving DecidableEq, Repr

namespace Token

def symbol? : Token → Option Symbol
  | symbol s => some s
  | _ => none

/-- **The tokens of a line**, or the first character that belongs to none. -/
def scan : List Char → Except Char (List Token)
  | [] => .ok []
  | '=' :: cs => (scan cs).map (equals :: ·)
  | ':' :: ':' :: '=' :: cs => (scan cs).map (equals :: ·)
  | '|' :: cs => (scan cs).map (bar :: ·)
  | c :: cs =>
    if isBlank c then scan cs
    else match Symbol.ofChar? c with
      | some s => (scan cs).map (symbol s :: ·)
      | none => .error c

end Token

end Chomsky
