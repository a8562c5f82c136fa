import Chomsky.Grammar.Basic
import Chomsky.RuleFile.Token

/-!
# Rules

A rule line has the form `S = AB | a`: a nonterminal, an equals sign, and alternatives between
bars. Whether an alternative is in Chomsky Normal Form is not decided here, so any string of
symbols will do, the empty one included.

* **`Rule.ofTokens`**, `Rule.ofLine`, `isRuleLine`.
-/

namespace Chomsky

/-- **The rule of one line.** -/
structure Rule where
  head : Char
  alternatives : List (List Symbol)
deriving DecidableEq, Repr

namespace Rule

/-- The symbols of a rule in the order in which they are written. -/
def symbols (r : Rule) : List Symbol := .nonterminal r.head :: r.alternatives.flatten

/-- The nonterminals to the right of the equals sign, in order. -/
def uses (r : Rule) : List Char := r.alternatives.flatten.filterMap Symbol.nonterminal?

def bodies (r : Rule) : List String := r.alternatives.map fun a => String.ofList (a.map (·.char))

end Rule

/-- Why a file has no text to read. -/
inductive FileFault where
  | missing
  | notText
deriving DecidableEq, Repr

def FileFault.message : FileFault → String
  | missing => "No such file or directory (os error 2)"
  | notText => "stream did not contain valid UTF-8"

/-- What can be wrong with a rule file. -/
inductive RuleError where
  | missingEquals
  | unexpectedEquals
  | missingNonterminal
  | unexpectedCharacter (c : Char)
  | undefinedNonterminal (c : Char)
  /-- The grammar refuses what the rule says. -/
  | refused (reason : GrammarError)
  /-- The file, or a line of it, is no text. -/
  | unreadable (fault : FileFault)
deriving DecidableEq, Repr

def RuleError.message : RuleError → String
  | missingEquals => "Expected `=` or `::=` after nonterminal"
  | unexpectedEquals => "Unexpected `=` encountered"
  | missingNonterminal => "Tried to define something other than a nonterminal"
  | unexpectedCharacter c => s!"Unexpected character `{c}`"
  | undefinedNonterminal c => s!"Could not find definition for `{c}`"
  | refused reason => reason.message
  | unreadable fault => s!"File error: {fault.message}"

namespace Rule

/-- **The rule that the tokens of a line spell.** -/
def ofTokens : List Token → Except RuleError Rule
  | .symbol (.nonterminal head) :: .equals :: rest =>
    if Token.equals ∈ rest then .error .unexpectedEquals
    else .ok ⟨head, (rest.splitOn .bar).map (·.filterMap Token.symbol?)⟩
  | .symbol (.nonterminal _) :: _ => .error .missingEquals
  | _ => .error .missingNonterminal

def ofLine (line : List Char) : Except RuleError Rule :=
  match Token.scan line with
  | .ok tokens => ofTokens tokens
  | .error c => .error (.unexpectedCharacter c)

end Rule

/-- A rule line is neither blank nor a comment, which begins with a semicolon. -/
def isRuleLine (line : List Char) : Bool :=
  match line.dropWhile isBlank with
  | [] => false
  | c :: _ => c ≠ ';'

end Chomsky
