import Chomsky.Grammar.Change
import Chomsky.Text.Lines
import Chomsky.RuleFile.Location
import Chomsky.RuleFile.Rule

/-!
# Reading a rule file

A file is read in three stages, and the errors of the first stage that has any are the answer:
every line has to be readable, every nonterminal in use has to head a rule, and the grammar has to
take every alternative. Symbols are declared in the order in which the file mentions them, and the
first rule names the start symbol.

* `readLine`, `readLines`: the first stage;
* `undefinedUses`, `declarations`, `addAll`, `grammarOfRules`: the second and the third;
* **`readText`**, **`readBytes`**, `readContent`: all stages, from text, from bytes, from a file that
  may be missing;
* `sameReading`: equality of outcomes.
-/

namespace Chomsky

abbrev Reading : Type := Except (List (Located RuleError)) Grammar

/-! ## The lines of a file -/

/-- A line as it comes out of the file. -/
abbrev RawLine : Type := Except FileFault (List Char)

/-- The rule on line `n` or what is wrong with it; nothing for a blank line or a comment. A line that
is no text counts against the file as a whole. -/
def readLine (path : Path) (line : RawLine) (n : Nat) :
    Option (Except (Located RuleError) (Located Rule)) :=
  match line with
  | .error fault => some (.error ⟨⟨path, 0⟩, .unreadable fault⟩)
  | .ok cs =>
    if isRuleLine cs then
      some (match Rule.ofLine cs with
        | .ok rule => .ok ⟨⟨path, n⟩, rule⟩
        | .error e => .error ⟨⟨path, n⟩, e⟩)
    else none

/-- What the lines of a file say, in order. -/
def readLines (path : Path) (lines : List RawLine) :
    List (Except (Located RuleError) (Located Rule)) :=
  (lines.zipIdx 1).filterMap fun p => readLine path p.1 p.2

/-! ## From rules to a grammar -/

variable (rules : List (Located Rule))

/-- Each nonterminal that a rule uses and no rule defines, once per rule. -/
def undefinedUses : List (Located RuleError) :=
  rules.flatMap fun r =>
    (r.item.uses.filter (· ∉ rules.map (·.item.head))).eraseDups.map fun c =>
      ⟨r.location, .undefinedNonterminal c⟩

def Symbol.declaration : Symbol → Change
  | nonterminal c => .declareNonterminal c
  | terminal c => .declareTerminal c

/-- The declarations a file makes: its symbols as they appear, then its start symbol. A repeated
declaration is refused and changes nothing. -/
def declarations : List Change :=
  (rules.flatMap (·.item.symbols)).map (·.declaration) ++
    (rules.head?.map fun r => Change.setStart r.item.head).toList

/-- One written production, at the place of its rule. -/
def writtenProductions : List (Located (Char × String)) :=
  rules.flatMap fun r => r.item.bodies.map fun body => ⟨r.location, r.item.head, body⟩

/-- Adds written productions one by one, and lists those that the grammar refuses. -/
def addAll : Grammar → List (Located (Char × String)) → Grammar × List (Located RuleError)
  | g, [] => (g, [])
  | g, p :: rest =>
    match g.addWritten p.item.1 p.item.2 with
    | (.ok (), g') => addAll g' rest
    | (.error e, g') =>
      let (g'', errors) := addAll g' rest
      (g'', ⟨p.location, .refused e⟩ :: errors)

/-- **The grammar that the rules define.** -/
def grammarOfRules : Reading :=
  match undefinedUses rules with
  | [] =>
    match addAll ((∅ : Grammar).after (declarations rules)) (writtenProductions rules) with
    | (g, []) => .ok g
    | (_, errors) => .error errors
  | errors => .error errors

/-! ## From files to grammars -/

def errorsOf {ε α : Type} (outcomes : List (Except ε α)) : List ε :=
  outcomes.filterMap fun
    | .error e => some e
    | .ok _ => none

def valuesOf {ε α : Type} (outcomes : List (Except ε α)) : List α :=
  outcomes.filterMap fun
    | .error _ => none
    | .ok a => some a

/-- The grammar that the lines of a file define. -/
def readRules (path : Path) (lines : List RawLine) : Reading :=
  let outcomes := readLines path lines
  match errorsOf outcomes with
  | [] => grammarOfRules (valuesOf outcomes)
  | errors => .error errors

/-- **Reads a rule file from its text.** -/
def readText (path : Path) (text : String) : Reading :=
  readRules path ((cutLines '\n' text.toList).map .ok)

def decodeLine (line : List UInt8) : RawLine :=
  match String.fromUTF8? ⟨line.toArray⟩ with
  | some s => .ok s.toList
  | none => .error .notText

/-- **Reads a rule file from its bytes**, which are cut into lines before they are decoded. -/
def readBytes (path : Path) (bytes : List UInt8) : Reading :=
  readRules path ((cutLines 0x0a bytes).map decodeLine)

/-- Reads a rule file from its content, if the file is there. -/
def readContent (path : Path) : Option (List UInt8) → Reading
  | some bytes => readBytes path bytes
  | none => .error [⟨⟨path, 0⟩, .unreadable .missing⟩]

/-- Two outcomes are the same: equal grammars, or equal errors at the same places. -/
def sameReading : Reading → Reading → Bool
  | .ok g, .ok g' => g = g'
  | .error errors, .error errors' => errors == errors'
  | _, _ => false

end Chomsky
