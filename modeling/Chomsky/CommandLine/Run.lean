import Chomsky.CommandLine.Options
import Chomsky.Chart.Rendering
import Chomsky.Grammar.Listing
import Chomsky.RuleFile.Reading
import Chomsky.Tree.Growth

/-!
# Runs of the program

A run loads the rule file, sets the start symbol, prints the grammar, checks the words, and generates
words, as far as the options ask for it. It fails if the file does not load, the start symbol is
unknown, or no word can be generated; a bad word is reported and does not make it fail.

* `Output`: what goes to the two streams;
* `Report`, **`run`**.
-/

namespace Chomsky

/-- What is printed, on the standard stream and on the stream for errors. -/
structure Output where
  text : String := ""
  errors : String := ""
deriving DecidableEq, Repr

namespace Output

instance : Append Output := ⟨fun a b => ⟨a.text ++ b.text, a.errors ++ b.errors⟩⟩

instance : EmptyCollection Output := ⟨{}⟩

def line (s : String) : Output := { text := s ++ "\n" }

def error (s : String) : Output := { errors := s ++ "\n" }

def join (outputs : List Output) : Output := outputs.foldr (· ++ ·) ∅

end Output

/-- The chart of a word if it is traced. It is made anew, and nothing is said if there is none. -/
def traceOutput (g : Grammar) (options : Options) (w : Word) : Output :=
  if options.trace then
    match g.wordChartText w with
    | .ok text => { text }
    | .error _ => ∅
  else ∅

/-- What a word prints: its chart, or its verdict and the chart if that is traced. -/
def wordOutput (g : Grammar) (options : Options) (w : Word) : Output :=
  let word := String.ofList w
  if options.sentential then
    match g.formChartText w with
    | .ok text => { text }
    | .error e => .error s!"{word}: {e.message}"
  else
    match g.isDerived w with
    | .ok derived =>
      let verdict := if derived then "accepted" else "rejected"
      .line s!"{word}: {verdict}" ++ traceOutput g options w
    | .error e => .error s!"{word}: {e.message}"

/-- Up to `n` random words, and the error that ends them early. -/
def generateWords (g : Grammar) (maxDepth : Nat) : Nat → Draws → List Word × Option GrowthError
  | 0, _ => ([], none)
  | n + 1, draws =>
    match (g.randomWord maxDepth).run.run draws with
    | (.ok w, rest) =>
      let (words, error?) := generateWords g maxDepth n rest
      (w :: words, error?)
    | (.error e, _) => ([], some e)

/-- **The result of a run**: what is printed and whether it failed. -/
structure Report where
  output : Output
  failed : Bool
deriving DecidableEq, Repr

/-- What a run prints with its grammar at hand, before any word is generated. -/
def checkOutput (g : Grammar) (options : Options) : Output :=
  { text := if options.grammar then g.listing else "" } ++
    .join (options.words.map (wordOutput g options))

def runOver (g : Grammar) (options : Options) (draws : Draws) : Report :=
  let (words, error?) := generateWords g options.maxDepth (options.generate.getD 0) draws
  let generated := Output.join (words.map fun w => .line (String.ofList w))
  match error? with
  | none => ⟨checkOutput g options ++ generated, false⟩
  | some e => ⟨checkOutput g options ++ generated ++ .error e.message, true⟩

/-- **A run of the program** on the content of the rule file, if there is one. -/
def run (options : Options) (content : Option (List UInt8)) (draws : Draws) : Report :=
  match readContent ⟨options.file⟩ content with
  | .error errors => ⟨.join (errors.map fun e => .error (e.location.report e.item.message)), true⟩
  | .ok g =>
    match options.start with
    | none => runOver g options draws
    | some c =>
      match g.setStart c with
      | (.ok (), g) => runOver g options draws
      | (.error e, _) => ⟨.error e.message, true⟩

end Chomsky
