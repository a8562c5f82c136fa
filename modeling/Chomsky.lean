import Chomsky.Derivation
import Chomsky.Main
import Chomsky.Proofs.Grammar.Change
import Chomsky.Proofs.Grammar.WellFormed
import Chomsky.Proofs.Grammar.Reachable
import Chomsky.Proofs.Grammar.Alternatives
import Chomsky.Proofs.Grammar.Contents
import Chomsky.Proofs.Grammar.Listing
import Chomsky.Proofs.Grammar.Written
import Chomsky.Proofs.Grammar.History
import Chomsky.Proofs.Chart.Filling
import Chomsky.Proofs.Derivation.Cover
import Chomsky.Proofs.Chart.Exactness
import Chomsky.Proofs.Chart.Recognition
import Chomsky.Proofs.Chart.Cells
import Chomsky.Proofs.Chart.Decoding
import Chomsky.Proofs.Chart.InPlace
import Chomsky.Proofs.Chart.Form
import Chomsky.Proofs.Chart.Tagging
import Chomsky.Proofs.Chart.Reordering
import Chomsky.Proofs.Draws
import Chomsky.Proofs.Tree.Growth
import Chomsky.Proofs.Tree.Language
import Chomsky.Proofs.Tree.Progress
import Chomsky.Proofs.Tree.Endless
import Chomsky.Proofs.Tree.Success
import Chomsky.Proofs.Tree.Scan
import Chomsky.Proofs.Tree.Reordering
import Chomsky.Proofs.RuleFile.Token
import Chomsky.Proofs.Text.Lines
import Chomsky.Proofs.Text.Encoding
import Chomsky.Proofs.RuleFile.Rule
import Chomsky.Proofs.RuleFile.Building
import Chomsky.Proofs.RuleFile.Reading
import Chomsky.Proofs.RuleFile.Listing
import Chomsky.Proofs.RuleFile.Bytes
import Chomsky.Proofs.CommandLine.Words
import Chomsky.Proofs.CommandLine.Run
import Chomsky.Proofs.Tree.Settling
import Chomsky.Proofs.Tree.Support
import Chomsky.Proofs.Tree.Choices
import Chomsky.Proofs.Tree.Bounds
import Chomsky.Proofs.Tree.Fairness
import Chomsky.Proofs.RuleFile.Faults
import Chomsky.Proofs.RuleFile.Layout
import Chomsky.Proofs.RuleFile.Regrouping
import Chomsky.Proofs.RuleFile.Spelling
import Chomsky.Proofs.Chart.Rendering
import Chomsky.Proofs.Chart.Growing
