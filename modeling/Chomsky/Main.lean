import Chomsky.CommandLine.Run

/-!
# The program

Reads the rule file, runs, and prints. All decisions are made by `Chomsky.run`.
-/

namespace Chomsky

/-- The bytes of a file that can be opened. -/
def contentOf (file : String) : IO (Option (List UInt8)) := do
  try
    return some (← IO.FS.readBinFile file).toList
  catch _ =>
    return none

/-- The random numbers of a run, from the seed if there is one. -/
def drawsOf (options : Options) : IO Draws := do
  let state ← match options.seed with
    | some seed => pure seed
    | none => IO.rand 0 0xffffffffffffffff
  return .seeded [] (UInt64.ofNat state)

end Chomsky

/-- The command line. A refused line exits with 2, a failed run with 1. -/
def main (args : List String) : IO UInt32 := do
  match Chomsky.Options.ofLine? args with
  | none =>
    IO.eprintln "error: the arguments are not understood"
    return 2
  | some options =>
    let report := Chomsky.run options (← Chomsky.contentOf options.file) (← Chomsky.drawsOf options)
    IO.print report.output.text
    IO.eprint report.output.errors
    return if report.failed then 1 else 0
