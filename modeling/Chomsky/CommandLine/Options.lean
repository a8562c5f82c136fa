/-!
# Command-line options

The command line names a rule file, then any words to check; options may stand anywhere before a `--`,
behind which everything is positional. A line that breaks a rule is refused as a whole.

* `Switch`, `Setting`, `OptionName`: the options by their long and short names;
* `Argument`, `readShort`, `readLong`, **`readArguments`**: the line as a list of arguments;
* `natural?`, `amount?`, `letter?`: the values of settings;
* **`Options.ofLine?`**: the options that a line selects.
-/

namespace Chomsky

inductive Switch where
  | trace
  | sentential
  | grammar
deriving DecidableEq, Repr

inductive Setting where
  | start
  | generate
  | maxDepth
  | seed
  | logLevel
deriving DecidableEq, Repr

inductive OptionName where
  | switch (s : Switch)
  | setting (s : Setting)
deriving DecidableEq, Repr

namespace OptionName

/-- The option of a long name, which may not be abbreviated. -/
def ofLong? : String → Option OptionName
  | "trace" => some (switch .trace)
  | "sentential" => some (switch .sentential)
  | "grammar" => some (switch .grammar)
  | "start" => some (setting .start)
  | "generate" => some (setting .generate)
  | "max-depth" => some (setting .maxDepth)
  | "seed" => some (setting .seed)
  | "log-level" => some (setting .logLevel)
  | _ => none

def ofShort? : Char → Option OptionName
  | 't' => some (switch .trace)
  | 'g' => some (switch .grammar)
  | 's' => some (setting .start)
  | 'n' => some (setting .generate)
  | _ => none

end OptionName

/-! ## Arguments -/

inductive Argument where
  | positional (text : List Char)
  | switch (s : Switch)
  | setting (s : Setting) (value : List Char)
deriving DecidableEq, Repr

/-- What a text that begins with a dash says, and the setting that still waits for its value. -/
abbrev Dashed : Type := List Argument × Option Setting

/-- A group of short names. The rest of the group behind a setting is its value, less one equals
sign in front. -/
def readShort : List Char → Option Dashed
  | [] => some ([], none)
  | c :: cs =>
    match OptionName.ofShort? c with
    | none => none
    | some (.switch s) => (readShort cs).map fun p => (.switch s :: p.1, p.2)
    | some (.setting s) =>
      match cs with
      | [] => some ([], some s)
      | '=' :: value => some ([.setting s value], none)
      | value => some ([.setting s value], none)

/-- A long name, whose value may follow an equals sign. -/
def readLong (text : List Char) : Option Dashed :=
  match OptionName.ofLong? (String.ofList (text.takeWhile (· ≠ '='))), text.dropWhile (· ≠ '=') with
  | some (.switch s), [] => some ([.switch s], none)
  | some (.setting s), [] => some ([], some s)
  | some (.setting s), _ :: value => some ([.setting s value], none)
  | _, _ => none

/-- One text of the line before any `--`. A lone dash is positional. -/
def readOne : List Char → Option Dashed
  | '-' :: '-' :: name => readLong name
  | ['-'] => some ([.positional ['-']], none)
  | '-' :: group => readShort group
  | text => some ([.positional text], none)

/-- Whether a text may be the value of the setting before it. -/
def isValue : List Char → Bool
  | ['-'] => true
  | '-' :: _ => false
  | _ => true

/-- **The arguments of a command line**, in order. -/
def readArguments : List (List Char) → Option (List Argument)
  | [] => some []
  | ['-', '-'] :: rest => some (rest.map .positional)
  | text :: rest =>
    match readOne text with
    | none => none
    | some (arguments, none) => (readArguments rest).map (arguments ++ ·)
    | some (arguments, some s) =>
      match rest with
      | [] => none
      | value :: rest =>
        if isValue value then (readArguments rest).map (arguments ++ .setting s value :: ·) else none

namespace Argument

def positional? : Argument → Option (List Char)
  | positional text => some text
  | _ => none

def option? : Argument → Option OptionName
  | positional _ => none
  | switch s => some (.switch s)
  | setting s _ => some (.setting s)

def valueOf? (s : Setting) : Argument → Option (List Char)
  | setting s' value => if s' = s then some value else none
  | _ => none

end Argument

/-! ## Values -/

/-- The number that decimal digits write; at least one is needed. -/
def digits? : List Char → Option Nat
  | [] => none
  | cs =>
    if cs.all fun c => '0' ≤ c && c ≤ '9' then
      some (cs.foldl (fun n c => 10 * n + (c.toNat - '0'.toNat)) 0)
    else none

/-- A number below a bound, with a plus sign in front or without. -/
def natural? (bound : Nat) (cs : List Char) : Option Nat :=
  let digits := match cs with
    | '+' :: rest => rest
    | _ => cs
  (digits? digits).filter (· < bound)

/-- An amount is read as a signed number, so zero may have a minus sign. -/
def amount? : List Char → Option Nat
  | '-' :: rest => (digits? rest).filter (· = 0)
  | cs => natural? 0x100000000 cs

def letter? : List Char → Option Char
  | [c] => some c
  | _ => none

/-! ## Options -/

/-- **What a command line asks for.** -/
structure Options where
  file : String
  words : List (List Char) := []
  start : Option Char := none
  /-- Print the chart of every word. -/
  trace : Bool := false
  /-- Take the words for sentential forms. -/
  sentential : Bool := false
  /-- Print the grammar. -/
  grammar : Bool := false
  /-- How many words to generate. -/
  generate : Option Nat := none
  maxDepth : Nat := 8
  seed : Option Nat := none
  /-- Any text will do; a run keeps no log. -/
  logLevel : String := "warn"
deriving DecidableEq, Repr

/-- The value of a setting as `read` understands it: absent, or present and good. -/
def given? {α : Type} (arguments : List Argument) (s : Setting) (read : List Char → Option α) :
    Option (Option α) :=
  match arguments.findSome? (·.valueOf? s) with
  | none => some none
  | some value => (read value).map some

/-- **The options that a command line selects**, unless it is refused. No option may be used twice, and
the file needs a name. -/
def Options.ofLine? (line : List String) : Option Options := do
  let arguments ← readArguments (line.map String.toList)
  guard (arguments.filterMap Argument.option?).Nodup
  let file :: words := arguments.filterMap Argument.positional? | none
  guard (file ≠ [])
  let used (s : Switch) : Bool := .switch s ∈ arguments
  return {
    file := String.ofList file
    words := words
    start := ← given? arguments .start letter?
    trace := used .trace
    sentential := used .sentential
    grammar := used .grammar
    generate := ← given? arguments .generate amount?
    maxDepth := (← given? arguments .maxDepth (natural? 0x10000000000000000)).getD 8
    seed := ← given? arguments .seed (natural? 0x10000000000000000)
    logLevel := ((← given? arguments .logLevel some).map String.ofList).getD "warn" }

end Chomsky
