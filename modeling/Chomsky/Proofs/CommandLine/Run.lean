import Chomsky.Proofs.CommandLine.Words
import Chomsky.Proofs.RuleFile.Bytes

/-!
# What a run prints and when it fails

A run fails if its file does not load, if its start symbol is unknown, or if it has to generate words and its
grammar derives none. It then prints no generated word, and in the first two cases nothing but errors. Else it
prints what every word has to say and as many generated words as were asked for; the words that it is asked about
decide nothing.

* **`wordOutput_of_sentential`**, **`wordOutput_of_not_sentential`**: what a word prints;
* **`run_streams_and_failure`**: what a run prints on both streams, and when it fails.
-/

namespace Chomsky

variable {g : Grammar} {options : Options} {content : Option (List UInt8)} {draws : Draws} {w : Word}

/-! ## What is printed -/

/-- The line of a verdict. -/
def verdictLine (w : Word) (derived : Bool) : String :=
  String.ofList w ++ ": " ++ (if derived then "accepted" else "rejected") ++ "\n"

/-- The line about a word that has no verdict or no chart. -/
def complaintLine (w : Word) (e : ChartError) : String := String.ofList w ++ ": " ++ e.message ++ "\n"

/-- What a run says on the standard stream before any word is generated. -/
def checkText (g : Grammar) (options : Options) : String :=
  (if options.grammar then g.listing else "") ++
    String.join (options.words.map fun w => (wordOutput g options w).text)

/-- What the words that a run is asked about say on the stream for errors. -/
def checkErrors (g : Grammar) (options : Options) : String :=
  String.join (options.words.map fun w => (wordOutput g options w).errors)

namespace Output

theorem mk_append_mk (text errors text' errors' : String) :
    (⟨text, errors⟩ : Output) ++ ⟨text', errors'⟩ = ⟨text ++ text', errors ++ errors'⟩ := rfl

theorem join_eq (outputs : List Output) : join outputs =
    ⟨String.join (outputs.map (·.text)), String.join (outputs.map (·.errors))⟩ := by
  induction outputs with
  | nil => rfl
  | cons output outputs ih =>
    rw [List.map_cons, List.map_cons, String.join_cons, String.join_cons, ← mk_append_mk, ← ih]
    rfl

theorem join_map_const_empty {α : Type} (as : List α) : String.join (as.map fun _ => "") = "" := by
  induction as with
  | nil => rfl
  | cons a as ih => rw [List.map_cons, String.join_cons, ih, String.append_empty]

theorem join_line (messages : List String) :
    join (messages.map line) = ⟨String.join (messages.map (· ++ "\n")), ""⟩ := by
  rw [join_eq, List.map_map, List.map_map]
  exact congrArg (Output.mk _) (join_map_const_empty messages)

theorem join_error (messages : List String) :
    join (messages.map error) = ⟨"", String.join (messages.map (· ++ "\n"))⟩ := by
  rw [join_eq, List.map_map, List.map_map]
  exact congrArg (Output.mk · _) (join_map_const_empty messages)

end Output

theorem checkOutput_eq (g : Grammar) (options : Options) :
    checkOutput g options = ⟨checkText g options, checkErrors g options⟩ := by
  rw [checkOutput, Output.join_eq, List.map_map, List.map_map, Output.mk_append_mk, String.empty_append]
  rfl

/-- **What a word prints as a sentential form**: its chart or one complaint. -/
theorem wordOutput_of_sentential (g : Grammar) (hsentential : options.sentential = true) (w : Word) :
    (∃ chart, g.formChartText w = .ok chart ∧ wordOutput g options w = { text := chart, errors := "" }) ∨
    ∃ e, g.formChartText w = .error e ∧
      wordOutput g options w = { text := "", errors := complaintLine w e } := by
  rw [wordOutput, hsentential]
  cases g.formChartText w with
  | error e => exact .inr ⟨e, rfl, rfl⟩
  | ok chart => exact .inl ⟨chart, rfl, rfl⟩

/-- **What a word prints otherwise**: its verdict, with the chart behind it if that is traced, or one complaint.
The chart is made anew, but it fails only where the verdict has failed. -/
theorem wordOutput_of_not_sentential (g : Grammar) (hsentential : options.sentential = false) (w : Word) :
    (∃ derived chart, g.isDerived w = .ok derived ∧ g.wordChartText w = .ok chart ∧
      wordOutput g options w =
        { text := verdictLine w derived ++ (if options.trace then chart else ""), errors := "" }) ∨
    ∃ e, g.isDerived w = .error e ∧ g.wordChartText w = .error e ∧
      wordOutput g options w = { text := "", errors := complaintLine w e } := by
  rw [wordOutput, traceOutput, hsentential, Grammar.isDerived, Grammar.wordChartText]
  rcases g.wordChart w with e | ⟨chart, start⟩
  · exact .inr ⟨e, rfl, rfl, rfl⟩
  · refine .inl ⟨_, _, rfl, rfl, ?_⟩
    cases options.trace <;> rfl

/-! ## How far a run comes -/

/-- **A run works on the grammar**: the file loads, and the start symbol that the options select, if they select
one, is a nonterminal of it. -/
def Options.Loads (options : Options) (content : Option (List UInt8)) (g : Grammar) : Prop :=
  ∃ g₀, readContent ⟨options.file⟩ content = .ok g₀ ∧
    (∀ c, options.start = some c → c ∈ g₀.nonterminals) ∧
    g = { g₀ with start := options.start.or g₀.start }

/-- How many words a run has to generate. -/
def Options.amount (options : Options) : Nat := options.generate.getD 0

theorem reachable_of_readContent {path : Path} (h : readContent path content = .ok g) : g.Reachable := by
  cases content with
  | none => cases h
  | some bytes =>
    cases htext : String.fromUTF8? ⟨bytes.toArray⟩ with
    | none =>
      rw [readContent, readBytes_eq_error path htext] at h
      cases h
    | some text =>
      rw [readContent, fromUTF8?_eq_some_iff.mp htext, readBytes_encode] at h
      exact .read h

theorem Options.reachable_of_loads (h : options.Loads content g) : g.Reachable := by
  obtain ⟨g₀, hread, hstart, rfl⟩ := h
  have hg₀ := reachable_of_readContent hread
  cases hs : options.start with
  | none => exact hg₀
  | some c =>
    have hset : g₀.attempt (.setStart c) = { g₀ with start := some c } := by
      rw [Grammar.attempt, Change.apply, Grammar.setStart_eq_ok_iff.mpr ⟨hstart c hs, rfl⟩]
    exact hset ▸ hg₀.attempt (.setStart c)

theorem run_of_not_read {errors : List (Located RuleError)}
    (h : readContent ⟨options.file⟩ content = .error errors) (draws : Draws) :
    run options content draws =
      { output := { text := "",
                    errors := String.join (errors.map fun e => e.location.report e.item.message ++ "\n") },
        failed := true } := by
  have herrors := Output.join_error (errors.map fun e => e.location.report e.item.message)
  rw [List.map_map, List.map_map] at herrors
  rw [run, h]
  exact congrArg (Report.mk · true) herrors

theorem run_of_unknown_start {c : Char} (h : readContent ⟨options.file⟩ content = .ok g)
    (hs : options.start = some c) (hc : c ∉ g.nonterminals) (draws : Draws) :
    run options content draws =
      { output := { text := "", errors := (GrammarError.unknownSymbol c).message ++ "\n" },
        failed := true } := by
  rw [run, h, hs]
  simp only [Grammar.setStart, Grammar.isNonterminal, hc, decide_false, Bool.not_false, if_true]
  rfl

theorem run_of_loads (h : options.Loads content g) (draws : Draws) :
    run options content draws = runOver g options draws := by
  obtain ⟨g₀, hread, hstart, rfl⟩ := h
  rw [run, hread]
  cases hs : options.start with
  | none => rfl
  | some c =>
    dsimp only
    rw [Grammar.setStart_eq_ok_iff.mpr ⟨hstart c hs, rfl⟩]
    rfl

theorem exists_loads_or (options : Options) (content : Option (List UInt8)) :
    (∃ errors, readContent ⟨options.file⟩ content = .error errors) ∨
    (∃ g c, readContent ⟨options.file⟩ content = .ok g ∧ options.start = some c ∧ c ∉ g.nonterminals) ∨
    ∃ g, options.Loads content g := by
  cases hread : readContent ⟨options.file⟩ content with
  | error errors => exact .inl ⟨errors, rfl⟩
  | ok g =>
    by_cases hstart : ∀ c, options.start = some c → c ∈ g.nonterminals
    · exact .inr (.inr ⟨_, g, hread, hstart, rfl⟩)
    · push Not at hstart
      obtain ⟨c, hs, hc⟩ := hstart
      exact .inr (.inl ⟨g, c, rfl, hs, hc⟩)

/-! ## Generated words -/

/-- The supply of random numbers lasts for the words that a run generates. -/
def Options.Supplied (options : Options) (draws : Draws) (g : Grammar) : Prop :=
  (generateWords g options.maxDepth options.amount draws).2 ≠ some .outOfDraws

/-- **What a run prints that generates the words**: all that the words it was asked about have to say, then a
line for each generated one. -/
def successReport (g : Grammar) (options : Options) (words : List Word) : Report where
  output :=
    { text := checkText g options ++ String.join (words.map fun w => String.ofList w ++ "\n")
      errors := checkErrors g options }
  failed := false

theorem run_of_generateWords {words : List Word} (h : options.Loads content g)
    (hwords : generateWords g options.maxDepth options.amount draws = (words, none)) :
    run options content draws = successReport g options words := by
  have hlines := Output.join_line (words.map String.ofList)
  rw [List.map_map, List.map_map] at hlines
  rw [Options.amount] at hwords
  rw [run_of_loads h, runOver, hwords]
  show (⟨checkOutput g options ++ Output.join (words.map (Output.line ∘ String.ofList)), false⟩ : Report) = _
  rw [hlines, checkOutput_eq, Output.mk_append_mk, String.append_empty]
  rfl

/-- **A run with nothing to generate fails**, behind all that its words print. -/
theorem run_of_barren (h : options.Loads content g) (hn : 0 < options.amount) (hb : g.Barren)
    (draws : Draws) : run options content draws =
      { output := { text := checkText g options,
                    errors := checkErrors g options ++ (g.generationError.message ++ "\n") },
        failed := true } := by
  have hwords : generateWords g options.maxDepth (options.generate.getD 0) draws =
      ([], some g.generationError) :=
    generateWords_of_barren (Options.reachable_of_loads h).wellFormed hb hn draws
  rw [run_of_loads h, runOver, hwords]
  show (⟨checkOutput g options ++ ⟨"", ""⟩ ++ ⟨"", g.generationError.message ++ "\n"⟩, true⟩ : Report) = _
  rw [checkOutput_eq, Output.mk_append_mk, Output.mk_append_mk]
  simp only [String.append_empty]

theorem failed_run_of_loads (h : options.Loads content g) (draws : Draws) :
    (run options content draws).failed =
      (generateWords g options.maxDepth options.amount draws).2.isSome := by
  rw [run_of_loads h, runOver, Options.amount]
  rcases generateWords g options.maxDepth (options.generate.getD 0) draws with ⟨words, _ | e⟩ <;> rfl

section Success

variable (h : options.Loads content g) (hb : options.amount = 0 ∨ ¬ g.Barren)

include h hb

theorem exists_words_of_supplied (hsupplied : options.Supplied draws g) :
    ∃ words, generateWords g options.maxDepth options.amount draws = (words, none) ∧
      words.length = options.amount ∧ ∀ w ∈ words, g.isDerived w = .ok true := by
  rcases hb with hzero | hb
  · rw [hzero]
    exact ⟨[], rfl, rfl, nofun⟩
  · have hg := (Options.reachable_of_loads h).wellFormed
    rcases generateWords_derived_or_dry hg hb options.maxDepth options.amount draws with hwords | hdry
    · exact hwords
    · exact absurd hdry hsupplied

theorem exists_words_of_source_iff (σ : Nat → UInt32) :
    (∃ words t, words.length = options.amount ∧ (∀ w ∈ words, g.isDerived w = .ok true) ∧
      ∀ m, run options content (.window σ 0 (t + m)) = successReport g options words) ↔
      g.WordsEnd σ options.maxDepth options.amount 0 := by
  have hg := (Options.reachable_of_loads h).wellFormed
  constructor
  · rintro ⟨words, t, -, -, hrun⟩
    rcases hb with hzero | hb
    · rw [hzero]
      exact trivial
    · refine wordsEnd_of_generateWords hg hb (m := t + 0) ?_
      rw [← Option.not_isSome_iff_eq_none, ← failed_run_of_loads h, hrun]
      exact Bool.false_ne_true
  · intro hends
    obtain ⟨words, t, hwords⟩ : ∃ words t, ∀ m,
        generateWords g options.maxDepth options.amount (.window σ 0 (t + m)) = (words, none) := by
      rcases id hb with hzero | hb
      · rw [hzero]
        exact ⟨[], 0, fun _ => rfl⟩
      · exact exists_generateWords_window hg hb hends
    have hsupplied : options.Supplied (.window σ 0 (t + 0)) g := by
      rw [Options.Supplied, hwords]
      exact nofun
    obtain ⟨words', hwords', hlength, hderived⟩ := exists_words_of_supplied h hb hsupplied
    rw [hwords] at hwords'
    cases hwords'
    exact ⟨words, t, hlength, hderived, fun m => run_of_generateWords h (hwords m)⟩

end Success

theorem failed_run_words (options : Options) (content : Option (List UInt8)) (draws : Draws)
    (words : List Word) :
    (run { options with words := words } content draws).failed = (run options content draws).failed := by
  rcases exists_loads_or options content with ⟨errors, hread⟩ | ⟨g, c, hread, hs, hc⟩ | ⟨g, h⟩
  · rw [run_of_not_read hread, run_of_not_read]
    exact hread
  · rw [run_of_unknown_start hread hs hc, run_of_unknown_start]
    exacts [hread, hs, hc]
  · have h' : Options.Loads { options with words := words } content g := h
    rw [failed_run_of_loads h, failed_run_of_loads h']
    rfl

theorem failed_run_iff (hsupplied : ∀ g, options.Loads content g → options.Supplied draws g) :
    (run options content draws).failed = true ↔
      (∃ errors, readContent ⟨options.file⟩ content = .error errors) ∨
      (∃ g c, readContent ⟨options.file⟩ content = .ok g ∧ options.start = some c ∧
        c ∉ g.nonterminals) ∨
      ∃ g, options.Loads content g ∧ 0 < options.amount ∧ g.Barren := by
  constructor
  · intro hfailed
    rcases exists_loads_or options content with hread | hstart | ⟨g, h⟩
    · exact .inl hread
    · exact .inr (.inl hstart)
    · refine .inr (.inr ⟨g, h, ?_⟩)
      by_contra hno
      have hb : options.amount = 0 ∨ ¬ g.Barren := by
        rcases Nat.eq_zero_or_pos options.amount with hzero | hpos
        · exact .inl hzero
        · exact .inr fun hb => hno ⟨hpos, hb⟩
      obtain ⟨words, hwords, -⟩ := exists_words_of_supplied h hb (hsupplied g h)
      rw [failed_run_of_loads h, hwords] at hfailed
      cases hfailed
  · rintro (⟨errors, hread⟩ | ⟨g, c, hread, hs, hc⟩ | ⟨g, h, hn, hb⟩)
    · rw [run_of_not_read hread]
    · rw [run_of_unknown_start hread hs hc]
    · rw [run_of_barren h hn hb]

/-- **What a run prints and when it fails.** If its file does not load or its start symbol is unknown, it fails
and prints nothing but errors. Otherwise it prints what its words have to say, one after the other: a chart, or a
verdict with a chart behind it if that is traced, or a complaint. If it has to generate words and the grammar
derives none, it fails behind all that with a single error; if the grammar derives one, it prints as many as were
asked for, all of which the grammar derives, from any supply of numbers that lasts and from an endless source just
if each choice ends. So a run fails for one of three reasons, and never for the words that it is asked about. -/
theorem run_streams_and_failure (options : Options) (content : Option (List UInt8)) :
    (∀ errors, readContent ⟨options.file⟩ content = .error errors → ∀ draws, run options content draws =
      { output := { text := "",
                    errors := String.join (errors.map fun e => e.location.report e.item.message ++ "\n") },
        failed := true }) ∧
    (∀ g c, readContent ⟨options.file⟩ content = .ok g → options.start = some c → c ∉ g.nonterminals →
      ∀ draws, run options content draws =
        { output := { text := "", errors := (GrammarError.unknownSymbol c).message ++ "\n" },
          failed := true }) ∧
    (∀ g, options.Loads content g →
      (0 < options.amount → g.Barren → '\n' ∉ g.generationError.message.toList ∧
        ∀ draws, run options content draws =
          { output := { text := checkText g options,
                        errors := checkErrors g options ++ (g.generationError.message ++ "\n") },
            failed := true }) ∧
      (options.amount = 0 ∨ ¬ g.Barren →
        (∀ draws, options.Supplied draws g → ∃ words, words.length = options.amount ∧
          (∀ w ∈ words, g.isDerived w = .ok true) ∧
          run options content draws = successReport g options words) ∧
        ∀ σ, (∃ words t, words.length = options.amount ∧ (∀ w ∈ words, g.isDerived w = .ok true) ∧
          ∀ m, run options content (.window σ 0 (t + m)) = successReport g options words) ↔
          g.WordsEnd σ options.maxDepth options.amount 0) ∧
      (options.sentential = true → ∀ w,
        (∃ chart, g.formChartText w = .ok chart ∧
          wordOutput g options w = { text := chart, errors := "" }) ∨
        ∃ e, g.formChartText w = .error e ∧
          wordOutput g options w = { text := "", errors := complaintLine w e }) ∧
      (options.sentential = false → ∀ w,
        (∃ derived chart, g.isDerived w = .ok derived ∧ g.wordChartText w = .ok chart ∧
          wordOutput g options w =
            { text := verdictLine w derived ++ (if options.trace then chart else ""), errors := "" }) ∨
        ∃ e, g.isDerived w = .error e ∧ g.wordChartText w = .error e ∧
          wordOutput g options w = { text := "", errors := complaintLine w e })) ∧
    (∀ draws, (∀ g, options.Loads content g → options.Supplied draws g) →
      ((run options content draws).failed = true ↔
        (∃ errors, readContent ⟨options.file⟩ content = .error errors) ∨
        (∃ g c, readContent ⟨options.file⟩ content = .ok g ∧ options.start = some c ∧
          c ∉ g.nonterminals) ∨
        ∃ g, options.Loads content g ∧ 0 < options.amount ∧ g.Barren)) ∧
    ∀ draws words, (run { options with words := words } content draws).failed =
      (run options content draws).failed := by
  refine ⟨fun errors hread => run_of_not_read hread, fun g c hread hs hc => run_of_unknown_start hread hs hc,
    fun g h => ⟨fun hn hb => ⟨?_, run_of_barren h hn hb⟩,
      fun hb => ⟨fun draws hsupplied => ?_, exists_words_of_source_iff h hb⟩,
      wordOutput_of_sentential g, wordOutput_of_not_sentential g⟩,
    fun draws => failed_run_iff, failed_run_words options content⟩
  · exact Grammar.newline_not_mem_generationError (Options.reachable_of_loads h).wellFormed
  · obtain ⟨words, hwords, hlength, hderived⟩ := exists_words_of_supplied h hb hsupplied
    exact ⟨words, hlength, hderived, run_of_generateWords h hwords⟩

/-- `S::=a`. -/
def letterGrammar : Grammar := (∅ : Grammar).after
  [.declareNonterminal 'S', .declareTerminal 'a', .setStart 'S', .add ⟨'S', .unary 'a'⟩]

/-- `S::=SS`. -/
def barrenGrammar : Grammar := (∅ : Grammar).after
  [.declareNonterminal 'S', .setStart 'S', .add ⟨'S', .binary 'S' 'S'⟩]

/-- Two words to generate and one to check. -/
def twoWords : Options := { file := "a.cnf", words := [['a']], trace := true, generate := some 2 }

theorem eq_ok_of_sameReading {reading : Reading} (h : sameReading reading (.ok g) = true) :
    reading = .ok g := by
  cases reading with
  | error errors => cases h
  | ok g' => rw [of_decide_eq_true h]

theorem run_two_words :
    (∀ draws, run twoWords none draws =
      ⟨⟨"", "\x1b[31;49;1m[a.cnf]\x1b[39;49;1m  File error: No such file or directory (os error 2)\x1b[0m\n"⟩,
        true⟩) ∧
    (∀ draws, run { twoWords with start := some 'T' } (some [0x53, 0x3d, 0x61]) draws =
      ⟨⟨"", "Nonterminal `T` is not defined\n"⟩, true⟩) ∧
    (∃ words : List Word, words.length = 2 ∧ (∀ w ∈ words, letterGrammar.isDerived w = .ok true) ∧
      run twoWords (some [0x53, 0x3d, 0x61]) ⟨[0, 0], 0, 0⟩ =
        ⟨⟨"a: accepted\n(0,0): S \n" ++ String.join (words.map fun w => String.ofList w ++ "\n"), ""⟩, false⟩) ∧
    (∃ words t, words.length = 2 ∧ ∀ m,
      run twoWords (some [0x53, 0x3d, 0x61]) (.window (fun _ => 0) 0 (t + m)) =
        successReport letterGrammar twoWords words) ∧
    (∃ chart, wordOutput letterGrammar twoWords ['a'] = ⟨"a: accepted\n" ++ chart, ""⟩) ∧
    (∀ draws, run twoWords (some [0x53, 0x3d, 0x53, 0x53]) draws =
      ⟨⟨"", "a: `a` is not a terminal of the grammar\nNonterminal `S` never derives a word\n"⟩, true⟩) ∧
    (run twoWords (some [0x53, 0x3d, 0x53, 0x53]) ⟨[], 0, 0⟩).failed = true := by
  have hletter : readContent ⟨"a.cnf"⟩ (some [0x53, 0x3d, 0x61]) = .ok letterGrammar :=
    eq_ok_of_sameReading (by decide +kernel)
  have hbarren : readContent ⟨"a.cnf"⟩ (some [0x53, 0x3d, 0x53, 0x53]) = .ok barrenGrammar :=
    eq_ok_of_sameReading (by decide +kernel)
  have hderives : ¬ letterGrammar.Barren := not_not.mpr
    ⟨['a'], ⟨'S', rfl, Grammar.Derives.of_mem (p := ⟨'S', .unary 'a'⟩) (by decide +kernel)⟩,
      List.forall_mem_singleton.mpr (by decide +kernel)⟩
  have hno : barrenGrammar.Barren := by
    have hg : barrenGrammar.WellFormed := (Grammar.Reachable.empty.after _).wellFormed
    refine (Grammar.barren_iff hg).mpr fun start hs => ?_
    obtain rfl : 'S' = start := Option.some.inj hs
    rw [Grammar.productive_iff_get?_leastHeights hg,
      (by decide +kernel : barrenGrammar.leastHeights.get? 'S' = none)]
    simp
  obtain ⟨hmissing, -⟩ := run_streams_and_failure twoWords none
  obtain ⟨-, hunknown, -⟩ :=
    run_streams_and_failure { twoWords with start := some 'T' } (some [0x53, 0x3d, 0x61])
  obtain ⟨-, -, hloads, -⟩ := run_streams_and_failure twoWords (some [0x53, 0x3d, 0x61])
  obtain ⟨-, -, hloads', hfailed, -⟩ := run_streams_and_failure twoWords (some [0x53, 0x3d, 0x53, 0x53])
  obtain ⟨-, hwords, -, htrace⟩ := hloads letterGrammar ⟨letterGrammar, hletter, nofun, rfl⟩
  obtain ⟨hfails, -⟩ := hloads' barrenGrammar ⟨barrenGrammar, hbarren, nofun, rfl⟩
  refine ⟨fun draws => ?_, fun draws => ?_, ?_, ?_, ?_, fun draws => ?_, ?_⟩
  · rw [hmissing _ rfl draws]
    decide +kernel
  · rw [hunknown letterGrammar 'T' hletter rfl (by decide +kernel) draws]
    decide +kernel
  · obtain ⟨words, hlength, hderived, hrun⟩ :=
      (hwords (.inr hderives)).1 ⟨[0, 0], 0, 0⟩ (by unfold Options.Supplied; decide +kernel)
    refine ⟨words, hlength, hderived, hrun.trans ?_⟩
    rw [successReport,
      (by decide +kernel : checkText letterGrammar twoWords = "a: accepted\n(0,0): S \n"),
      (by decide +kernel : checkErrors letterGrammar twoWords = "")]
  · have hends : letterGrammar.WordsEnd (fun _ => 0) twoWords.maxDepth twoWords.amount 0 := by
      refine wordsEnd_of_forall fun n k hn => ⟨k, Nat.le_refl k, ?_⟩
      rw [pick_zero hn]
      exact Option.some_ne_none 0
    obtain ⟨words, t, hlength, -, hrun⟩ := ((hwords (.inr hderives)).2 _).mpr hends
    exact ⟨words, t, hlength, hrun⟩
  · rcases htrace rfl ['a'] with ⟨derived, chart, hderived, -, hout⟩ | ⟨e, he, -⟩
    · rw [(by decide +kernel : letterGrammar.isDerived ['a'] = .ok true)] at hderived
      cases hderived
      exact ⟨chart, hout⟩
    · rw [(by decide +kernel : letterGrammar.isDerived ['a'] = .ok true)] at he
      cases he
  · rw [(hfails (by decide) hno).2 draws]
    decide +kernel
  · refine (hfailed ⟨[], 0, 0⟩ ?_).mpr
      (.inr (.inr ⟨barrenGrammar, ⟨barrenGrammar, hbarren, nofun, rfl⟩, by decide, hno⟩))
    rintro g ⟨g₀, hread, -, rfl⟩
    cases hread.symm.trans hbarren
    unfold Options.Supplied
    decide +kernel

end Chomsky
