import Chomsky.CommandLine.Run
import Chomsky.Proofs.Tree.Success

/-!
# Generating several words

Words are generated one after another, each from the numbers that the ones before it have left. Whether a
word can be generated at all is a matter of the grammar and not of the numbers, so either the first one fails or
none does, unless a finite supply runs dry.

* `generateWords_of_barren`, **`generateWords_derived_or_dry`**: several words;
* `Grammar.WordsEnd`, **`exists_generateWords_window`**, `wordsEnd_of_generateWords`: several words from an
  endless source.
-/

namespace Chomsky

variable {g : Grammar} {σ : Nat → UInt32} {maxDepth n k : Nat} {d : Draws} {w : Word}

theorem GrowthError.newline_not_mem_message {c : Char} (hc : c ≠ '\n') :
    '\n' ∉ (undefinedNonterminal c).message.toList ∧ '\n' ∉ (unproductive c).message.toList := by
  have hletter : ∀ before behind : String, '\n' ∉ before.toList → '\n' ∉ behind.toList →
      '\n' ∉ (before ++ c.toString ++ behind).toList := by
    intro before behind hbefore hbehind
    simp [hbefore, hbehind, hc.symm]
  exact ⟨hletter "No definition for nonterminal `" "`" (by decide +kernel) (by decide +kernel),
    hletter "Nonterminal `" "` never derives a word" (by decide +kernel) (by decide +kernel)⟩

namespace Grammar

/-! ## One word -/

/-- **The grammar derives no word.** -/
def Barren (g : Grammar) : Prop := ¬ ∃ w, g.Generates w ∧ ∀ a ∈ w, a ∈ g.terminals

theorem barren_iff (hg : g.WellFormed) :
    g.Barren ↔ ∀ start, g.start = some start → ¬ g.Productive start := by
  have hderives : ∀ start, g.start = some start →
      (g.Productive start ↔ ∃ w, g.Derives [start] w ∧ ∀ a ∈ w, a ∈ g.terminals) := fun start hs =>
    productive_iff_derives fun hc => hg.not_isNonterminal_of_isTerminal hc (hg.start start hs)
  constructor
  · intro hb start hs hc
    obtain ⟨w, hw, hletters⟩ := (hderives start hs).mp hc
    exact hb ⟨w, ⟨start, hs, hw⟩, hletters⟩
  · rintro hno ⟨w, ⟨start, hs, hw⟩, hletters⟩
    exact hno start hs ((hderives start hs).mpr ⟨w, hw, hletters⟩)

theorem exists_start_of_not_barren (hg : g.WellFormed) (hb : ¬ g.Barren) :
    ∃ start, g.start = some start ∧ g.Productive start := by
  rw [barren_iff hg] at hb
  push Not at hb
  exact hb

/-- Why a grammar that derives no word generates none. -/
def generationError (g : Grammar) : GrowthError :=
  match g.start with
  | none => .noStartSymbol
  | some start => g.whyBarren start

theorem newline_not_mem_generationError (hg : g.WellFormed) :
    '\n' ∉ g.generationError.message.toList := by
  rw [generationError]
  cases hs : g.start with
  | none =>
    show '\n' ∉ GrowthError.noStartSymbol.message.toList
    decide +kernel
  | some start =>
    have hstart : start ≠ '\n' := by
      rintro rfl
      have hupper := hg.upper _ (hg.start _ hs)
      rw [(by decide +kernel : isUpper '\n' = false)] at hupper
      cases hupper
    show '\n' ∉ (g.whyBarren start).message.toList
    obtain ⟨hundefined, hunproductive⟩ := GrowthError.newline_not_mem_message hstart
    rw [whyBarren]
    split
    · exact hundefined
    · exact hunproductive

theorem run_randomWord_of_barren (hg : g.WellFormed) (hb : g.Barren) (d : Draws) :
    (g.randomWord maxDepth).run.run d = (.error g.generationError, d) := by
  rw [generationError]
  cases hs : g.start with
  | none => exact run_randomWord_of_no_start hs d
  | some start =>
    rw [randomWord_of_start hs]
    exact run_randomWordFrom_of_not_productive hg ((barren_iff hg).mp hb start hs) d

theorem run_randomWord_of_not_barren (hg : g.WellFormed) (hb : ¬ g.Barren) (d : Draws) :
    (∃ w d', (g.randomWord maxDepth).run.run d = (.ok w, d')) ∨
      ∃ d', (g.randomWord maxDepth).run.run d = (.error .outOfDraws, d') := by
  obtain ⟨start, hs, hc⟩ := exists_start_of_not_barren hg hb
  rw [randomWord_of_start hs]
  rcases run_randomWordFrom_of_productive hg hc d with h | ⟨d', h, -⟩
  · exact .inl h
  · exact .inr ⟨d', h⟩

theorem isDerived_of_run_randomWord (hg : g.WellFormed)
    (h : ((g.randomWord maxDepth).run.run d).1 = .ok w) : g.isDerived w = .ok true := by
  cases hs : g.start with
  | none =>
    rw [run_randomWord_of_no_start hs] at h
    cases h
  | some start =>
    rw [randomWord_of_start hs] at h
    exact (isDerived_eq_ok_true_iff_tree hg hs).mpr (exists_tree_of_randomWordFrom h)

theorem local_randomWord : (g.randomWord maxDepth).Local := by
  rw [randomWord]
  cases g.start with
  | none => exact Growth.local_throw _
  | some start => exact local_randomWordFrom

end Grammar

/-! ## Several words -/

theorem generateWords_succ_of_ok {d' : Draws} (h : (g.randomWord maxDepth).run.run d = (.ok w, d')) :
    generateWords g maxDepth (n + 1) d =
      (w :: (generateWords g maxDepth n d').1, (generateWords g maxDepth n d').2) := by
  rw [generateWords, h]

theorem generateWords_succ_of_error {e : GrowthError} {d' : Draws}
    (h : (g.randomWord maxDepth).run.run d = (.error e, d')) :
    generateWords g maxDepth (n + 1) d = ([], some e) := by
  rw [generateWords, h]

theorem generateWords_of_barren (hg : g.WellFormed) (hb : g.Barren) (hn : 0 < n) (d : Draws) :
    generateWords g maxDepth n d = ([], some g.generationError) := by
  cases n with
  | zero => exact absurd hn (Nat.lt_irrefl 0)
  | succ n => exact generateWords_succ_of_error (Grammar.run_randomWord_of_barren hg hb d)

/-- **Any other grammar gives as many words as it is asked for**, all of which it derives, unless the supply
runs dry. -/
theorem generateWords_derived_or_dry (hg : g.WellFormed) (hb : ¬ g.Barren) (maxDepth n : Nat) (d : Draws) :
    (∃ words, generateWords g maxDepth n d = (words, none) ∧ words.length = n ∧
      ∀ w ∈ words, g.isDerived w = .ok true) ∨
      (generateWords g maxDepth n d).2 = some .outOfDraws := by
  induction n generalizing d with
  | zero => exact .inl ⟨[], rfl, rfl, nofun⟩
  | succ n ih =>
    rcases Grammar.run_randomWord_of_not_barren hg hb d with ⟨w, d', hrun⟩ | ⟨d', hrun⟩
    · rw [generateWords_succ_of_ok hrun]
      rcases ih d' with ⟨words, hwords, hlength, hderived⟩ | hdry
      · have hw : g.isDerived w = .ok true :=
          Grammar.isDerived_of_run_randomWord hg (congrArg Prod.fst hrun)
        refine .inl ⟨w :: words, by rw [hwords], congrArg (· + 1) hlength, ?_⟩
        exact List.forall_mem_cons.mpr ⟨hw, hderived⟩
      · exact .inr hdry
    · rw [generateWords_succ_of_error hrun]
      exact .inr rfl

/-! ## Several words from an endless source -/

/-- **Each choice in the growth of `n` words ends**, the first word growing from place `k` of the source and
every other one from where the numbers of the one before it end. -/
def Grammar.WordsEnd (g : Grammar) (σ : Nat → UInt32) (maxDepth : Nat) : (n k : Nat) → Prop
  | 0, _ => True
  | n + 1, k =>
    (∀ start, g.start = some start →
      g.ChoicesEnd σ (maxDepth + g.nonterminals.length) maxDepth start k) ∧
    ∀ w k₁, (g.randomWord maxDepth).Returns σ k w k₁ → WordsEnd g σ maxDepth n k₁

/-- Any number of words ends on a source that, from any place on, decides a choice of any size. -/
theorem wordsEnd_of_forall (h : ∀ n k, 0 < n → ∃ j, k ≤ j ∧ pick n (σ j) ≠ none) :
    g.WordsEnd σ maxDepth n k := by
  induction n generalizing k with
  | zero => exact trivial
  | succ n ih => exact ⟨fun _ _ => choicesEnd_of_forall h, fun _ _ _ => ih⟩

/-- **From an endless source the words are generated if each choice ends.** A finite piece of the source that is
long enough decides them. -/
theorem exists_generateWords_window (hg : g.WellFormed) (hb : ¬ g.Barren)
    (hends : g.WordsEnd σ maxDepth n k) :
    ∃ words t, ∀ m, generateWords g maxDepth n (.window σ k (t + m)) = (words, none) := by
  induction n generalizing k with
  | zero => exact ⟨[], 0, fun _ => rfl⟩
  | succ n ih =>
    obtain ⟨hfirst, hrest⟩ := hends
    obtain ⟨start, hs, hc⟩ := Grammar.exists_start_of_not_barren hg hb
    obtain ⟨w, k₁, hw⟩ := (Grammar.exists_returns_randomWordFrom_iff hg hc).mpr (hfirst start hs)
    rw [← Grammar.randomWord_of_start hs] at hw
    obtain ⟨words, u, hwords⟩ := ih (hrest w k₁ hw)
    obtain ⟨t, rfl, hrun⟩ := hw
    refine ⟨w :: words, t + u, fun m => ?_⟩
    rw [Nat.add_assoc, generateWords_succ_of_ok (hrun (u + m)), hwords]

theorem wordsEnd_of_generateWords (hg : g.WellFormed) (hb : ¬ g.Barren) {m : Nat}
    (h : (generateWords g maxDepth n (.window σ k m)).2 = none) : g.WordsEnd σ maxDepth n k := by
  induction n generalizing k m with
  | zero => exact trivial
  | succ n ih =>
    rcases hrun : (g.randomWord maxDepth).run.run (.window σ k m) with ⟨e | w, d⟩
    · rw [generateWords_succ_of_error hrun] at h
      cases h
    · rw [generateWords_succ_of_ok hrun] at h
      obtain ⟨t, -, rfl, hw⟩ := Grammar.local_randomWord _ _ _ _ _ hrun
      refine ⟨fun start hs => ?_, fun w' k₁ hw' => ?_⟩
      · obtain ⟨start', hs', hc⟩ := Grammar.exists_start_of_not_barren hg hb
        obtain rfl := Option.some.inj (hs'.symm.trans hs)
        rw [Grammar.randomWord_of_start hs] at hw
        exact (Grammar.exists_returns_randomWordFrom_iff hg hc).mp ⟨w, _, hw⟩
      · obtain ⟨-, rfl⟩ := hw.unique hw'
        exact ih h

end Chomsky
