import Chomsky.Proofs.Chart.Reordering
import Chomsky.Proofs.Tree.Endless
import Chomsky.Proofs.Tree.Scan

/-!
# The order of declaration means nothing

Growth reads the table of least heights entry by entry, and the alternatives of a head in an order of their own. So
two grammars that differ only in the order of declaration grow the same trees from the same numbers, although
their tables list the entries in other orders and scanning goes through other tables on its way.

* **`reordered_answers_agree`**: whatever is asked of the two, the answers are the same.
-/

namespace Chomsky

variable {g g' : Grammar} {heights heights' : Heights} {c : Char} {limit room : Nat}

/-! ## What growth reads -/

namespace Grammar

section Congr

variable (halts : ∀ c, g.alternatives c = g'.alternatives c) (hget : ∀ c, heights.get? c = heights'.get? c)

include halts hget

theorem candidates_congr : g.candidates heights room c = g'.candidates heights' room c := by
  have hheight : ∀ a : Alternative, a.height? heights = a.height? heights' := by
    intro a
    cases a with
    | unary a => rfl
    | binary l r => rw [Alternative.height?, Alternative.height?, hget l, hget r]
  have hcandidate : ∀ least, (Alternative.isCandidate heights room least) =
      Alternative.isCandidate heights' room least := by
    intro least
    funext a
    rw [Alternative.isCandidate, Alternative.isCandidate, hheight]
  rw [candidates, candidates, hget, whyBarren, whyBarren, halts]
  simp only [hcandidate]

theorem grow_congr : g.grow heights limit room c = g'.grow heights' limit room c := by
  induction limit generalizing room c with
  | zero => rw [grow, grow, whyBarren, whyBarren, halts]
  | succ limit ih =>
    rw [grow, grow, alternativeAt, alternativeAt, candidates_congr halts hget]
    simp only [ih]

end Congr

end Grammar

/-! ## Trees and heights of both grammars -/

namespace Grammar.Reordered

theorem fits_iff (h : g.Reordered g') : ∀ {t : Tree}, t.Fits g ↔ t.Fits g'
  | .leaf _ _ => h.mem_productions_iff
  | .branch _ _ _ => and_congr h.mem_productions_iff (and_congr h.fits_iff h.fits_iff)

theorem leastHeight_iff (h : g.Reordered g') {n : Nat} : g.LeastHeight c n ↔ g'.LeastHeight c n := by
  simp only [LeastHeight, h.fits_iff]

theorem get?_leastHeights (hg : g.WellFormed) (hg' : g'.WellFormed) (h : g.Reordered g') (c : Char) :
    g.leastHeights.get? c = g'.leastHeights.get? c := by
  refine Option.ext fun n => ?_
  rw [get?_leastHeights_eq_some_iff hg, get?_leastHeights_eq_some_iff hg', h.leastHeight_iff]

theorem randomWordFrom_eq (hg : g.WellFormed) (hg' : g'.WellFormed) (h : g.Reordered g') (maxDepth : Nat)
    (c : Char) : g.randomWordFrom maxDepth c = g'.randomWordFrom maxDepth c := by
  rw [randomWordFrom, randomWordFrom, growTree, growTree, h.nonterminals.length_eq,
    grow_congr h.alternatives_eq (h.get?_leastHeights hg hg')]

theorem randomWord_eq (hg : g.WellFormed) (hg' : g'.WellFormed) (h : g.Reordered g') (maxDepth : Nat) :
    g.randomWord maxDepth = g'.randomWord maxDepth := by
  rw [randomWord, randomWord, h.start]
  cases g'.start with
  | none => rfl
  | some start => exact h.randomWordFrom_eq hg hg' maxDepth start

end Grammar.Reordered

/-- **The order of declaration means nothing.** For every word and every form both grammars answer with the
same error or with charts that stand for the same nonterminals. From any supply of numbers they grow the same
word or fail alike, and leave the same numbers. Their tables of heights say the same, however the scans went
that found them, and growth from these tables is the growth of both. -/
theorem Grammar.reordered_answers_agree (hg : g.Reachable) (hg' : g'.Reachable) (h : g.Reordered g') :
    (∀ w, g.isDerived w = g'.isDerived w) ∧
    (∀ w, (∃ e, g.wordChart w = .error e ∧ g'.wordChart w = .error e) ∨
      ∃ chart chart' start, g.wordChart w = .ok (chart, start) ∧ g'.wordChart w = .ok (chart', start) ∧
        Chart.Agrees g g' chart chart' ∧ (∀ i j c, c ∈ chart.symbols i j ↔ c ∈ chart'.symbols i j) ∧
        ∀ c, chart.accepts c = chart'.accepts c) ∧
    (∀ form, (∃ e, g.formChartText form = .error e ∧ g'.formChartText form = .error e) ∨
      ∃ chart chart', g.formChartText form = .ok chart.text ∧ g'.formChartText form = .ok chart'.text ∧
        g.formChart form = .ok chart ∧ g'.formChart form = .ok chart' ∧
        Chart.Agrees g g' chart chart' ∧ ∀ i j c, c ∈ chart.symbols i j ↔ c ∈ chart'.symbols i j) ∧
    (∀ maxDepth c d,
      (g.randomWordFrom maxDepth c).run.run d = (g'.randomWordFrom maxDepth c).run.run d ∧
      (g.randomWord maxDepth).run.run d = (g'.randomWord maxDepth).run.run d) ∧
    ∃ table table', g.Settles [] table ∧ g'.Settles [] table' ∧ (∀ c, table.get? c = table'.get? c) ∧
      ∀ maxDepth c, g.growTree maxDepth c = g.grow table (maxDepth + g.nonterminals.length) maxDepth c ∧
        g.growTree maxDepth c = g'.grow table' (maxDepth + g'.nonterminals.length) maxDepth c := by
  have hwf := hg.wellFormed
  have hwf' := hg'.wellFormed
  refine ⟨h.isDerived_eq hwf hwf', fun w => ?_, fun form => ?_, fun maxDepth c d => ⟨?_, ?_⟩, ?_⟩
  · rcases h.wordChart_agrees hwf hwf' w with herror | ⟨chart, chart', start, hw, hw', hagrees⟩
    · exact .inl herror
    · exact .inr ⟨chart, chart', start, hw, hw', hagrees,
        fun i j c => hagrees.mem_symbols_iff h.nonterminals, hagrees.accepts_eq h.nonterminals⟩
  · rcases h.formChart_agrees hwf hwf' form with ⟨e, hf, hf'⟩ | ⟨chart, chart', hf, hf', hagrees⟩
    · exact .inl ⟨e, formChartText_eq_error_iff.mpr hf, formChartText_eq_error_iff.mpr hf'⟩
    · refine .inr ⟨chart, chart', ?_, ?_, hf, hf', hagrees, fun i j c => hagrees.mem_symbols_iff h.nonterminals⟩
      · rw [formChartText, hf]
        rfl
      · rw [formChartText, hf']
        rfl
  · rw [h.randomWordFrom_eq hwf hwf']
  · rw [h.randomWord_eq hwf hwf']
  · obtain ⟨table, ht⟩ := exists_settles hwf
    obtain ⟨table', ht'⟩ := exists_settles hwf'
    have hget := ht.get?_eq hwf
    have hget' : ∀ c, g.leastHeights.get? c = table'.get? c := fun c =>
      (h.get?_leastHeights hwf hwf' c).trans (ht'.get?_eq hwf' c).symm
    refine ⟨table, table', ht, ht', fun c => (hget c).trans (hget' c), fun maxDepth c => ⟨?_, ?_⟩⟩
    · exact grow_congr (fun _ => rfl) fun c => (hget c).symm
    · rw [growTree, h.nonterminals.length_eq]
      exact grow_congr h.alternatives_eq hget'

namespace Grammar

/-- The textbook grammar, declared from the back and written in another order. -/
def textbookBackwards : Grammar := (∅ : Grammar).after
  [.declareTerminal 'b', .declareTerminal 'a', .declareNonterminal 'C', .declareNonterminal 'B',
    .declareNonterminal 'A', .declareNonterminal 'S', .addWritten 'C' "a", .addWritten 'C' "AB",
    .addWritten 'B' "b", .addWritten 'B' "CC", .addWritten 'A' "a", .addWritten 'A' "BA",
    .addWritten 'S' "BC", .addWritten 'S' "AB", .setStart 'S']

theorem textbook_answers_backwards : textbook.Reachable ∧ textbookBackwards.Reachable ∧
    textbook.Reordered textbookBackwards ∧ textbook ≠ textbookBackwards ∧
    textbookBackwards.isDerived ['b', 'a', 'a', 'b', 'a'] = .ok true ∧
    ∀ maxDepth d, (textbook.randomWord maxDepth).run.run d =
      (textbookBackwards.randomWord maxDepth).run.run d := by
  have hg' : textbookBackwards.Reachable := Reachable.empty.after _
  have h : textbook.Reordered textbookBackwards := by
    refine ⟨by decide +kernel, fun c => ?_, by decide +kernel, fun head a => ?_⟩
    · exact iff_of_eq (congrArg (c ∈ ·) (by decide +kernel))
    · rw [mem_alternatives, mem_alternatives]
      exact iff_of_eq (congrArg (_ ∈ ·) (by decide +kernel))
  obtain ⟨hderived, -, -, hgrown, -⟩ := reordered_answers_agree reachable_textbook hg' h
  refine ⟨reachable_textbook, hg', h, by decide +kernel, ?_, fun maxDepth d => (hgrown maxDepth 'S' d).2⟩
  rw [← hderived]
  decide +kernel

end Grammar

end Chomsky
