import Chomsky.Proofs.Chart.Exactness
import Chomsky.Proofs.Grammar.Reachable

/-!
# Recognition

What the chart of a word says about the word, and what is said about a word that has no chart.

* **`isDerived_refuses_or_decides`**: the answer to the question whether a word is derived.
-/

namespace Chomsky

namespace Grammar

variable {g : Grammar} {w : Word} {start c : Char}

/-! ## The four cases of a word -/

theorem wordChart_nil : g.wordChart [] = .error .emptyWord := by rw [wordChart, if_pos rfl]

theorem wordChart_of_no_start (hw : w ≠ []) (hs : g.start = none) :
    g.wordChart w = .error .incompleteGrammar := by rw [wordChart, if_neg hw, hs]

theorem WellFormed.nonterminals_ne_nil (hg : g.WellFormed) (hs : g.start = some start) :
    g.nonterminals ≠ [] := List.ne_nil_of_mem (hg.start _ hs)

theorem wordChart_of_unknown (hg : g.WellFormed) (hw : w ≠ []) (hs : g.start = some start)
    (hc : FirstWithout (· ∈ g.terminals) w c) : g.wordChart w = .error (.unknownTerminal c) := by
  simp only [wordChart, if_neg hw, hs, if_neg (hg.nonterminals_ne_nil hs)]
  rw [(find?_eq_some_iff_firstWithout fun _ => isTerminal_iff).mpr hc]

theorem wordChart_of_terminals (hg : g.WellFormed) (hw : w ≠ []) (hs : g.start = some start)
    (ht : ∀ c ∈ w, c ∈ g.terminals) :
    g.wordChart w = .ok (.ofBase g (w.map g.letterCell), start) := by
  simp only [wordChart, if_neg hw, hs, if_neg (hg.nonterminals_ne_nil hs)]
  rw [(find?_eq_none_iff_forall fun _ => isTerminal_iff).mpr ht]

theorem wordChart_eq_error_iff (hg : g.WellFormed) {e : ChartError} : g.wordChart w = .error e ↔
    (e = .emptyWord ∧ w = []) ∨ (e = .incompleteGrammar ∧ w ≠ [] ∧ g.start = none) ∨
      ∃ c, e = .unknownTerminal c ∧ w ≠ [] ∧ g.start ≠ none ∧
        FirstWithout (· ∈ g.terminals) w c := by
  constructor
  · intro h
    by_cases hw : w = []
    · rw [hw, wordChart_nil] at h
      exact .inl ⟨(Except.error.inj h).symm, hw⟩
    cases hs : g.start with
    | none =>
      rw [wordChart_of_no_start hw hs] at h
      exact .inr (.inl ⟨(Except.error.inj h).symm, hw, rfl⟩)
    | some start =>
      simp only [wordChart, if_neg hw, hs, if_neg (hg.nonterminals_ne_nil hs)] at h
      cases hc : w.find? (!g.isTerminal ·) with
      | none =>
        rw [hc] at h
        cases h
      | some c =>
        rw [hc] at h
        exact .inr (.inr ⟨c, (Except.error.inj h).symm, hw, Option.some_ne_none _,
          (find?_eq_some_iff_firstWithout fun _ => isTerminal_iff).mp hc⟩)
  · rintro (⟨rfl, rfl⟩ | ⟨rfl, hw, hs⟩ | ⟨c, rfl, hw, hs, hc⟩)
    · exact wordChart_nil
    · exact wordChart_of_no_start hw hs
    · obtain ⟨start, hs⟩ := Option.ne_none_iff_exists'.mp hs
      exact wordChart_of_unknown hg hw hs hc

theorem wordChart_eq_ok_iff (hg : g.WellFormed) {chart : Chart} :
    g.wordChart w = .ok (chart, start) ↔ g.start = some start ∧ w ≠ [] ∧
      (∀ c ∈ w, c ∈ g.terminals) ∧ chart = .ofBase g (w.map g.letterCell) := by
  constructor
  · intro h
    have hne : ∀ e, g.wordChart w ≠ .error e := by
      intro e he
      rw [h] at he
      cases he
    have hw : w ≠ [] := fun hw => hne _ (hw ▸ wordChart_nil)
    obtain ⟨start', hs⟩ := Option.ne_none_iff_exists'.mp fun hs => hne _ (wordChart_of_no_start hw hs)
    have ht : ∀ c ∈ w, c ∈ g.terminals := by
      refine (find?_eq_none_iff_forall fun _ => isTerminal_iff).mp ?_
      refine Option.eq_none_iff_forall_ne_some.mpr fun c hc => ?_
      have hfirst := (find?_eq_some_iff_firstWithout fun _ => isTerminal_iff).mp hc
      exact hne _ (wordChart_of_unknown hg hw hs hfirst)
    rw [wordChart_of_terminals hg hw hs ht] at h
    cases h
    exact ⟨hs, hw, ht, rfl⟩
  · rintro ⟨hs, hw, ht, rfl⟩
    exact wordChart_of_terminals hg hw hs ht

/-! ## The answer -/

/-- **The chart of a word accepts the nonterminals that derive it.** -/
theorem accepts_wordChart_iff (hg : g.WellFormed) (hw : w ≠ []) (ht : ∀ c ∈ w, c ∈ g.terminals) :
    (Chart.ofBase g (w.map g.letterCell)).accepts c = true ↔
      c ∈ g.nonterminals ∧ g.Derives [c] w := by
  rw [Chart.accepts_ofBase_iff hg (fun a _ => marks_letterCell hg a) hw, hg.derives_iff_covers]
  exact and_congr_right fun hc => (hg.covers_leads_iff_writes hc ht).symm

theorem isDerived_of_terminals (hg : g.WellFormed) (hw : w ≠ []) (hs : g.start = some start)
    (ht : ∀ c ∈ w, c ∈ g.terminals) :
    ∃ b, g.isDerived w = .ok b ∧ (b = true ↔ g.Derives [start] w) := by
  refine ⟨_, by rw [isDerived, wordChart_of_terminals hg hw hs ht]; rfl, ?_⟩
  rw [accepts_wordChart_iff hg hw ht]
  exact and_iff_right (hg.start _ hs)

theorem isDerived_eq_error_iff {e : ChartError} :
    g.isDerived w = .error e ↔ g.wordChart w = .error e := by
  rw [isDerived]
  cases g.wordChart w <;> simp [Except.map]

theorem isDerived_eq_ok_iff {b : Bool} : g.isDerived w = .ok b ↔
    ∃ chart start, g.wordChart w = .ok (chart, start) ∧ chart.accepts start = b := by
  rw [isDerived]
  rcases g.wordChart w with e | ⟨chart, start⟩ <;> simp [Except.map]

/-- **Whether a word is derived**: the first fault of the word or of the grammar, and otherwise the
truth, which is found without reading outside the table. -/
theorem isDerived_refuses_or_decides (hg : g.Reachable) (w : Word) :
    (g.isDerived w = .error .emptyWord ↔ w = []) ∧
    (g.isDerived w = .error .incompleteGrammar ↔ w ≠ [] ∧ g.start = none) ∧
    (∀ c, g.isDerived w = .error (.unknownTerminal c) ↔
      w ≠ [] ∧ g.start ≠ none ∧ FirstWithout (· ∈ g.terminals) w c) ∧
    ∀ start, w ≠ [] → g.start = some start → (∀ c ∈ w, c ∈ g.terminals) →
      ReadsInside g.binaryRules w.length (w.map g.letterCell).toArray ∧
        ∃ b, g.isDerived w = .ok b ∧ (b = true ↔ g.Derives [start] w) := by
  have hwf := hg.wellFormed
  simp only [isDerived_eq_error_iff, wordChart_eq_error_iff hwf]
  refine ⟨by simp, by simp, fun c => by simp, fun start hw hs ht => ⟨?_, ?_⟩⟩
  · have h := readsInside g.binaryRules (w.map g.letterCell).toArray
    rwa [List.size_toArray, List.length_map] at h
  · exact isDerived_of_terminals hwf hw hs ht

theorem textbook_derives_baaba : textbook.Reachable ∧
    textbook.Derives ['S'] ['b', 'a', 'a', 'b', 'a'] := by
  refine ⟨reachable_textbook, ?_⟩
  have hanswer : textbook.isDerived ['b', 'a', 'a', 'b', 'a'] = .ok true := by decide +kernel
  have hletters : ['b', 'a', 'a', 'b', 'a'].all (· ∈ textbook.terminals) = true := by decide +kernel
  obtain ⟨-, b, hb, hiff⟩ := (isDerived_refuses_or_decides reachable_textbook ['b', 'a', 'a', 'b', 'a']).2.2.2
    'S' (by decide) rfl fun c hc => of_decide_eq_true (List.all_eq_true.mp hletters c hc)
  rw [hanswer] at hb
  exact hiff.mp (Except.ok.inj hb).symm

end Grammar

end Chomsky
