import Chomsky.Proofs.Chart.Decoding
import Chomsky.Proofs.Chart.Recognition

/-!
# Charts of sentential forms

A chart over nonterminals knows the binary productions only, yet it loses no derivation: a step that
writes a letter cannot be undone, so it never leads to a string of nonterminals.

* **`mem_symbols_formChart`**: a cell holds the nonterminals that derive its piece of the form;
* **`formChartText_shows_derives`**: the rendered chart.
-/

namespace Chomsky.Grammar

variable {g : Grammar} {form : Word} {c : Char}

theorem formChart_eq_error_iff {e : ChartError} : g.formChart form = .error e ↔
    ∃ c, e = .unknownNonterminal c ∧ FirstWithout (· ∈ g.nonterminals) form c := by
  simp only [← find?_eq_some_iff_firstWithout fun _ => isNonterminal_iff, formChart]
  cases form.find? (!g.isNonterminal ·) with
  | none => simp
  | some c =>
    constructor
    · intro h
      exact ⟨c, (Except.error.inj h).symm, rfl⟩
    · rintro ⟨d, rfl, h⟩
      rw [Option.some.inj h]

theorem formChart_of_nonterminals (hf : ∀ c ∈ form, c ∈ g.nonterminals) :
    g.formChart form = .ok (.ofBase g (form.map g.symbolCell)) := by
  rw [formChart, (find?_eq_none_iff_forall fun _ => isNonterminal_iff).mpr hf]

/-- **A cell holds the nonterminals that derive its piece of the form**, by any derivation. -/
theorem mem_symbols_formChart (hg : g.WellFormed) (hf : ∀ c ∈ form, c ∈ g.nonterminals) {i j : Nat}
    (hij : i ≤ j) (hj : j < form.length) :
    c ∈ (Chart.ofBase g (form.map g.symbolCell)).symbols i j ↔
      g.Derives [c] ((⟨i, j⟩ : Span).slice form) := by
  have hpiece : ∀ a ∈ (⟨i, j⟩ : Span).slice form, a ∈ g.nonterminals :=
    fun a ha => hf a (Span.slice_subset ha)
  have hbase : ∀ a ∈ form, (g.symbolCell a).Marks g (· = a) := fun a _ => marks_symbolCell a
  rw [Chart.mem_symbols_ofBase hg hbase hij hj, hg.derives_iff_covers,
    hg.covers_leads_iff_eq hpiece, and_iff_right_iff_imp]
  exact hg.mem_of_covers fun a ha _ hc => hc ▸ hpiece a ha

theorem formChartText_eq_error_iff {e : ChartError} :
    g.formChartText form = .error e ↔ g.formChart form = .error e := by
  rw [formChartText]
  cases g.formChart form <;> simp [Except.map]

/-- **The rendered chart of a sentential form.** A form is refused for the leftmost character that is no
nonterminal. Otherwise the text has a line for each place and in it a cell for each span, from which the table of
the chart is read back; and a cell names the nonterminals that derive its piece of the form, in the order of
declaration and each once. -/
theorem formChartText_shows_derives (hg : g.Reachable) (form : Word) :
    (∀ c, g.formChartText form = .error (.unknownNonterminal c) ↔
      FirstWithout (· ∈ g.nonterminals) form c) ∧
    ((∀ c ∈ form, c ∈ g.nonterminals) → ∃ chart text, g.formChart form = .ok chart ∧
      g.formChartText form = .ok text ∧ chart.length = form.length ∧
      ReadsInside g.binaryRules form.length (form.map g.symbolCell).toArray ∧
      text = String.join ((List.range form.length).map fun i =>
        String.join ((List.range' i (form.length - i)).map fun j =>
          s!"({i},{j}): {String.ofList (chart.symbols i j)} ") ++ "\n") ∧
      decode text = (List.range form.length).map (fun i =>
        (List.range' i (form.length - i)).map fun j => (⟨i, j⟩, chart.symbols i j)) ∧
      ∀ i j, i ≤ j → j < form.length →
        (chart.symbols i j).Sublist g.nonterminals ∧ (chart.symbols i j).Nodup ∧
        ∀ c, c ∈ chart.symbols i j ↔ g.Derives [c] ((⟨i, j⟩ : Span).slice form)) ∧
    g.formChartText [] = .ok "" := by
  have hwf := hg.wellFormed
  refine ⟨fun c => ?_, fun hf => ?_, ?_⟩
  · rw [formChartText_eq_error_iff, formChart_eq_error_iff]
    simp
  · have hchart := formChart_of_nonterminals hf
    have hlength : (Chart.ofBase g (form.map g.symbolCell)).length = form.length := List.length_map _
    refine ⟨_, (Chart.ofBase g (form.map g.symbolCell)).text, hchart, by rw [formChartText, hchart]; rfl,
      hlength, ?_, ?_, ?_, ?_⟩
    · have h := readsInside g.binaryRules (form.map g.symbolCell).toArray
      rwa [List.size_toArray, List.length_map] at h
    · rw [← hlength]
      rfl
    · rw [decode_text hwf.upper, Chart.table, hlength]
    · intro i j hij hj
      have hsub := (Chart.ofBase g (form.map g.symbolCell)).symbols_sublist i j
      exact ⟨hsub, hsub.nodup hwf.nodup, fun c => mem_symbols_formChart hwf hf hij hj⟩
  · rw [formChartText, formChart_of_nonterminals (by simp)]
    rfl

theorem textbook_formChartText_BC : textbook.Reachable ∧
    textbook.formChartText ['B', 'C'] = .ok "(0,0): B (0,1): S \n(1,1): C \n" ∧
    decode "(0,0): B (0,1): S \n(1,1): C \n" =
      [[(⟨0, 0⟩, ['B']), (⟨0, 1⟩, ['S'])], [(⟨1, 1⟩, ['C'])]] ∧
    textbook.Derives ['S'] ['B', 'C'] ∧ ¬ textbook.Derives ['A'] ['B', 'C'] ∧
    textbook.formChartText ['B', 'a'] = .error (.unknownNonterminal 'a') := by
  obtain ⟨-, hok, -⟩ := formChartText_shows_derives reachable_textbook ['B', 'C']
  obtain ⟨chart, text, hchart, hform, -, -, htext, hdecode, hcells⟩ := hok <|
    List.forall_mem_cons.mpr ⟨by decide, List.forall_mem_singleton.mpr (by decide)⟩
  have hsymbols : chart.symbols 0 0 = ['B'] ∧ chart.symbols 0 1 = ['S'] ∧ chart.symbols 1 1 = ['C'] := by
    have h : (textbook.formChart ['B', 'C']).map
        (fun chart => (chart.symbols 0 0, chart.symbols 0 1, chart.symbols 1 1)) =
          .ok (['B'], ['S'], ['C']) := by decide +kernel
    rw [hchart] at h
    simpa using Except.ok.inj h
  obtain ⟨h00, h01, h11⟩ := hsymbols
  have htext : text = "(0,0): B (0,1): S \n(1,1): C \n" := by
    simp [htext, List.range_succ, List.range', h00, h01, h11]
    rfl
  have hiff := fun c => ((hcells 0 1 (by decide) (by decide)).2.2 c).symm
  simp only [h01] at hiff
  refine ⟨reachable_textbook, htext ▸ hform, ?_, (hiff 'S').mpr (by decide),
    fun h => absurd ((hiff 'A').mp h) (by decide), ?_⟩
  · rw [← htext, hdecode]
    simp [List.range_succ, List.range', h00, h01, h11]
  · exact ((formChartText_shows_derives reachable_textbook ['B', 'a']).1 'a').mpr
      ⟨['B'], [], rfl, List.forall_mem_singleton.mpr (by decide), by decide⟩

end Chomsky.Grammar
