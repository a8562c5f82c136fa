import Chomsky.Proofs.Chart.Cells
import Chomsky.Proofs.Chart.Form

/-!
# What a rendered chart tells

* `Grammar.Renders`, **`Renders.text_eq_text_iff`**: the two ways to render a chart over a grammar;
* **`decode_rendered`**.
-/

namespace Chomsky

variable {g : Grammar}

theorem mem_cell_iff {chart : Chart} {i j : Nat} {cell : Cell} {P : Char → Prop}
    (hn : chart.nonterminals = g.nonterminals) (hcell : chart.cell i j = some cell)
    (hmarks : cell.Marks g P) {p : Nat} :
    p ∈ cell ↔ ∃ c, g.position? c = some p ∧ c ∈ chart.symbols i j := by
  rw [hmarks p]
  refine exists_congr fun c => and_congr_right fun hc => ?_
  rw [Chart.mem_symbols_of_marks hn hcell hmarks]
  exact (and_iff_right (Grammar.mem_of_position? hc)).symm

/-! ## Renderings over a grammar -/

/-- **The renderings over a grammar**, each with its chart. -/
inductive Grammar.Renders (g : Grammar) : Chart → String → Prop where
  /-- The chart of a word. -/
  | word {w : Word} {chart : Chart} {start : Char} {text : String}
    (hchart : g.wordChart w = .ok (chart, start)) (htext : g.wordChartText w = .ok text) :
    g.Renders chart text
  /-- The chart of a sentential form. -/
  | form {form : Word} {chart : Chart} {text : String} (hchart : g.formChart form = .ok chart)
    (htext : g.formChartText form = .ok text) : g.Renders chart text

namespace Grammar.Renders

variable {chart chart' : Chart} {text text' : String} {i j : Nat}

theorem text_eq (h : g.Renders chart text) : chart.text = text := by
  cases h with
  | word hchart htext =>
    rw [wordChartText, hchart] at htext
    exact Except.ok.inj htext
  | form hchart htext =>
    rw [formChartText, hchart] at htext
    exact Except.ok.inj htext

theorem exists_base (hg : g.WellFormed) (h : g.Renders chart text) :
    ∃ (w : Word) (base : Char → Cell) (leaf : Char → Char → Prop),
      (∀ a ∈ w, (base a).Marks g (leaf · a)) ∧ chart = .ofBase g (w.map base) := by
  cases h with
  | @word w _ _ _ hchart _ =>
    obtain ⟨-, -, -, rfl⟩ := (wordChart_eq_ok_iff hg).mp hchart
    exact ⟨w, g.letterCell, _, fun a _ => marks_letterCell hg a, rfl⟩
  | @form form _ _ hchart _ =>
    have hf : ∀ c ∈ form, c ∈ g.nonterminals := by
      refine (find?_eq_none_iff_forall fun _ => isNonterminal_iff).mp ?_
      rw [formChart] at hchart
      cases hfind : form.find? (!g.isNonterminal ·) with
      | none => rfl
      | some c =>
        rw [hfind] at hchart
        cases hchart
    rw [formChart_of_nonterminals hf] at hchart
    exact ⟨form, g.symbolCell, _, fun a _ => marks_symbolCell a, (Except.ok.inj hchart).symm⟩

variable (hg : g.WellFormed)

include hg

theorem nonterminals_eq (h : g.Renders chart text) : chart.nonterminals = g.nonterminals := by
  obtain ⟨w, base, leaf, -, rfl⟩ := h.exists_base hg
  rfl

theorem isUpper_of_mem (h : g.Renders chart text) : ∀ c ∈ chart.nonterminals, isUpper c = true := by
  rw [h.nonterminals_eq hg]
  exact hg.upper

theorem exists_cell (h : g.Renders chart text) (hij : i ≤ j) (hj : j < chart.length) :
    ∃ cell, chart.cell i j = some cell ∧
      ∀ p, p ∈ cell ↔ ∃ c, g.position? c = some p ∧ c ∈ chart.symbols i j := by
  obtain ⟨w, base, leaf, hbase, rfl⟩ := h.exists_base hg
  have hj : j < w.length := by simpa [Chart.ofBase] using hj
  obtain ⟨cell, hcell, hmarks⟩ := Chart.exists_cell_ofBase hg hbase hij hj
  exact ⟨cell, hcell, fun p => mem_cell_iff rfl hcell hmarks⟩

theorem cells_eq_iff (h : g.Renders chart text) (h' : g.Renders chart' text')
    (hlength : chart.length = chart'.length) : (∀ i j, chart.cell i j = chart'.cell i j) ↔
      ∀ i j, i ≤ j → j < chart.length → chart.symbols i j = chart'.symbols i j := by
  constructor
  · intro hcells i j _ _
    rw [Chart.symbols, Chart.symbols, hcells, h.nonterminals_eq hg, h'.nonterminals_eq hg]
  · intro hsymbols i j
    by_cases hs : (⟨i, j⟩ : Span).Within chart.length
    · obtain ⟨cell, hcell, hmem⟩ := h.exists_cell hg hs.1 hs.2
      obtain ⟨cell', hcell', hmem'⟩ := h'.exists_cell hg hs.1 (hlength ▸ hs.2)
      rw [hcell, hcell']
      refine congrArg some (OrderedSet.ext fun p => ?_)
      rw [hmem, hmem', hsymbols i j hs.1 hs.2]
    · rw [Chart.cell, Chart.cell, if_neg hs, if_neg (hlength ▸ hs)]

theorem text_eq_text_iff (h : g.Renders chart text) (h' : g.Renders chart' text') :
    text = text' ↔ chart.length = chart'.length ∧ ∀ i j, chart.cell i j = chart'.cell i j := by
  rw [← h.text_eq, ← h'.text_eq, text_eq_iff (h.isUpper_of_mem hg) (h'.isUpper_of_mem hg), table_eq_iff]
  exact and_congr_right fun hlength => (h.cells_eq_iff hg h' hlength).symm

end Grammar.Renders

namespace Grammar

variable {w : Word}

theorem wordChartText_eq_error_iff {e : ChartError} :
    g.wordChartText w = .error e ↔ g.isDerived w = .error e := by
  rw [isDerived_eq_error_iff, wordChartText]
  cases g.wordChart w <;> simp [Except.map]

theorem exists_wordChartText_iff : (∃ text, g.wordChartText w = .ok text) ↔ ∃ b, g.isDerived w = .ok b := by
  rw [wordChartText, isDerived]
  cases g.wordChart w <;> simp [Except.map]

theorem exists_lastCell (hg : g.WellFormed) {text : String} (h : g.wordChartText w = .ok text) :
    ∃ start row symbols, g.start = some start ∧ (decode text).head? = some row ∧
      row.getLast? = some (⟨0, w.length - 1⟩, symbols) ∧
      (start ∈ symbols ↔ g.isDerived w = .ok true) := by
  cases hchart : g.wordChart w with
  | error e =>
    rw [wordChartText, hchart] at h
    cases h
  | ok p =>
    obtain ⟨chart, start⟩ := p
    have hrendered : g.Renders chart text := .word hchart h
    obtain ⟨hs, hw, hlength⟩ : g.start = some start ∧ 0 < w.length ∧ chart.length = w.length := by
      obtain ⟨hs, hw, -, rfl⟩ := (wordChart_eq_ok_iff hg).mp hchart
      exact ⟨hs, List.length_pos_iff.mpr hw, List.length_map _⟩
    rw [← hrendered.text_eq, decode_text (hrendered.isUpper_of_mem hg), Chart.table, hlength]
    refine ⟨start, (List.range' 0 w.length).map fun j => (⟨0, j⟩, chart.symbols 0 j),
      chart.symbols 0 (w.length - 1), hs, ?_, ?_, ?_⟩
    · rw [List.head?_map, List.head?_range, if_neg (by omega)]
      rfl
    · rw [List.getLast?_map, List.getLast?_range', if_neg (by omega), Nat.zero_add]
      rfl
    · rw [isDerived, hchart]
      simp [Except.map, Chart.accepts, hlength, hw]

/-- **A rendered chart loses nothing.** Decoding gives the table of the chart back, and the text has a line for
each row of it, with the cells of the row in order. So two renderings over one grammar are equal exactly if the
charts have the same length and the same cells. A word is rendered unless it is refused, for the reason for which
it would not be decided either; and whether it is derived is read off the last cell of the first line. -/
theorem decode_rendered (hg : g.Reachable) :
    (∀ chart text, g.Renders chart text → decode text = chart.table ∧
      text.toList.splitOn '\n' = (List.range chart.length).map (fun i =>
        (List.range' i (chart.length - i)).flatMap fun j => (chart.cellText i j).toList) ++ [[]]) ∧
    (∀ chart text chart' text', g.Renders chart text → g.Renders chart' text' →
      (text = text' ↔ chart.length = chart'.length ∧ ∀ i j, chart.cell i j = chart'.cell i j)) ∧
    (∀ w, (∀ e, g.wordChartText w = .error e ↔ g.isDerived w = .error e) ∧
      ((∃ text, g.wordChartText w = .ok text) ↔ ∃ b, g.isDerived w = .ok b)) ∧
    ∀ w text, g.wordChartText w = .ok text → ∃ start row symbols, g.start = some start ∧
      (decode text).head? = some row ∧ row.getLast? = some (⟨0, w.length - 1⟩, symbols) ∧
      (start ∈ symbols ↔ g.isDerived w = .ok true) := by
  have hwf := hg.wellFormed
  refine ⟨fun chart text h => ?_, fun _ _ _ _ h h' => h.text_eq_text_iff hwf h',
    fun w => ⟨fun e => wordChartText_eq_error_iff, exists_wordChartText_iff⟩,
    fun w text => exists_lastCell hwf⟩
  rw [← h.text_eq]
  exact ⟨decode_text (h.isUpper_of_mem hwf), splitOn_text (h.isUpper_of_mem hwf)⟩

theorem textbook_decode_ba : textbook.Reachable ∧ ∃ text text',
    textbook.wordChartText ['b', 'a'] = .ok text ∧ textbook.formChartText ['B', 'A'] = .ok text' ∧
    decode text = [[(⟨0, 0⟩, ['B']), (⟨0, 1⟩, ['S', 'A'])], [(⟨1, 1⟩, ['A', 'C'])]] ∧
    text ≠ text' ∧ textbook.isDerived ['b', 'a'] = .ok true := by
  obtain ⟨hdecode, htexts, -, hstart⟩ := decode_rendered reachable_textbook
  have hword : ∃ chart, textbook.wordChart ['b', 'a'] = .ok (chart, 'S') := by
    rw [exists_congr fun _ => wordChart_eq_ok_iff reachable_textbook.wellFormed]
    exact ⟨_, by decide, by decide,
      List.forall_mem_cons.mpr ⟨by decide, List.forall_mem_singleton.mpr (by decide)⟩, rfl⟩
  have hform : ∃ chart, textbook.formChart ['B', 'A'] = .ok chart :=
    ⟨_, formChart_of_nonterminals
      (List.forall_mem_cons.mpr ⟨by decide, List.forall_mem_singleton.mpr (by decide)⟩)⟩
  obtain ⟨chart, hchart⟩ := hword
  obtain ⟨chart', hchart'⟩ := hform
  have htext : textbook.wordChartText ['b', 'a'] = .ok chart.text := by rw [wordChartText, hchart]; rfl
  have htext' : textbook.formChartText ['B', 'A'] = .ok chart'.text := by rw [formChartText, hchart']; rfl
  have htable : chart.table = [[(⟨0, 0⟩, ['B']), (⟨0, 1⟩, ['S', 'A'])], [(⟨1, 1⟩, ['A', 'C'])]] := by
    have h : (textbook.wordChart ['b', 'a']).map (·.1.table) =
        .ok [[(⟨0, 0⟩, ['B']), (⟨0, 1⟩, ['S', 'A'])], [(⟨1, 1⟩, ['A', 'C'])]] := by decide +kernel
    rw [hchart] at h
    exact Except.ok.inj h
  have hdecoded := (hdecode chart _ (.word hchart htext)).1.trans htable
  refine ⟨reachable_textbook, _, _, htext, htext', hdecoded, fun heq => ?_, ?_⟩
  · have hcells := ((htexts _ _ _ _ (.word hchart htext) (.form hchart' htext')).mp heq).2 1 1
    have h : (textbook.wordChart ['b', 'a']).map (·.1.cell 1 1) ≠
        (textbook.formChart ['B', 'A']).map (·.cell 1 1) := by decide +kernel
    rw [hchart, hchart'] at h
    exact h (congrArg Except.ok hcells)
  · obtain ⟨start, row, symbols, hs, hrow, hlast, hderived⟩ := hstart _ _ htext
    rw [hdecoded] at hrow
    obtain rfl := Option.some.inj hrow
    obtain ⟨-, rfl⟩ := Prod.mk.inj (Option.some.inj hlast)
    obtain rfl : start = 'S' := (Option.some.inj hs).symm
    exact hderived.mp (by decide)

/-- Empty cells leave two blanks. -/
example : decode "(0,0): A (0,1):  \n(1,1): B \n" =
    [[(⟨0, 0⟩, ['A']), (⟨0, 1⟩, [])], [(⟨1, 1⟩, ['B'])]] := by decide +kernel

end Grammar

end Chomsky
