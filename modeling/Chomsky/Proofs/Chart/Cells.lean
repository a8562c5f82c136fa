import Chomsky.Proofs.Chart.Recognition
import Chomsky.Proofs.Tree.Heights

/-!
# Every cell of the chart of a word

Whether a word is derived is read off one cell of its chart. The other cells are right as well: each holds the
places of the nonterminals that have a derivation tree over its piece of the word, and outside the word there is
no cell.

* **`wordChart_exact`**: the whole chart.
-/

namespace Chomsky

variable {g : Grammar} {w : Word} {c start : Char} {i j : Nat}

/-! ## Inside and outside -/

namespace Chart

theorem size_cells_ofBase {base : List Cell} :
    (ofBase g base).cells.size = (Span.all base.length).length := by
  have hsize : (ofBase g base).cells.size = base.toArray.size + (Span.longer base.length).length := size_fillSpans
  rw [hsize, List.size_toArray, Span.all_eq_append, List.length_append, Span.length_ofGap, Nat.sub_zero]

theorem cell_ofBase_eq_none_iff {base : List Cell} :
    (ofBase g base).cell i j = none ↔ j < i ∨ base.length ≤ j := by
  rw [cell]
  split
  · rename_i hs
    obtain ⟨hk, -⟩ := List.getElem?_eq_some_iff.mp (Span.getElem?_position hs)
    have hinside : (⟨i, j⟩ : Span).position base.length < (ofBase g base).cells.size := by
      rwa [size_cells_ofBase]
    obtain ⟨hij, hj⟩ := hs
    rw [Array.getElem?_eq_none_iff]
    exact iff_of_false (Nat.not_le.mpr hinside) (by simp only [ofBase] at hij hj; omega)
  · rename_i hs
    refine iff_of_true rfl ?_
    simp only [Span.Within, ofBase] at hs
    omega

theorem symbols_eq_nil {chart : Chart} (h : chart.cell i j = none) : chart.symbols i j = [] := by
  rw [symbols, h]

end Chart

/-! ## What the cells hold -/

namespace Grammar

/-- **The place of a nonterminal is where it stands**, as each is declared once. -/
theorem position?_eq_some_iff (hnodup : g.nonterminals.Nodup) {p : Nat} :
    g.position? c = some p ↔ g.nonterminals[p]? = some c := by
  refine ⟨getElem?_of_position?, fun h => ?_⟩
  obtain ⟨q, hq⟩ := exists_position? (List.mem_of_getElem? h)
  obtain ⟨hp, -⟩ := List.getElem?_eq_some_iff.mp h
  have hpq := (List.getElem?_inj hp hnodup).mp (h.trans (getElem?_of_position? hq).symm)
  rw [hq, hpq]

theorem exists_cell_wordChart (hg : g.WellFormed) (hij : i ≤ j) (hj : j < w.length) :
    ∃ cell, (Chart.ofBase g (w.map g.letterCell)).cell i j = some cell ∧ cell.Marks g fun c =>
      ∃ t : Tree, t.Fits g ∧ t.root = c ∧ t.yield = (⟨i, j⟩ : Span).slice w := by
  obtain ⟨cell, hcell, hmarks⟩ := Chart.exists_cell_ofBase hg (fun a _ => marks_letterCell hg a) hij hj
  simp only [covers_writes_iff_tree] at hmarks
  exact ⟨cell, hcell, hmarks⟩

/-- **The chart of a word is exact, cell by cell.** Each span of the word has a cell, which holds in ascending order
the places of the nonterminals with a derivation tree over its piece of the word; its symbols are these
nonterminals in the order of declaration, each once. There is no cell outside the word, and none is read while
the chart is filled. The chart accepts the nonterminals that derive the whole word. -/
theorem wordChart_exact (hg : g.Reachable) (hs : g.start = some start) (hw : w ≠ [])
    (ht : ∀ a ∈ w, a ∈ g.terminals) :
    ∃ chart, g.wordChart w = .ok (chart, start) ∧ chart.length = w.length ∧
      ReadsInside g.binaryRules w.length (w.map g.letterCell).toArray ∧
      (∀ i j, chart.cell i j = none ↔ j < i ∨ w.length ≤ j) ∧
      (∀ i j, j < i ∨ w.length ≤ j → chart.symbols i j = []) ∧
      (∀ i j, i ≤ j → j < w.length →
        (∃ cell, chart.cell i j = some cell ∧ cell.toList.Pairwise (· < ·) ∧
          ∀ p, p ∈ cell ↔ ∃ c, g.nonterminals[p]? = some c ∧
            ∃ t : Tree, t.Fits g ∧ t.root = c ∧ t.yield = (⟨i, j⟩ : Span).slice w) ∧
        (chart.symbols i j).Sublist g.nonterminals ∧ (chart.symbols i j).Nodup ∧
        ∀ c, c ∈ chart.symbols i j ↔
          ∃ t : Tree, t.Fits g ∧ t.root = c ∧ t.yield = (⟨i, j⟩ : Span).slice w) ∧
      ∀ c, chart.accepts c = true ↔ c ∈ g.nonterminals ∧ g.Derives [c] w := by
  have hwf := hg.wellFormed
  have houtside : ∀ i j, (Chart.ofBase g (w.map g.letterCell)).cell i j = none ↔ j < i ∨ w.length ≤ j := by
    intro i j
    rw [Chart.cell_ofBase_eq_none_iff, List.length_map]
  refine ⟨_, wordChart_of_terminals hwf hw hs ht, List.length_map _, ?_, houtside,
    fun i j hij => Chart.symbols_eq_nil ((houtside i j).mpr hij), fun i j hij hj => ?_,
    fun c => accepts_wordChart_iff hwf hw ht⟩
  · have h := readsInside g.binaryRules (w.map g.letterCell).toArray
    rwa [List.size_toArray, List.length_map] at h
  · obtain ⟨cell, hcell, hmarks⟩ := exists_cell_wordChart hwf hij hj
    have hsub := (Chart.ofBase g (w.map g.letterCell)).symbols_sublist i j
    refine ⟨⟨cell, hcell, cell.ascending, fun p => ?_⟩, hsub, hsub.nodup hwf.nodup, fun c => ?_⟩
    · simp only [hmarks p, position?_eq_some_iff hwf.nodup]
    · rw [Chart.mem_symbols_of_marks rfl hcell hmarks, and_iff_right_iff_imp]
      rintro ⟨t, hfits, rfl, -⟩
      exact hfits.root_mem hwf

theorem textbook_chart_baaba : textbook.Reachable ∧ textbook.start = some 'S' ∧
    (∃ t : Tree, t.Fits textbook ∧ t.root = 'B' ∧ t.yield = ['a', 'a', 'b']) ∧
    (¬ ∃ t : Tree, t.Fits textbook ∧ t.root = 'S' ∧ t.yield = ['a', 'a', 'b']) ∧
    ∃ chart, textbook.wordChart ['b', 'a', 'a', 'b', 'a'] = .ok (chart, 'S') ∧
      chart.cell 3 1 = none ∧ chart.cell 0 5 = none ∧ chart.accepts 'S' = true ∧
      ¬ textbook.Derives ['B'] ['b', 'a', 'a', 'b', 'a'] := by
  have hs : textbook.start = some 'S' := rfl
  have hab : 'a' ∈ textbook.terminals ∧ 'b' ∈ textbook.terminals := by decide
  obtain ⟨chart, hchart, -, -, houtside, -, hcells, haccepts⟩ := wordChart_exact
    (w := ['b', 'a', 'a', 'b', 'a']) reachable_textbook hs (by decide) (by simp [hab])
  have hread : chart.symbols 1 3 = ['B'] ∧ chart.accepts 'S' = true ∧ chart.accepts 'B' = false := by
    have h : (textbook.wordChart ['b', 'a', 'a', 'b', 'a']).map
        (fun p => (p.1.symbols 1 3, p.1.accepts 'S', p.1.accepts 'B')) = .ok (['B'], true, false) := by
      decide +kernel
    rw [hchart] at h
    simpa using Except.ok.inj h
  have htree := fun c => ((hcells 1 3 (by decide) (by decide)).2.2.2 c).symm
  simp only [hread.1] at htree
  refine ⟨reachable_textbook, hs, (htree 'B').mpr (by decide), fun h => absurd ((htree 'S').mp h) (by decide),
    chart, hchart, (houtside 3 1).mpr (by decide), (houtside 0 5).mpr (by decide), hread.2.1, fun h => ?_⟩
  have hB := (haccepts 'B').mpr ⟨by decide, h⟩
  rw [hread.2.2] at hB
  cases hB

end Grammar

end Chomsky
