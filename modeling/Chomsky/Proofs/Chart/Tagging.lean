import Chomsky.Proofs.Chart.Form

/-!
# Tagging the letters of a word

A cell of the chart of a word is filled from the cells of its letters alone. Choose one nonterminal from
each of them, and the chart of that string of tags finds what this choice derives; the cell holds what
some choice derives. A single choice will do for a whole cover, since the parts of a cover share no letter.

* **`covers_writes_iff_exists_tags`**: a cover of a word is a cover of tags that write it;
* **`mem_cell_wordChart_iff_exists_tags`**: the cells of a word and of its tags.
-/

namespace Chomsky

variable {g : Grammar} {w tags : Word} {c start : Char} {i j : Nat}

/-! ## Covers and tags -/

/-- **A cover of a word is a cover of tags that write it.** -/
theorem Grammar.covers_writes_iff_exists_tags : g.Covers g.Writes c w ↔
    ∃ tags, List.Forall₂ g.Writes tags w ∧ g.Covers Eq c tags := by
  constructor
  · intro h
    induction h with
    | @leaf c a h => exact ⟨[c], .cons h .nil, .leaf rfl⟩
    | join h _ _ ihl ihr =>
      -- the parts choose their tags apart, and the tags of the whole are those of its parts in a row
      obtain ⟨u, hu, hcu⟩ := ihl
      obtain ⟨v, hv, hcv⟩ := ihr
      exact ⟨u ++ v, List.rel_append hu hv, .join h hcu hcv⟩
  · rintro ⟨tags, hwrites, h⟩
    induction h generalizing w with
    | leaf h =>
      subst h
      cases hwrites with
      | cons ha hnil =>
        cases hnil
        exact .leaf ha
    | @join c l r u v h _ _ ihl ihr =>
      have hl := (List.forall₂_take_append w u v hwrites.flip).flip
      have hr := (List.forall₂_drop_append w u v hwrites.flip).flip
      rw [← List.take_append_drop u.length w]
      exact .join h (ihl hl) (ihr hr)

/-! ## The tags of a span -/

/-- Each tag is in the cell of its letter. -/
def Chart.Tags (chart : Chart) (i j : Nat) (tags : Word) : Prop :=
  tags.length = j - i + 1 ∧ ∀ k a, tags[k]? = some a → a ∈ chart.symbols (i + k) (i + k)

namespace Grammar

theorem mem_symbols_letter (hg : g.WellFormed) (hi : i < w.length) :
    c ∈ (Chart.ofBase g (w.map g.letterCell)).symbols i i ↔ g.Writes c w[i] := by
  rw [Chart.mem_symbols_ofBase hg (fun a _ => marks_letterCell hg a) (Nat.le_refl i) hi,
    Span.slice_single hi, covers_singleton_iff]
  exact and_iff_right_of_imp fun h => hg.head _ h

theorem tags_wordChart_iff (hg : g.WellFormed) (hij : i ≤ j) (hj : j < w.length) :
    (Chart.ofBase g (w.map g.letterCell)).Tags i j tags ↔
      List.Forall₂ g.Writes tags ((⟨i, j⟩ : Span).slice w) := by
  have hlen : ((⟨i, j⟩ : Span).slice w).length = j - i + 1 := Span.length_slice ⟨hij, hj⟩
  have hletter : ∀ k (hk : k < ((⟨i, j⟩ : Span).slice w).length) (hk' : i + k < w.length),
      ((⟨i, j⟩ : Span).slice w)[k] = w[i + k] := by
    intro k hk hk'
    simp only [Span.slice, List.getElem_take, List.getElem_drop]
  constructor
  · rintro ⟨htags, hcells⟩
    refine List.forall₂_of_length_eq_of_get (htags.trans hlen.symm) fun k h1 h2 => ?_
    have hk : i + k < w.length := by omega
    rw [List.get_eq_getElem, List.get_eq_getElem, hletter k h2 hk]
    exact (mem_symbols_letter hg hk).mp (hcells k _ (List.getElem?_eq_getElem h1))
  · intro h
    have htags := h.length_eq.trans hlen
    refine ⟨htags, fun k a ha => ?_⟩
    obtain ⟨h1, rfl⟩ := List.getElem?_eq_some_iff.mp ha
    have hk : i + k < w.length := by omega
    have hwrites := h.get h1 (by omega : k < ((⟨i, j⟩ : Span).slice w).length)
    rw [List.get_eq_getElem, List.get_eq_getElem, hletter k _ hk] at hwrites
    exact (mem_symbols_letter hg hk).mpr hwrites

/-! ## The cells of a word and of its tags -/

theorem tags_subset_nonterminals {chart : Chart} (hchart : chart.nonterminals = g.nonterminals)
    (h : chart.Tags i j tags) : ∀ a ∈ tags, a ∈ g.nonterminals := by
  intro a ha
  obtain ⟨k, hk⟩ := List.mem_iff_getElem?.mp ha
  exact hchart ▸ (chart.symbols_sublist _ _).subset (h.2 k a hk)

theorem exists_cell_tags (hg : g.WellFormed) (htags : tags.length = j - i + 1) :
    ∃ cell, (Chart.ofBase g (tags.map g.symbolCell)).cell 0 (j - i) = some cell ∧
      cell.Marks g (g.Covers Eq · tags) := by
  have hcell := Chart.exists_cell_ofBase hg (fun a _ => marks_symbolCell a) (Nat.zero_le (j - i))
    (by omega : j - i < tags.length)
  have hwhole : (⟨0, j - i⟩ : Span).slice tags = tags := by
    have hlast : j - i = tags.length - 1 := by omega
    rw [hlast, Span.slice_whole]
  rwa [hwhole] at hcell

theorem exists_cell_word (hg : g.WellFormed) (hij : i ≤ j) (hj : j < w.length) :
    ∃ cell, (Chart.ofBase g (w.map g.letterCell)).cell i j = some cell ∧ cell.Marks g fun c =>
      ∃ tags, (Chart.ofBase g (w.map g.letterCell)).Tags i j tags ∧ g.Covers Eq c tags := by
  obtain ⟨cell, hcell, hmarks⟩ := Chart.exists_cell_ofBase hg (fun a _ => marks_letterCell hg a) hij hj
  refine ⟨cell, hcell, fun p => (hmarks p).trans ?_⟩
  simp only [tags_wordChart_iff hg hij hj, covers_writes_iff_exists_tags]

/-- **A cell of the chart of a word is the union of the cells of its tags**: choose a nonterminal from
the cell of each letter of a span, in every way, and take the last cell of the chart of each choice. -/
theorem mem_cell_wordChart_iff_exists_tags (hg : g.Reachable) (hs : g.start = some start) (hw : w ≠ [])
    (ht : ∀ a ∈ w, a ∈ g.terminals) :
    ∃ chart, g.wordChart w = .ok (chart, start) ∧ ∀ i j, i ≤ j → j < w.length →
      (∀ tags, chart.Tags i j tags → ∃ form, g.formChart tags = .ok form) ∧
      (∀ c, c ∈ chart.symbols i j ↔ ∃ tags form, chart.Tags i j tags ∧
        g.formChart tags = .ok form ∧ c ∈ form.symbols 0 (j - i)) ∧
      ∃ cell, chart.cell i j = some cell ∧ ∀ p, p ∈ cell ↔ ∃ tags form cell', chart.Tags i j tags ∧
        g.formChart tags = .ok form ∧ form.cell 0 (j - i) = some cell' ∧ p ∈ cell' := by
  have hwf := hg.wellFormed
  refine ⟨_, wordChart_of_terminals hwf hw hs ht, fun i j hij hj => ?_⟩
  obtain ⟨cell, hcell, hmarks⟩ := exists_cell_word hwf hij hj
  generalize hchart : Chart.ofBase g (w.map g.letterCell) = chart at hcell hmarks
  have hn : chart.nonterminals = g.nonterminals := by rw [← hchart, Chart.ofBase]
  have hform : ∀ tags, chart.Tags i j tags →
      g.formChart tags = .ok (.ofBase g (tags.map g.symbolCell)) :=
    fun tags htags => formChart_of_nonterminals (tags_subset_nonterminals hn htags)
  refine ⟨fun tags htags => ⟨_, hform tags htags⟩, fun c => ?_, cell, hcell, fun p => ?_⟩
  · rw [Chart.mem_symbols_of_marks hn hcell hmarks]
    constructor
    · rintro ⟨hc, tags, htags, hcover⟩
      obtain ⟨cell', hcell', hmarks'⟩ := exists_cell_tags hwf htags.1
      exact ⟨tags, _, htags, hform tags htags,
        (Chart.mem_symbols_of_marks rfl hcell' hmarks').mpr ⟨hc, hcover⟩⟩
    · rintro ⟨tags, form, htags, hf, hc⟩
      obtain rfl := Except.ok.inj ((hform tags htags).symm.trans hf)
      obtain ⟨cell', hcell', hmarks'⟩ := exists_cell_tags hwf htags.1
      obtain ⟨hc, hcover⟩ := (Chart.mem_symbols_of_marks rfl hcell' hmarks').mp hc
      exact ⟨hc, tags, htags, hcover⟩
  · rw [hmarks p]
    constructor
    · rintro ⟨c, hp, tags, htags, hcover⟩
      obtain ⟨cell', hcell', hmarks'⟩ := exists_cell_tags hwf htags.1
      exact ⟨tags, _, cell', htags, hform tags htags, hcell', (hmarks' p).mpr ⟨c, hp, hcover⟩⟩
    · rintro ⟨tags, form, cell', htags, hf, hcell', hp⟩
      obtain rfl := Except.ok.inj ((hform tags htags).symm.trans hf)
      obtain ⟨cell'', hcell'', hmarks'⟩ := exists_cell_tags hwf htags.1
      obtain rfl := Option.some.inj (hcell''.symm.trans hcell')
      obtain ⟨c, hc, hcover⟩ := (hmarks' p).mp hp
      exact ⟨c, hc, tags, htags, hcover⟩

theorem textbook_tags_baaba : textbook.Reachable ∧ textbook.start = some 'S' ∧
    ∃ chart, textbook.wordChart ['b', 'a', 'a', 'b', 'a'] = .ok (chart, 'S') ∧
      (∃ tags form, chart.Tags 0 4 tags ∧ textbook.formChart tags = .ok form ∧
        'S' ∈ form.symbols 0 4) ∧
      ∀ tags form, chart.Tags 1 3 tags → textbook.formChart tags = .ok form → 'A' ∉ form.symbols 0 2 := by
  have hs : textbook.start = some 'S' := rfl
  have hab : 'a' ∈ textbook.terminals ∧ 'b' ∈ textbook.terminals := by decide
  obtain ⟨chart, hchart, hcells⟩ := mem_cell_wordChart_iff_exists_tags
    (w := ['b', 'a', 'a', 'b', 'a']) reachable_textbook hs (by decide) (by simp [hab])
  have hsymbols : chart.symbols 0 4 = ['S', 'A', 'C'] ∧ chart.symbols 1 3 = ['B'] := by
    have h : (textbook.wordChart ['b', 'a', 'a', 'b', 'a']).map
        (fun p => (p.1.symbols 0 4, p.1.symbols 1 3)) = .ok (['S', 'A', 'C'], ['B']) := by decide +kernel
    rw [hchart] at h
    exact Prod.mk.inj (Except.ok.inj h)
  refine ⟨reachable_textbook, hs, chart, hchart, ?_, fun tags form htags hform hA => ?_⟩
  · exact ((hcells 0 4 (by decide) (by decide)).2.1 'S').mp (by rw [hsymbols.1]; decide)
  · have hA' := ((hcells 1 3 (by decide) (by decide)).2.1 'A').mpr ⟨tags, form, htags, hform, hA⟩
    rw [hsymbols.2] at hA'
    exact absurd hA' (by decide)

end Grammar

end Chomsky
