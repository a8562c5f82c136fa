import Chomsky.Chart.Recognition
import Chomsky.Proofs.Chart.Filling
import Chomsky.Proofs.Derivation.Cover

/-!
# Exact charts

The cell of a span holds the nonterminals that cover the piece of the word in it, as long as the cells
of the single places hold those that read the letter there.

* **`exists_cell_ofBase`**: the cells of a chart, with `rel_cell_ofBase`: those of two charts;
* `symbols_sublist`, `mem_symbols_of_marks`, **`mem_symbols_ofBase`**, `accepts_ofBase_iff`: its
  nonterminals.
-/

namespace Chomsky

variable {g : Grammar} {leaf : Char → Char → Prop} {w : Word} {c : Char}

/-! ## Positions -/

namespace Grammar

theorem getElem?_of_position? {p : Nat} (h : g.position? c = some p) :
    g.nonterminals[p]? = some c := by
  obtain ⟨hp, rfl, -⟩ := List.idxOf?_eq_some_iff.mp h
  exact List.getElem?_eq_getElem hp

theorem mem_of_position? {p : Nat} (h : g.position? c = some p) : c ∈ g.nonterminals :=
  List.mem_of_getElem? (getElem?_of_position? h)

theorem exists_position? (h : c ∈ g.nonterminals) : ∃ p, g.position? c = some p :=
  Option.isSome_iff_exists.mp (List.isSome_idxOf?.mpr h)

theorem position?_inj {p : Nat} {d : Char} (hc : g.position? c = some p) (hd : g.position? d = some p) :
    c = d := by
  have h := getElem?_of_position? hc
  rw [getElem?_of_position? hd] at h
  exact (Option.some.inj h).symm

theorem mem_binaryRules {x : BinaryRule} : x ∈ g.binaryRules ↔
    ∃ c l r, (⟨c, .binary l r⟩ : Production) ∈ g.productions ∧ g.position? c = some x.head ∧
      g.position? l = some x.left ∧ g.position? r = some x.right := by
  rw [binaryRules, List.mem_filterMap]
  constructor
  · rintro ⟨⟨c, a⟩, hp, h⟩
    cases a with
    | binary l r =>
      simp only [Option.bind_eq_bind, Option.bind_eq_some_iff, Option.pure_def,
        Option.some.injEq] at h
      obtain ⟨i, hi, j, hj, k, hk, rfl⟩ := h
      exact ⟨c, l, r, ((g.mem_listedProductions).mp hp).2, hi, hj, hk⟩
    | unary a => cases h
  · rintro ⟨c, l, r, hp, hc, hl, hr⟩
    refine ⟨_, (g.mem_listedProductions).mpr ⟨mem_of_position? hc, hp⟩, ?_⟩
    simp only [hc, hl, hr, Option.bind_eq_bind, Option.bind_some, Option.pure_def]

end Grammar

/-- The cell holds the positions of exactly the nonterminals with a property. -/
def Cell.Marks (g : Grammar) (P : Char → Prop) (cell : Cell) : Prop :=
  ∀ p, p ∈ cell ↔ ∃ c, g.position? c = some p ∧ P c

/-! ## The cells of a chart -/

theorem follows_covers (hg : g.WellFormed) : Follows g.binaryRules w.length fun s p =>
    ∃ c, g.position? c = some p ∧ g.Covers leaf c (s.slice w) := by
  intro s hs hgap p
  constructor
  · rintro ⟨c, hc, h⟩
    generalize hu : s.slice w = u at h
    cases h with
    | leaf h =>
      have hlen := Span.length_slice hs
      rw [hu, List.length_singleton] at hlen
      omega
    | join h hl hr =>
      obtain ⟨hdl, hdr⟩ := hg.declares _ h
      obtain ⟨i, hi⟩ := Grammar.exists_position? hdl
      obtain ⟨j, hj⟩ := Grammar.exists_position? hdr
      obtain ⟨s₁, s₂, hq, rfl, rfl⟩ := (Span.slice_eq_append_iff hs hl.ne_nil hr.ne_nil).mp hu
      exact ⟨⟨p, i, j⟩, Grammar.mem_binaryRules.mpr ⟨c, _, _, h, hc, hi, hj⟩, rfl, _, hq,
        ⟨_, hi, hl⟩, ⟨_, hj, hr⟩⟩
  · rintro ⟨x, hx, rfl, ⟨s₁, s₂⟩, hq, ⟨l', hl', hl⟩, ⟨r', hr', hr⟩⟩
    obtain ⟨c, l, r, h, hc, hl'', hr''⟩ := Grammar.mem_binaryRules.mp hx
    obtain rfl := Grammar.position?_inj hl'' hl'
    obtain rfl := Grammar.position?_inj hr'' hr'
    rw [← Span.slice_append_of_mem_splits hs hq]
    exact ⟨c, hc, .join h hl hr⟩

namespace Chart

variable {base : Char → Cell} {i j : Nat}

theorem length_ofBase : (ofBase g (w.map base)).length = w.length := List.length_map _

theorem filled_base (hbase : ∀ a ∈ w, (base a).Marks g (leaf · a)) :
    Filled (fun s p => ∃ c, g.position? c = some p ∧ g.Covers leaf c (s.slice w))
      (Span.ofGap w.length 0) (w.map base).toArray := by
  refine List.forall₂_of_length_eq_of_get ?_ ?_
  · rw [Span.length_ofGap, List.length_map, Nat.sub_zero]
  · intro i h1 h2 p
    have hi : i < w.length := by simpa using h2
    simp only [Span.ofGap, Nat.sub_zero, List.get_eq_getElem, List.getElem_map, List.getElem_range,
      Nat.add_zero]
    rw [Span.slice_single hi, hbase _ (List.getElem_mem hi)]
    exact exists_congr fun c => and_congr_right fun _ => Grammar.covers_singleton_iff.symm

/-- **The cell of a span holds the nonterminals that cover its piece.** -/
theorem exists_cell_ofBase (hg : g.WellFormed) (hbase : ∀ a ∈ w, (base a).Marks g (leaf · a))
    (hij : i ≤ j) (hj : j < w.length) : ∃ cell, (ofBase g (w.map base)).cell i j = some cell ∧
      cell.Marks g fun c => g.Covers leaf c ((⟨i, j⟩ : Span).slice w) := by
  have hs : (⟨i, j⟩ : Span).Within w.length := ⟨hij, hj⟩
  have hfilled := filled_fillCells (follows_covers hg) (filled_base hbase)
  obtain ⟨hk, hget⟩ := List.getElem?_eq_some_iff.mp (Span.getElem?_position hs)
  have hsize : (⟨i, j⟩ : Span).position w.length <
      (fillCells g.binaryRules w.length (w.map base).toArray).size := by
    rwa [hfilled.size_eq]
  refine ⟨(fillCells g.binaryRules w.length (w.map base).toArray)[
    (⟨i, j⟩ : Span).position w.length], ?_, ?_⟩
  · rw [cell, ofBase]
    simp only [List.length_map]
    rw [if_pos hs, Array.getElem?_eq_getElem hsize]
  · intro p
    have := hfilled.mem_getD (Span.getElem?_position hs) (p := p)
    rwa [Array.getD, dif_pos hsize] at this

theorem rel_cell_ofBase {g' : Grammar} {leaf' : Char → Char → Prop} {base' : Char → Cell} (hg : g.WellFormed)
    (hg' : g'.WellFormed) (hbase : ∀ a ∈ w, (base a).Marks g (leaf · a))
    (hbase' : ∀ a ∈ w, (base' a).Marks g' (leaf' · a)) {R : Cell → Cell → Prop}
    (hrel : ∀ cell cell', i ≤ j → j < w.length →
      (cell.Marks g fun c => g.Covers leaf c ((⟨i, j⟩ : Span).slice w)) →
      (cell'.Marks g' fun c => g'.Covers leaf' c ((⟨i, j⟩ : Span).slice w)) → R cell cell') :
    Option.Rel R ((ofBase g (w.map base)).cell i j) ((ofBase g' (w.map base')).cell i j) := by
  by_cases hij : (⟨i, j⟩ : Span).Within w.length
  · obtain ⟨cell, hcell, hmarks⟩ := exists_cell_ofBase hg hbase hij.1 hij.2
    obtain ⟨cell', hcell', hmarks'⟩ := exists_cell_ofBase hg' hbase' hij.1 hij.2
    rw [hcell, hcell']
    exact .some (hrel cell cell' hij.1 hij.2 hmarks hmarks')
  · rw [cell, cell, ofBase, ofBase]
    simp only [List.length_map]
    rw [if_neg hij, if_neg hij]
    exact .none

/-! ## The nonterminals of a chart -/

theorem sublist_of_ascending {α : Type} {l : List α} {k : Nat} : ∀ {places : List Nat},
    places.Pairwise (· < ·) → (∀ p ∈ places, k ≤ p) →
      (places.filterMap (l[·]?)).Sublist (l.drop k)
  | [], _, _ => List.nil_sublist _
  | p :: places, hasc, hk => by
    obtain ⟨h1, h2⟩ := List.pairwise_cons.mp hasc
    have hrest := sublist_of_ascending (l := l) h2 h1
    have hdrop : (l.drop p).Sublist (l.drop k) := by
      rw [← Nat.add_sub_of_le (hk p List.mem_cons_self), ← List.drop_drop]
      exact List.drop_sublist _ _
    cases hp : l[p]? with
    | none =>
      rw [List.filterMap_cons_none hp]
      exact hrest.trans ((List.drop_sublist_drop_left l (Nat.le_succ p)).trans hdrop)
    | some a =>
      obtain ⟨hlt, rfl⟩ := List.getElem?_eq_some_iff.mp hp
      rw [List.filterMap_cons_some hp]
      refine List.Sublist.trans ?_ hdrop
      rw [List.drop_eq_getElem_cons hlt]
      exact hrest.cons_cons _

theorem symbols_sublist (chart : Chart) (i j : Nat) :
    (chart.symbols i j).Sublist chart.nonterminals := by
  unfold symbols
  split
  · rename_i cell _
    exact sublist_of_ascending (k := 0) cell.ascending fun _ _ => Nat.zero_le _
  · exact List.nil_sublist _

theorem mem_symbols_of_marks {chart : Chart} {cell : Cell} {P : Char → Prop}
    (hn : chart.nonterminals = g.nonterminals) (hcell : chart.cell i j = some cell)
    (hmarks : cell.Marks g P) : c ∈ chart.symbols i j ↔ c ∈ g.nonterminals ∧ P c := by
  rw [symbols, hcell, hn]
  simp only [List.mem_filterMap, OrderedSet.mem_toList]
  constructor
  · rintro ⟨p, hp, hc⟩
    obtain ⟨d, hd, hP⟩ := (hmarks p).mp hp
    rw [Grammar.getElem?_of_position? hd] at hc
    obtain rfl := Option.some.inj hc
    exact ⟨Grammar.mem_of_position? hd, hP⟩
  · rintro ⟨hc, hP⟩
    obtain ⟨p, hp⟩ := Grammar.exists_position? hc
    exact ⟨p, (hmarks p).mpr ⟨c, hp, hP⟩, Grammar.getElem?_of_position? hp⟩

theorem mem_symbols_ofBase (hg : g.WellFormed) (hbase : ∀ a ∈ w, (base a).Marks g (leaf · a))
    (hij : i ≤ j) (hj : j < w.length) : c ∈ (ofBase g (w.map base)).symbols i j ↔
      c ∈ g.nonterminals ∧ g.Covers leaf c ((⟨i, j⟩ : Span).slice w) := by
  obtain ⟨cell, hcell, hmarks⟩ := exists_cell_ofBase hg hbase hij hj
  exact mem_symbols_of_marks rfl hcell hmarks

/-- **A chart accepts the nonterminals that cover the whole word.** -/
theorem accepts_ofBase_iff (hg : g.WellFormed) (hbase : ∀ a ∈ w, (base a).Marks g (leaf · a))
    (hw : w ≠ []) : (ofBase g (w.map base)).accepts c = true ↔
      c ∈ g.nonterminals ∧ g.Covers leaf c w := by
  have hpos := List.length_pos_iff.mpr hw
  have hmem := mem_symbols_ofBase (c := c) hg hbase (Nat.zero_le (w.length - 1)) (by omega)
  rw [Span.slice_whole] at hmem
  rw [accepts, length_ofBase, Bool.and_eq_true, decide_eq_true_iff, decide_eq_true_iff, hmem]
  exact and_iff_right hpos

end Chart

/-! ## The cells of the single places -/

namespace Grammar

theorem marks_letterCell (hg : g.WellFormed) (a : Char) :
    (g.letterCell a).Marks g (g.Writes · a) := by
  intro p
  rw [letterCell, OrderedSet.mem_ofList, List.mem_filterMap]
  constructor
  · rintro ⟨⟨c, b⟩, hp, h⟩
    rw [Option.ite_none_right_eq_some] at h
    obtain ⟨rfl, h⟩ := h
    exact ⟨c, h, ((g.mem_listedProductions).mp hp).2⟩
  · rintro ⟨c, hc, h⟩
    exact ⟨_, (g.mem_listedProductions).mpr ⟨hg.head _ h, h⟩, by rw [if_pos rfl, hc]⟩

theorem marks_symbolCell (a : Char) : (g.symbolCell a).Marks g (· = a) := by
  intro p
  rw [symbolCell, OrderedSet.mem_ofList, Option.mem_toList]
  constructor
  · exact fun h => ⟨a, h, rfl⟩
  · rintro ⟨c, h, rfl⟩
    exact h

end Grammar

end Chomsky
