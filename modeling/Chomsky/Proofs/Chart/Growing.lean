import Chomsky.Proofs.Chart.Rendering

/-!
# Charts of a grammar that grows

Declarations and productions only add to a grammar. New nonterminals come after the old ones, so the old ones keep
their places, and what covered a word still covers it. Hence every cell of a chart keeps its places and may get new
ones; if nothing but symbols is added, it gets none, for a new nonterminal covers nothing yet.

* **`Grammar.Extends`**, with `Extends.attempt`, `Extends.after`: a grammar and what additions make of it;
* **`Chart.Below`**, with `Below.symbols_subset`, `Below.accepts`: a chart whose cells are parts of those of another;
* **`Chart.Alike`**, with `Alike.cell_eq`, `Alike.accepts_eq`, `Alike.text_eq`: charts that show the same;
* `Extends.wordChart_below`, `Extends.formChart_below`, **`cells_grow_with_additions`**.
-/

namespace Chomsky

variable {g g' : Grammar} {change : Change} {history : List Change} {c : Char} {w : Word} {i j : Nat}

/-! ## Additions -/

/-- The change adds a symbol or a production. -/
def Change.IsAddition : Change → Prop
  | declareNonterminal _ | declareTerminal _ | add _ | addWritten _ _ => True
  | setStart _ | clear => False

/-- The change adds a symbol. -/
def Change.IsDeclaration : Change → Prop
  | declareNonterminal _ | declareTerminal _ => True
  | setStart _ | add _ | addWritten _ _ | clear => False

/-- **A grammar that has all that another has**, its nonterminals first and in the same order. -/
structure Grammar.Extends (g g' : Grammar) : Prop where
  nonterminals : g.nonterminals <+: g'.nonterminals
  terminals : ∀ c ∈ g.terminals, c ∈ g'.terminals
  start : g'.start = g.start
  productions : ∀ p ∈ g.productions, p ∈ g'.productions

namespace Grammar

namespace Extends

theorem refl (g : Grammar) : g.Extends g where
  nonterminals := List.prefix_refl _
  terminals _ := id
  start := rfl
  productions _ := id

theorem trans {g'' : Grammar} (h : g.Extends g') (h' : g'.Extends g'') : g.Extends g'' where
  nonterminals := h.nonterminals.trans h'.nonterminals
  terminals c hc := h'.terminals c (h.terminals c hc)
  start := h'.start.trans h.start
  productions p hp := h'.productions p (h.productions p hp)

theorem insert (g : Grammar) (p : Production) :
    g.Extends { g with productions := g.productions.insert p } :=
  { refl g with productions := fun _ hq => Productions.mem_insert.mpr (.inr hq) }

theorem apply (hadds : change.IsAddition) (h : change.apply g = (.ok (), g')) : g.Extends g' := by
  cases change with
  | declareNonterminal c =>
    obtain ⟨-, -, rfl⟩ := declareNonterminal_eq_ok_iff.mp h
    exact { refl g with nonterminals := List.prefix_append _ _ }
  | declareTerminal c =>
    obtain ⟨-, -, rfl⟩ := declareTerminal_eq_ok_iff.mp h
    exact { refl g with terminals := fun _ hc => OrderedSet.mem_insert.mpr (.inr hc) }
  | setStart c => exact hadds.elim
  | add p =>
    obtain ⟨-, -, -, rfl⟩ := add_eq_ok_iff.mp h
    exact insert g p
  | addWritten head rhs =>
    obtain ⟨a, -, hadd⟩ := addWritten_eq_ok_iff.mp h
    obtain ⟨-, -, -, rfl⟩ := add_eq_ok_iff.mp hadd
    exact insert g ⟨head, a⟩
  | clear => exact hadds.elim

theorem attempt (g : Grammar) (hadds : change.IsAddition) : g.Extends (g.attempt change) := by
  by_cases hmade : change.Made g
  · exact apply hadds (Change.apply_of_made hmade)
  · rw [Change.attempt_of_not_made hmade]
    exact refl g

theorem after (g : Grammar) (hadds : ∀ change ∈ history, change.IsAddition) :
    g.Extends (g.after history) := by
  induction history generalizing g with
  | nil => exact refl g
  | cons change history ih =>
    obtain ⟨hchange, hhistory⟩ := List.forall_mem_cons.mp hadds
    rw [after_cons]
    exact (attempt g hchange).trans (ih _ hhistory)

end Extends

theorem productions_attempt (hdecl : change.IsDeclaration) :
    (g.attempt change).productions = g.productions := by
  cases change with
  | declareNonterminal c =>
    simp only [attempt, Change.apply, declareNonterminal]
    split_ifs <;> rfl
  | declareTerminal c =>
    simp only [attempt, Change.apply, declareTerminal]
    split_ifs <;> rfl
  | setStart | add | addWritten | clear => exact hdecl.elim

theorem productions_after (hdecl : ∀ change ∈ history, change.IsDeclaration) :
    (g.after history).productions = g.productions := by
  induction history generalizing g with
  | nil => rfl
  | cons change history ih =>
    obtain ⟨hchange, hhistory⟩ := List.forall_mem_cons.mp hdecl
    rw [after_cons, ih hhistory, productions_attempt hchange]

theorem Extends.position?_eq (hx : g.Extends g') (hg' : g'.WellFormed) {p : Nat}
    (hc : g.position? c = some p) : g'.position? c = some p := by
  obtain ⟨added, hadded⟩ := hx.nonterminals
  have hplace := getElem?_of_position? hc
  obtain ⟨hlt, -⟩ := List.getElem?_eq_some_iff.mp hplace
  rw [position?_eq_some_iff hg'.nodup, ← hadded, List.getElem?_append_left hlt, hplace]

end Grammar

/-! ## Charts within charts -/

/-- **A chart within another**: both have cells for the same spans, and each cell of the other chart holds all
places in the cell of this one, which stand for the same nonterminals. -/
structure Chart.Below (chart chart' : Chart) : Prop where
  length : chart.length = chart'.length
  nonterminals : chart.nonterminals <+: chart'.nonterminals
  cells : ∀ i j, Option.Rel (fun cell cell' => ∀ p ∈ cell, p ∈ cell') (chart.cell i j) (chart'.cell i j)

namespace Chart.Below

variable {chart chart' : Chart}

theorem symbols_subset (h : Below chart chart') (i j : Nat) : chart.symbols i j ⊆ chart'.symbols i j := by
  obtain ⟨added, hadded⟩ := h.nonterminals
  have hcells := h.cells i j
  intro c hc
  unfold symbols at *
  generalize chart.cell i j = x, chart'.cell i j = y at *
  cases hcells with
  | none => exact hc
  | some hsub =>
    obtain ⟨p, hp, hplace⟩ := List.mem_filterMap.mp hc
    obtain ⟨hlt, -⟩ := List.getElem?_eq_some_iff.mp hplace
    refine List.mem_filterMap.mpr ⟨p, hsub p hp, ?_⟩
    rw [← hadded, List.getElem?_append_left hlt, hplace]

theorem accepts (h : Below chart chart') (hc : chart.accepts c = true) : chart'.accepts c = true := by
  simp only [Chart.accepts, Bool.and_eq_true, decide_eq_true_eq, h.length] at *
  exact ⟨hc.1, h.symbols_subset _ _ hc.2⟩

end Chart.Below

/-- **Charts that show the same**: their cells are equal, and the places in them stand for the same nonterminals. -/
structure Chart.Alike (chart chart' : Chart) : Prop where
  length : chart.length = chart'.length
  cells : ∀ i j, Option.Rel
    (fun cell cell' => cell = cell' ∧ ∀ p ∈ cell, chart.nonterminals[p]? = chart'.nonterminals[p]?)
    (chart.cell i j) (chart'.cell i j)

namespace Chart.Alike

variable {chart chart' : Chart}

theorem cell_eq (h : Alike chart chart') (i j : Nat) : chart.cell i j = chart'.cell i j := by
  have hcells := h.cells i j
  generalize chart.cell i j = x, chart'.cell i j = y at *
  cases hcells with
  | none => rfl
  | some h => exact congrArg some h.1

theorem symbols_eq (h : Alike chart chart') (i j : Nat) : chart.symbols i j = chart'.symbols i j := by
  have hcells := h.cells i j
  unfold symbols
  generalize chart.cell i j = x, chart'.cell i j = y at hcells
  cases hcells with
  | none => rfl
  | @some cell cell' h =>
    obtain ⟨rfl, hplaces⟩ := h
    exact List.filterMap_congr hplaces

theorem accepts_eq (h : Alike chart chart') (c : Char) : chart.accepts c = chart'.accepts c := by
  rw [accepts, accepts, h.length, h.symbols_eq]

theorem text_eq (h : Alike chart chart') (hupper : ∀ c ∈ chart.nonterminals, isUpper c = true)
    (hupper' : ∀ c ∈ chart'.nonterminals, isUpper c = true) : chart.text = chart'.text :=
  (text_eq_iff hupper hupper').mpr (table_eq_iff.mpr ⟨h.length, fun i j _ _ => h.symbols_eq i j⟩)

end Chart.Alike

namespace Grammar.Extends

section Charts

variable {base base' : Char → Cell} {leaf leaf' : Char → Char → Prop} (hx : g.Extends g')
  (hg : g.WellFormed) (hg' : g'.WellFormed) (hbase : ∀ a ∈ w, (base a).Marks g (leaf · a))
  (hbase' : ∀ a ∈ w, (base' a).Marks g' (leaf' · a))

include hx hg hg' hbase hbase'

/-- **A chart lies within that of a grammar that has more**, if what read a letter still reads it. -/
theorem below_ofBase (hleaf : ∀ c a, leaf c a → leaf' c a) :
    Chart.Below (.ofBase g (w.map base)) (.ofBase g' (w.map base')) where
  length := by rw [Chart.length_ofBase, Chart.length_ofBase]
  nonterminals := hx.nonterminals
  cells i j := Chart.rel_cell_ofBase hg hg' hbase hbase' fun cell cell' _ _ hmarks hmarks' p hp => by
    obtain ⟨c, hc, hcovers⟩ := (hmarks p).mp hp
    exact (hmarks' p).mpr ⟨c, hx.position?_eq hg' hc, hcovers.transfer hx.productions hleaf⟩

/-- **A chart is as it was if no production is new**: what covers a piece of the word heads a production or reads a
letter, so it is no new nonterminal. -/
theorem alike_ofBase (hsame : g'.productions = g.productions) (hleaf : ∀ c a, leaf c a ↔ leaf' c a)
    (hmem : ∀ a ∈ w, ∀ c, leaf c a → c ∈ g.nonterminals) :
    Chart.Alike (.ofBase g (w.map base)) (.ofBase g' (w.map base')) where
  length := by rw [Chart.length_ofBase, Chart.length_ofBase]
  cells i j := Chart.rel_cell_ofBase hg hg' hbase hbase' fun cell cell' _ _ hmarks hmarks' => by
    have hcovers : ∀ c u, g.Covers leaf c u ↔ g'.Covers leaf' c u := fun c u =>
      ⟨fun h => h.transfer hx.productions fun c a => (hleaf c a).mp,
        fun h => h.transfer (fun p hp => hsame ▸ hp) fun c a => (hleaf c a).mpr⟩
    refine ⟨OrderedSet.ext fun p => ?_, fun p hp => ?_⟩
    · -- both cells hold the places of the same characters, so only the places are to be compared
      simp only [hmarks p, hmarks' p, ← hcovers]
      refine exists_congr fun c => and_congr_left fun hcover => ?_
      have hc := hg.mem_of_covers (fun a ha c => hmem a (Span.slice_subset ha) c) hcover
      obtain ⟨q, hq⟩ := exists_position? hc
      rw [hq, hx.position?_eq hg' hq]
    · obtain ⟨c, hc, -⟩ := (hmarks p).mp hp
      exact (getElem?_of_position? hc).trans (getElem?_of_position? (hx.position?_eq hg' hc)).symm

end Charts

end Grammar.Extends

/-! ## Words and forms -/

namespace Grammar

section Both

variable (hx : g.Extends g') (hg : g.WellFormed) (hg' : g'.WellFormed)

include hx hg hg'

theorem Extends.wordChart_below {start : Char} (hs : g.start = some start) (hw : w ≠ [])
    (ht : ∀ a ∈ w, a ∈ g.terminals) : ∃ chart chart', g.wordChart w = .ok (chart, start) ∧
      g'.wordChart w = .ok (chart', start) ∧ Chart.Below chart chart' ∧
      (g'.productions = g.productions → Chart.Alike chart chart' ∧ chart.text = chart'.text) := by
  have hbase : ∀ a ∈ w, (g.letterCell a).Marks g (g.Writes · a) := fun a _ => marks_letterCell hg a
  have hbase' : ∀ a ∈ w, (g'.letterCell a).Marks g' (g'.Writes · a) := fun a _ => marks_letterCell hg' a
  refine ⟨_, _, wordChart_of_terminals hg hw hs ht,
    wordChart_of_terminals hg' hw (hx.start.trans hs) fun a ha => hx.terminals a (ht a ha),
    hx.below_ofBase hg hg' hbase hbase' fun c a => hx.productions _, fun hsame => ?_⟩
  have halike := hx.alike_ofBase hg hg' hbase hbase' hsame (fun c a => by rw [Writes, Writes, hsame])
    fun a _ c h => hg.head _ h
  exact ⟨halike, halike.text_eq hg.upper hg'.upper⟩

theorem Extends.formChart_below {form : Word} (hf : ∀ c ∈ form, c ∈ g.nonterminals) :
    ∃ chart chart', g.formChart form = .ok chart ∧ g'.formChart form = .ok chart' ∧
      Chart.Below chart chart' ∧
      (g'.productions = g.productions → Chart.Alike chart chart' ∧ chart.text = chart'.text) := by
  have hbase : ∀ a ∈ form, (g.symbolCell a).Marks g (· = a) := fun a _ => marks_symbolCell a
  have hbase' : ∀ a ∈ form, (g'.symbolCell a).Marks g' (· = a) := fun a _ => marks_symbolCell a
  refine ⟨_, _, formChart_of_nonterminals hf,
    formChart_of_nonterminals fun c hc => hx.nonterminals.subset (hf c hc),
    hx.below_ofBase hg hg' hbase hbase' fun c a => id, fun hsame => ?_⟩
  have halike := hx.alike_ofBase hg hg' hbase hbase' hsame (fun c a => Iff.rfl)
    fun a ha c hc => hc ▸ hf a ha
  exact ⟨halike, halike.text_eq hg.upper hg'.upper⟩

end Both

/-- **A grammar that grows only gains in its charts.** After any declarations and new productions, made or refused,
every nonterminal has the place that it had. The chart of a word over the old terminals keeps every place in every
cell, so a word that was derived still is; if there were only declarations, the cells, the answer and the rendered
chart are as before. The same holds of the charts of the sentential forms of old nonterminals. -/
theorem cells_grow_with_additions (hg : g.Reachable) (hadds : ∀ change ∈ history, change.IsAddition) :
    (∀ c p, g.position? c = some p → (g.after history).position? c = some p) ∧
    (∀ w start, g.start = some start → w ≠ [] → (∀ a ∈ w, a ∈ g.terminals) →
      ∃ chart chart', g.wordChart w = .ok (chart, start) ∧
        (g.after history).wordChart w = .ok (chart', start) ∧
        (∀ i j, Option.Rel (fun cell cell' => ∀ p ∈ cell, p ∈ cell') (chart.cell i j) (chart'.cell i j)) ∧
        (g.isDerived w = .ok true → (g.after history).isDerived w = .ok true) ∧
        ((∀ change ∈ history, change.IsDeclaration) →
          (∀ i j, chart'.cell i j = chart.cell i j) ∧
          (g.after history).isDerived w = g.isDerived w ∧
          (g.after history).wordChartText w = g.wordChartText w)) ∧
    ∀ form, (∀ c ∈ form, c ∈ g.nonterminals) →
      ∃ chart chart', g.formChart form = .ok chart ∧ (g.after history).formChart form = .ok chart' ∧
        (∀ i j, Option.Rel (fun cell cell' => ∀ p ∈ cell, p ∈ cell') (chart.cell i j) (chart'.cell i j)) ∧
        ((∀ change ∈ history, change.IsDeclaration) →
          (∀ i j, chart'.cell i j = chart.cell i j) ∧
          (g.after history).formChartText form = g.formChartText form) := by
  have hwf := hg.wellFormed
  have hwf' := (hg.after history).wellFormed
  have hx := Extends.after g hadds
  refine ⟨fun c p => hx.position?_eq hwf', fun w start hs hw ht => ?_, fun form hf => ?_⟩
  · obtain ⟨chart, chart', hchart, hchart', hbelow, hsame⟩ := hx.wordChart_below hwf hwf' hs hw ht
    refine ⟨chart, chart', hchart, hchart', hbelow.cells, fun h => ?_, fun hdecl => ?_⟩
    · simp only [isDerived, hchart, hchart', Except.map, Except.ok.injEq] at h ⊢
      exact hbelow.accepts h
    · obtain ⟨halike, htext⟩ := hsame (productions_after hdecl)
      refine ⟨fun i j => (halike.cell_eq i j).symm, ?_, ?_⟩
      · simp only [isDerived, hchart, hchart', Except.map, halike.accepts_eq]
      · simp only [wordChartText, hchart, hchart', Except.map, htext]
  · obtain ⟨chart, chart', hchart, hchart', hbelow, hsame⟩ := hx.formChart_below hwf hwf' hf
    refine ⟨chart, chart', hchart, hchart', hbelow.cells, fun hdecl => ?_⟩
    obtain ⟨halike, htext⟩ := hsame (productions_after hdecl)
    refine ⟨fun i j => (halike.cell_eq i j).symm, ?_⟩
    simp only [formChartText, hchart, hchart', Except.map, htext]

theorem textbook_grown_baaba :
    let additions : List Change := [.declareNonterminal 'D', .addWritten 'D' "AB", .declareNonterminal 'D',
      .add ⟨'S', .unary 'b'⟩]
    let declared : List Change := [.declareNonterminal 'D', .declareTerminal 'd']
    let w : Word := ['b', 'a', 'a', 'b', 'a']
    textbook.Reachable ∧ (textbook.after additions).position? 'C' = some 3 ∧
      (textbook.after additions).isDerived w = .ok true ∧
      (∃ chart chart', textbook.wordChart w = .ok (chart, 'S') ∧
        (textbook.after additions).wordChart w = .ok (chart', 'S') ∧ ∀ i j,
          Option.Rel (fun cell cell' => ∀ p ∈ cell, p ∈ cell') (chart.cell i j) (chart'.cell i j)) ∧
      (textbook.after additions).wordChartText w ≠ textbook.wordChartText w ∧
      (textbook.after declared).wordChartText w = textbook.wordChartText w ∧
      (textbook.after declared).formChartText ['B', 'C', 'A'] = textbook.formChartText ['B', 'C', 'A'] := by
  intro additions declared w
  have hadds : ∀ change ∈ additions, change.IsAddition := by simp [additions, Change.IsAddition]
  have hadds' : ∀ change ∈ declared, change.IsAddition := by simp [declared, Change.IsAddition]
  have hdecl : ∀ change ∈ declared, change.IsDeclaration := by simp [declared, Change.IsDeclaration]
  have hderived : textbook.isDerived w = .ok true := by decide +kernel
  have hletters : w.all (· ∈ textbook.terminals) = true := by decide +kernel
  have hnames : ['B', 'C', 'A'].all (· ∈ textbook.nonterminals) = true := by decide +kernel
  have hw : ∀ a ∈ w, a ∈ textbook.terminals := fun a ha =>
    of_decide_eq_true (List.all_eq_true.mp hletters a ha)
  obtain ⟨hplaces, hgrown, -⟩ := cells_grow_with_additions reachable_textbook hadds
  obtain ⟨-, hdeclared, hforms⟩ := cells_grow_with_additions reachable_textbook hadds'
  obtain ⟨chart, chart', hchart, hchart', hcells, haccepts, -⟩ := hgrown w 'S' rfl (by decide) hw
  obtain ⟨_, _, -, -, -, -, hsame⟩ := hdeclared w 'S' rfl (by decide) hw
  obtain ⟨_, _, -, -, -, hsameForm⟩ := hforms _ fun c hc => of_decide_eq_true (List.all_eq_true.mp hnames c hc)
  exact ⟨reachable_textbook, hplaces 'C' 3 (by decide +kernel), haccepts hderived,
    ⟨chart, chart', hchart, hchart', hcells⟩, by decide +kernel, (hsame hdecl).2.2, (hsameForm hdecl).2⟩

end Grammar

end Chomsky
