import Chomsky.Proofs.Chart.Form

/-!
# Charts of grammars that differ in their order

The nonterminals of a grammar have places in the order of their declaration, and the cells of a chart hold
these places. In another order the cells hold other numbers, but they stand for the same nonterminals: what a
cell marks is a matter of the productions alone.

* **`Grammar.Reordered`**: the same grammar, declared in another order;
* **`Chart.Agrees`**, with `Agrees.mem_symbols_iff`, `Agrees.accepts_eq`: charts that stand for the same nonterminals;
* **`Reordered.wordChart_agrees`**, `Reordered.formChart_agrees`, **`Reordered.isDerived_eq`**.
-/

namespace Chomsky

variable {g g' : Grammar} {c : Char} {u w form : Word} {i j : Nat}

/-- **Two grammars that differ in the order of declaration at most.** -/
structure Grammar.Reordered (g g' : Grammar) : Prop where
  nonterminals : g.nonterminals.Perm g'.nonterminals
  terminals : ∀ c, c ∈ g.terminals ↔ c ∈ g'.terminals
  start : g.start = g'.start
  alternatives : ∀ head a, a ∈ g.alternatives head ↔ a ∈ g'.alternatives head

/-! ## Covers -/

namespace Grammar.Reordered

theorem mem_productions_iff (h : g.Reordered g') {p : Production} :
    p ∈ g.productions ↔ p ∈ g'.productions := h.alternatives p.head p.alternative

theorem alternatives_eq (h : g.Reordered g') (head : Char) :
    g.alternatives head = g'.alternatives head :=
  congrArg OrderedSet.toList (OrderedSet.ext (h.alternatives head))

theorem covers_iff {leaf : Char → Char → Prop} (h : g.Reordered g') :
    g.Covers leaf c w ↔ g'.Covers leaf c w :=
  ⟨fun hc => hc.transfer (fun _ => h.mem_productions_iff.mp) fun _ _ => id,
    fun hc => hc.transfer (fun _ => h.mem_productions_iff.mpr) fun _ _ => id⟩

theorem covers_writes_iff (h : g.Reordered g') : g.Covers g.Writes c w ↔ g'.Covers g'.Writes c w :=
  ⟨fun hc => hc.transfer (fun _ => h.mem_productions_iff.mp) fun _ _ => h.mem_productions_iff.mp,
    fun hc => hc.transfer (fun _ => h.mem_productions_iff.mpr) fun _ _ => h.mem_productions_iff.mpr⟩

end Grammar.Reordered

/-! ## Charts that agree -/

/-- **The charts of two grammars stand for the same nonterminals**: there are the same cells, and each holds
the places of the same characters, each by the order of its own grammar. -/
structure Chart.Agrees (g g' : Grammar) (chart chart' : Chart) : Prop where
  length : chart.length = chart'.length
  left : chart.nonterminals = g.nonterminals
  right : chart'.nonterminals = g'.nonterminals
  cells : ∀ i j, Option.Rel (fun cell cell' => ∃ P, cell.Marks g P ∧ cell'.Marks g' P)
    (chart.cell i j) (chart'.cell i j)

namespace Chart.Agrees

variable {chart chart' : Chart}

theorem mem_symbols_iff (hn : g.nonterminals.Perm g'.nonterminals) (h : Agrees g g' chart chart') :
    c ∈ chart.symbols i j ↔ c ∈ chart'.symbols i j := by
  have hcells := h.cells i j
  generalize hcell : chart.cell i j = x, hcell' : chart'.cell i j = y at hcells
  cases hcells with
  | none => rw [symbols, symbols, hcell, hcell']
  | some hmarks =>
    obtain ⟨P, hP, hP'⟩ := hmarks
    rw [mem_symbols_of_marks h.left hcell hP, mem_symbols_of_marks h.right hcell' hP', hn.mem_iff]

theorem accepts_eq (hn : g.nonterminals.Perm g'.nonterminals) (h : Agrees g g' chart chart') (c : Char) :
    chart.accepts c = chart'.accepts c := by
  have hmem := h.mem_symbols_iff hn (c := c) (i := 0) (j := chart'.length - 1)
  rw [accepts, accepts, h.length, decide_eq_decide.mpr hmem]

end Chart.Agrees

namespace Grammar.Reordered

theorem agrees_ofBase (hg : g.WellFormed) (hg' : g'.WellFormed) {base base' : Char → Cell}
    {leaf leaf' : Char → Char → Prop} (hbase : ∀ a ∈ w, (base a).Marks g (leaf · a))
    (hbase' : ∀ a ∈ w, (base' a).Marks g' (leaf' · a))
    (hcovers : ∀ c u, g.Covers leaf c u ↔ g'.Covers leaf' c u) :
    Chart.Agrees g g' (.ofBase g (w.map base)) (.ofBase g' (w.map base')) where
  length := by rw [Chart.length_ofBase, Chart.length_ofBase]
  left := rfl
  right := rfl
  cells i j := Chart.rel_cell_ofBase hg hg' hbase hbase' fun cell cell' _ _ hmarks hmarks' => by
    simp only [← hcovers] at hmarks'
    exact ⟨_, hmarks, hmarks'⟩

/-! ## Words and forms -/

theorem wordChart_eq_error_iff (hg : g.WellFormed) (hg' : g'.WellFormed) (h : g.Reordered g')
    {e : ChartError} : g.wordChart w = .error e ↔ g'.wordChart w = .error e := by
  rw [Grammar.wordChart_eq_error_iff hg, Grammar.wordChart_eq_error_iff hg', h.start,
    OrderedSet.ext h.terminals]

/-- **The charts of a word agree**, or there is none for the same reason. -/
theorem wordChart_agrees (hg : g.WellFormed) (hg' : g'.WellFormed) (h : g.Reordered g') (w : Word) :
    (∃ e, g.wordChart w = .error e ∧ g'.wordChart w = .error e) ∨
      ∃ chart chart' start, g.wordChart w = .ok (chart, start) ∧ g'.wordChart w = .ok (chart', start) ∧
        Chart.Agrees g g' chart chart' := by
  rcases hw : g.wordChart w with e | ⟨chart, start⟩
  · exact .inl ⟨e, rfl, (h.wordChart_eq_error_iff hg hg').mp hw⟩
  · obtain ⟨hs, hne, ht, rfl⟩ := (wordChart_eq_ok_iff hg).mp hw
    refine .inr ⟨_, .ofBase g' (w.map g'.letterCell), start, rfl, ?_, ?_⟩
    · exact wordChart_of_terminals hg' hne (h.start ▸ hs) fun c hc => (h.terminals c).mp (ht c hc)
    · exact agrees_ofBase hg hg' (fun a _ => marks_letterCell hg a) (fun a _ => marks_letterCell hg' a)
        fun _ _ => h.covers_writes_iff

theorem formChart_agrees (hg : g.WellFormed) (hg' : g'.WellFormed) (h : g.Reordered g') (form : Word) :
    (∃ e, g.formChart form = .error e ∧ g'.formChart form = .error e) ∨
      ∃ chart chart', g.formChart form = .ok chart ∧ g'.formChart form = .ok chart' ∧
        Chart.Agrees g g' chart chart' := by
  by_cases hf : ∀ c ∈ form, c ∈ g.nonterminals
  · refine .inr ⟨_, _, formChart_of_nonterminals hf,
      formChart_of_nonterminals fun c hc => h.nonterminals.mem_iff.mp (hf c hc), ?_⟩
    exact agrees_ofBase hg hg' (fun a _ => marks_symbolCell a) (fun a _ => marks_symbolCell a)
      fun _ _ => h.covers_iff
  · obtain ⟨c, hc⟩ := Option.ne_none_iff_exists'.mp fun hnone =>
      hf ((find?_eq_none_iff_forall fun _ => isNonterminal_iff).mp hnone)
    have hfirst := (find?_eq_some_iff_firstWithout fun _ => isNonterminal_iff).mp hc
    have hfirst' : FirstWithout (· ∈ g'.nonterminals) form c := by
      simpa only [FirstWithout, h.nonterminals.mem_iff] using hfirst
    exact .inl ⟨_, formChart_eq_error_iff.mpr ⟨c, rfl, hfirst⟩,
      formChart_eq_error_iff.mpr ⟨c, rfl, hfirst'⟩⟩

/-- **Both grammars derive the same words.** -/
theorem isDerived_eq (hg : g.WellFormed) (hg' : g'.WellFormed) (h : g.Reordered g') (w : Word) :
    g.isDerived w = g'.isDerived w := by
  rcases h.wordChart_agrees hg hg' w with ⟨e, hw, hw'⟩ | ⟨chart, chart', start, hw, hw', hagrees⟩
  · rw [isDerived_eq_error_iff.mpr hw, isDerived_eq_error_iff.mpr hw']
  · rw [isDerived_eq_ok_iff.mpr ⟨chart, start, hw, rfl⟩, isDerived_eq_ok_iff.mpr ⟨chart', start, hw', rfl⟩,
      hagrees.accepts_eq h.nonterminals]

end Grammar.Reordered

end Chomsky
