import Chomsky.Proofs.Chart.Recognition
import Chomsky.Proofs.Grammar.Alternatives
import Chomsky.Proofs.Tree.Growth

/-!
# The language that grows

The words that grow from a nonterminal are the ones whose chart accepts it. Any tree of height within
the depth bound can grow, because above the bound a node may choose every alternative that derives a
word.

* **`exists_script_of_fits`**, `exists_script_of_tree`: numbers for the yield of any tree of the grammar;
* `exists_randomWordFrom_iff_tree`, **`randomWord_iff_isDerived`**.
-/

namespace Chomsky

variable {g : Grammar} {c : Char} {w : Word} {room maxDepth : Nat}

/-! ## Trees within the depth bound -/

namespace Tree

theorem length_yield_pos (t : Tree) : 0 < t.yield.length := by
  have h := t.size_add_one
  omega

theorem height_le_length_yield : ∀ t : Tree, t.height ≤ t.yield.length
  | leaf _ _ => Nat.le_refl 1
  | branch _ l r => by
    have hl := height_le_length_yield l
    have hr := height_le_length_yield r
    have hposl := l.length_yield_pos
    have hposr := r.length_yield_pos
    show 1 + max l.height r.height ≤ (l.yield ++ r.yield).length
    rw [List.length_append]
    omega

theorem Fits.offers (hg : g.WellFormed) {t : Tree} (ht : t.Fits g) (hroom : 0 < room) :
    g.Offers g.leastHeights room t.root t.alternative := by
  obtain ⟨least, hleast, -⟩ := Grammar.exists_leastHeight ht
  obtain ⟨h, hh, -⟩ := ht.exists_leastHeight
  refine Grammar.offers_iff.mpr ⟨ht.alternative_mem, least, ?_, ?_⟩
  · exact (Grammar.get?_leastHeights_eq_some_iff hg).mpr hleast
  · rw [Alternative.isCandidate, (Grammar.height?_leastHeights_eq_some_iff hg).mpr hh]
    simp [hroom]

theorem Fits.grown (hg : g.WellFormed) {t : Tree} (ht : t.Fits g) (hroom : t.height ≤ room) :
    t.Grown g g.leastHeights room := by
  induction t generalizing room with
  | leaf c a => exact ht.offers hg (by exact hroom : 0 < room)
  | branch c l r ihl ihr =>
    have hheight : 1 + max l.height r.height ≤ room := hroom
    refine ⟨ht.offers hg (by omega : 0 < room), ?_, ?_⟩
    · exact ihl ht.2.1 (by omega)
    · exact ihr ht.2.2 (by omega)

theorem Fits.yield_subset (hg : g.WellFormed) : ∀ {t : Tree}, t.Fits g →
    ∀ a ∈ t.yield, a ∈ g.terminals
  | leaf _ _, ht, _, ha => by
    rw [List.mem_singleton.mp ha]
    exact hg.declares _ ht
  | branch _ _ _, ⟨_, hl, hr⟩, a, ha => by
    rcases List.mem_append.mp ha with ha | ha
    · exact hl.yield_subset hg a ha
    · exact hr.yield_subset hg a ha

end Tree

/-! ## The words that grow -/

theorem run_randomWordFrom_eq_ok_iff {d d' : Draws} :
    (g.randomWordFrom maxDepth c).run.run d = (.ok w, d') ↔
      ∃ t : Tree, (g.growTree maxDepth c).run.run d = (.ok t, d') ∧ t.yield = w := by
  rw [Grammar.randomWordFrom, Growth.run_bind_eq_ok_iff]
  constructor
  · rintro ⟨t, d₁, h1, h2⟩
    cases h2
    exact ⟨t, h1, rfl⟩
  · rintro ⟨t, h1, rfl⟩
    exact ⟨t, d', h1, rfl⟩

theorem exists_tree_of_randomWordFrom {d : Draws}
    (h : ((g.randomWordFrom maxDepth c).run.run d).1 = .ok w) :
    ∃ t : Tree, t.Fits g ∧ t.root = c ∧ t.yield = w := by
  obtain ⟨t, hrun, hw⟩ := run_randomWordFrom_eq_ok_iff.mp (Prod.ext h rfl)
  obtain ⟨hroot, hgrown⟩ := grown_of_grow hrun
  exact ⟨t, hgrown.fits, hroot, hw⟩

/-- **The yield of a tree within the depth bound grows** from as many numbers as the tree has nodes. -/
theorem exists_script_of_fits (hg : g.WellFormed) {t : Tree} (ht : t.Fits g)
    (hheight : t.height ≤ maxDepth) : ∃ script : List UInt32, script.length = t.size ∧
      ∀ rest state reserve, (g.randomWordFrom maxDepth t.root).run.run
        ⟨script ++ rest, state, reserve⟩ = (.ok t.yield, ⟨rest, state, reserve⟩) := by
  obtain ⟨script, hlen, hscript⟩ := exists_script_of_grown (fun c => hg.length_alternatives_lt c)
    (ht.grown hg hheight) (Nat.le_add_right_of_le hheight)
  refine ⟨script, hlen, fun rest state reserve => ?_⟩
  exact run_randomWordFrom_eq_ok_iff.mpr ⟨t, hscript rest state reserve, rfl⟩

theorem exists_script_of_tree (hg : g.WellFormed) (hlen : w.length ≤ maxDepth)
    (h : ∃ t : Tree, t.Fits g ∧ t.root = c ∧ t.yield = w) :
    ∃ script, ((g.randomWordFrom maxDepth c).run.run ⟨script, 0, 0⟩).1 = .ok w := by
  obtain ⟨t, ht, rfl, rfl⟩ := h
  have hheight := Nat.le_trans t.height_le_length_yield hlen
  obtain ⟨script, -, hscript⟩ := exists_script_of_fits hg ht hheight
  have hrun := hscript [] 0 0
  rw [List.append_nil] at hrun
  exact ⟨script, by rw [hrun]⟩

theorem exists_randomWordFrom_iff_tree (hg : g.WellFormed) :
    (∃ maxDepth script, ((g.randomWordFrom maxDepth c).run.run ⟨script, 0, 0⟩).1 = .ok w) ↔
      ∃ t : Tree, t.Fits g ∧ t.root = c ∧ t.yield = w := by
  constructor
  · rintro ⟨maxDepth, script, h⟩
    exact exists_tree_of_randomWordFrom h
  · exact fun h => ⟨w.length, exists_script_of_tree hg (Nat.le_refl _) h⟩

/-! ## Growth and recognition -/

namespace Grammar

variable {start : Char}

theorem accepts_wordChart_iff_tree (hg : g.WellFormed) (hw : w ≠ []) (ht : ∀ a ∈ w, a ∈ g.terminals) :
    (Chart.ofBase g (w.map g.letterCell)).accepts c = true ↔
      ∃ t : Tree, t.Fits g ∧ t.root = c ∧ t.yield = w := by
  rw [accepts_wordChart_iff hg hw ht, ← covers_writes_iff_tree, hg.derives_iff_covers]
  constructor
  · rintro ⟨hc, h⟩
    exact (hg.covers_leads_iff_writes hc ht).mp h
  · intro h
    obtain ⟨t, hfits, rfl, -⟩ := covers_writes_iff_tree.mp h
    have hc := hfits.root_mem hg
    exact ⟨hc, (hg.covers_leads_iff_writes hc ht).mpr h⟩

theorem exists_tree_iff_accepts (hg : g.WellFormed) (hs : g.start = some start) :
    (∃ t : Tree, t.Fits g ∧ t.root = c ∧ t.yield = w) ↔
      ∃ chart, g.wordChart w = .ok (chart, start) ∧ chart.accepts c = true := by
  constructor
  · intro h
    obtain ⟨t, hfits, -, rfl⟩ := id h
    have hw : t.yield ≠ [] := List.ne_nil_of_length_pos t.length_yield_pos
    have ht := hfits.yield_subset hg
    exact ⟨_, wordChart_of_terminals hg hw hs ht, (accepts_wordChart_iff_tree hg hw ht).mpr h⟩
  · rintro ⟨chart, hchart, haccepts⟩
    obtain ⟨-, hw, ht, rfl⟩ := (wordChart_eq_ok_iff hg).mp hchart
    exact (accepts_wordChart_iff_tree hg hw ht).mp haccepts

theorem isDerived_eq_ok_true_iff_tree (hg : g.WellFormed) (hs : g.start = some start) :
    g.isDerived w = .ok true ↔ ∃ t : Tree, t.Fits g ∧ t.root = start ∧ t.yield = w := by
  rw [isDerived_eq_ok_iff, exists_tree_iff_accepts hg hs]
  constructor
  · rintro ⟨chart, start', hchart, haccepts⟩
    obtain ⟨hs', -⟩ := (wordChart_eq_ok_iff hg).mp hchart
    cases hs.symm.trans hs'
    exact ⟨chart, hchart, haccepts⟩
  · rintro ⟨chart, hchart, haccepts⟩
    exact ⟨chart, start, hchart, haccepts⟩

/-- **Growth and recognition agree**: the words that grow from a nonterminal, for some depth bound and
some numbers, are those whose chart accepts it; the words of the grammar are those it derives. Any
depth bound from the length of the word on will do. -/
theorem randomWord_iff_isDerived (hg : g.Reachable) (hs : g.start = some start) (w : Word) :
    ((∃ maxDepth script, ((g.randomWord maxDepth).run.run ⟨script, 0, 0⟩).1 = .ok w) ↔
      g.isDerived w = .ok true) ∧
    (∀ c, (∃ maxDepth script, ((g.randomWordFrom maxDepth c).run.run ⟨script, 0, 0⟩).1 = .ok w) ↔
      w ≠ [] ∧ (∀ a ∈ w, a ∈ g.terminals) ∧
        ∃ chart, g.wordChart w = .ok (chart, start) ∧ chart.accepts c = true) ∧
    ∀ c chart, g.wordChart w = .ok (chart, start) → chart.accepts c = true → ∀ maxDepth ≥ w.length,
      ∃ script, ((g.randomWordFrom maxDepth c).run.run ⟨script, 0, 0⟩).1 = .ok w := by
  have hwf := hg.wellFormed
  refine ⟨?_, fun c => ?_, fun c chart hchart haccepts maxDepth hlen => ?_⟩
  · have hstart : ∀ maxDepth, g.randomWord maxDepth = g.randomWordFrom maxDepth start := by
      intro maxDepth
      rw [randomWord, hs]
    simp only [hstart]
    rw [exists_randomWordFrom_iff_tree hwf, isDerived_eq_ok_true_iff_tree hwf hs]
  · rw [exists_randomWordFrom_iff_tree hwf, exists_tree_iff_accepts hwf hs]
    constructor
    · rintro ⟨chart, hchart, haccepts⟩
      obtain ⟨-, hw, ht, -⟩ := (wordChart_eq_ok_iff hwf).mp hchart
      exact ⟨hw, ht, chart, hchart, haccepts⟩
    · rintro ⟨-, -, h⟩
      exact h
  · have htree := (exists_tree_iff_accepts hwf hs).mpr ⟨chart, hchart, haccepts⟩
    exact exists_script_of_tree hwf hlen htree

theorem textbook_grows_baaba : textbook.Reachable ∧ textbook.start = some 'S' ∧
    ∃ maxDepth script, ((textbook.randomWord maxDepth).run.run ⟨script, 0, 0⟩).1 =
      .ok ['b', 'a', 'a', 'b', 'a'] := by
  have hanswer : textbook.isDerived ['b', 'a', 'a', 'b', 'a'] = .ok true := by decide +kernel
  refine ⟨reachable_textbook, rfl, ?_⟩
  exact (randomWord_iff_isDerived reachable_textbook rfl _).1.mpr hanswer

end Grammar

end Chomsky
