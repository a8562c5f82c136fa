import Chomsky.Proofs.Tree.Endless

/-!
# When growth gives a word

Growth fails if there is nothing to grow, at the root and with an error that names it. Otherwise it
returns a word: from a finite supply of numbers unless the supply runs dry, from an endless source if each
choice ends.

* **`randomWord_succeeds_iff_productive`**.
-/

namespace Chomsky.Grammar

variable {g : Grammar} {σ : Nat → UInt32} {c start : Char} {maxDepth : Nat}

/-- Each choice in the growth of a word on an endless source ends. -/
def EndsOn (g : Grammar) (σ : Nat → UInt32) (maxDepth : Nat) (c : Char) : Prop :=
  g.ChoicesEnd σ (maxDepth + g.nonterminals.length) maxDepth c 0

theorem local_randomWordFrom : (g.randomWordFrom maxDepth c).Local :=
  local_grow.bind fun t => Growth.local_pure t.yield

theorem exists_returns_randomWordFrom_iff (hg : g.WellFormed) (hc : g.Productive c) {k : Nat} :
    (∃ w k₁, (g.randomWordFrom maxDepth c).Returns σ k w k₁) ↔
      g.ChoicesEnd σ (maxDepth + g.nonterminals.length) maxDepth c k := by
  rw [← exists_returns_grow_iff hg (roomy_of_productive hg hc), randomWordFrom]
  constructor
  · rintro ⟨w, k₁, m, -, hrun⟩
    obtain ⟨t, d, hgrow, -⟩ := Growth.run_bind_eq_ok_iff.mp (hrun 0)
    obtain ⟨u, -, -, hret⟩ := local_grow _ _ _ _ _ hgrow
    exact ⟨t, _, hret⟩
  · rintro ⟨t, k₁, ht⟩
    exact ⟨_, _, Growth.Returns.bind ht (Growth.returns_pure t.yield)⟩

theorem exists_isDerived_iff_productive (hg : g.WellFormed) :
    (∃ w, g.isDerived w = .ok true) ↔ ∃ start, g.start = some start ∧ g.Productive start := by
  simp only [productive_iff_tree hg]
  constructor
  · rintro ⟨w, h⟩
    obtain ⟨chart, start, hchart, -⟩ := isDerived_eq_ok_iff.mp h
    obtain ⟨hs, -⟩ := (wordChart_eq_ok_iff hg).mp hchart
    obtain ⟨t, ht, hroot, -⟩ := (isDerived_eq_ok_true_iff_tree hg hs).mp h
    exact ⟨start, hs, t, ht, hroot⟩
  · rintro ⟨start, hs, t, ht, hroot⟩
    exact ⟨t.yield, (isDerived_eq_ok_true_iff_tree hg hs).mpr ⟨t, ht, hroot, rfl⟩⟩

theorem run_randomWord_of_no_start (hs : g.start = none) (d : Draws) :
    (g.randomWord maxDepth).run.run d = (.error .noStartSymbol, d) := by
  rw [randomWord, hs]
  rfl

theorem randomWord_of_start (hs : g.start = some start) :
    g.randomWord maxDepth = g.randomWordFrom maxDepth start := by
  rw [randomWord, hs]

theorem run_randomWordFrom_cases (hg : g.WellFormed) (maxDepth : Nat) (c : Char) (d : Draws) :
    (g.Productive c ∧ ∃ w d', (g.randomWordFrom maxDepth c).run.run d = (.ok w, d')) ∨
      (g.Productive c ∧ ∃ d', (g.randomWordFrom maxDepth c).run.run d = (.error .outOfDraws, d') ∧
        d'.size = 0) ∨
      (¬ g.Productive c ∧ (g.randomWordFrom maxDepth c).run.run d = (.error (g.whyBarren c), d)) := by
  by_cases hc : g.Productive c
  · rcases hrun : (g.randomWordFrom maxDepth c).run.run d with ⟨e | w, d'⟩
    · obtain ⟨rfl, hdry⟩ := onlyRunsDry_randomWordFrom hg hc d e d' hrun
      exact .inr (.inl ⟨hc, d', rfl, hdry⟩)
    · exact .inl ⟨hc, w, d', rfl⟩
  · exact .inr (.inr ⟨hc, run_randomWordFrom_of_not_productive hg hc d⟩)

theorem run_randomWordFrom_of_productive (hg : g.WellFormed) (hc : g.Productive c) (d : Draws) :
    (∃ w d', (g.randomWordFrom maxDepth c).run.run d = (.ok w, d')) ∨
      ∃ d', (g.randomWordFrom maxDepth c).run.run d = (.error .outOfDraws, d') ∧ d'.size = 0 := by
  rcases run_randomWordFrom_cases hg maxDepth c d with ⟨-, h⟩ | ⟨-, h⟩ | ⟨hc', -⟩
  · exact .inl h
  · exact .inr h
  · exact absurd hc hc'

theorem run_randomWord_eq_noStartSymbol_iff (hg : g.WellFormed) (d : Draws) :
    ((g.randomWord maxDepth).run.run d).1 = .error .noStartSymbol ↔ g.start = none := by
  cases hs : g.start with
  | none => simp [run_randomWord_of_no_start hs]
  | some start =>
    rw [randomWord_of_start hs]
    rcases run_randomWordFrom_cases hg maxDepth start d with
      ⟨-, w, d', h⟩ | ⟨-, d', h, -⟩ | ⟨-, h⟩ <;> rw [h]
    · simp
    · simp
    · rw [whyBarren]
      split <;> simp

/-- **Growth returns a word if and only if the grammar derives one**, unless the supply runs dry. -/
theorem exists_run_randomWord_iff (hg : g.WellFormed) {d : Draws}
    (hdry : ((g.randomWord maxDepth).run.run d).1 ≠ .error .outOfDraws) :
    (∃ w, ((g.randomWord maxDepth).run.run d).1 = .ok w) ↔ ∃ w, g.isDerived w = .ok true := by
  rw [exists_isDerived_iff_productive hg]
  cases hs : g.start with
  | none => simp [run_randomWord_of_no_start hs]
  | some start =>
    rw [randomWord_of_start hs] at hdry ⊢
    rcases run_randomWordFrom_cases hg maxDepth start d with
      ⟨hc, w, d', h⟩ | ⟨-, d', h, -⟩ | ⟨hc, h⟩ <;> rw [h] at hdry ⊢
    · simp [hc]
    · exact absurd rfl hdry
    · simp [hc]

theorem exists_returns_randomWord_iff (hg : g.WellFormed)
    (hends : ∀ start, g.start = some start → g.EndsOn σ maxDepth start) :
    (∃ w k, (g.randomWord maxDepth).Returns σ 0 w k) ↔ ∃ w, g.isDerived w = .ok true := by
  rw [exists_isDerived_iff_productive hg]
  constructor
  · rintro ⟨w, k, t, -, hrun⟩
    have h := congrArg Prod.fst (hrun 0)
    cases hs : g.start with
    | none =>
      rw [run_randomWord_of_no_start hs] at h
      cases h
    | some start =>
      refine ⟨start, rfl, by_contra fun hc => ?_⟩
      rw [randomWord_of_start hs, run_randomWordFrom_of_not_productive hg hc] at h
      cases h
  · rintro ⟨start, hs, hc⟩
    rw [randomWord_of_start hs]
    exact (exists_returns_randomWordFrom_iff hg hc).mpr (hends start hs)

/-- **Growth fails exactly if there is nothing to grow, and at once**: for a symbol that no word can be
derived from the error names the symbol itself and no number is taken, whatever the depth bound and the
numbers. From any other symbol a word is returned, from a finite supply unless it runs dry and from an
endless source just if each choice ends; no node without height or candidates comes up. -/
theorem randomWord_succeeds_iff_productive (hg : g.Reachable) :
    (∀ c, c ∉ g.terminals → (g.Productive c ↔ ∃ w, g.Derives [c] w ∧ ∀ a ∈ w, a ∈ g.terminals)) ∧
    (∀ c, ¬ g.Productive c → ∀ maxDepth d, (g.randomWordFrom maxDepth c).run.run d =
      (.error (if g.alternatives c = [] then .undefinedNonterminal c else .unproductive c), d)) ∧
    (∀ c, g.Productive c → ∀ maxDepth,
      (∀ d, (∃ w d', (g.randomWordFrom maxDepth c).run.run d = (.ok w, d')) ∨
        ∃ d', (g.randomWordFrom maxDepth c).run.run d = (.error .outOfDraws, d') ∧ d'.size = 0) ∧
      (∀ σ, (∃ w k, (g.randomWordFrom maxDepth c).Returns σ 0 w k) ↔ g.EndsOn σ maxDepth c) ∧
      ∀ room c', g.Visits maxDepth c room c' → (∃ least, g.leastHeights.get? c' = some least) ∧
        ∃ candidates, g.candidates g.leastHeights room c' = .ok candidates ∧ candidates ≠ []) ∧
    (∀ maxDepth d, ((g.randomWord maxDepth).run.run d).1 = .error .noStartSymbol ↔ g.start = none) ∧
    (∀ start, g.start = some start →
      ∀ maxDepth, g.randomWord maxDepth = g.randomWordFrom maxDepth start) ∧
    (∀ maxDepth d, ((g.randomWord maxDepth).run.run d).1 ≠ .error .outOfDraws →
      ((∃ w, ((g.randomWord maxDepth).run.run d).1 = .ok w) ↔ ∃ w, g.isDerived w = .ok true)) ∧
    ∀ maxDepth σ, (∀ start, g.start = some start → g.EndsOn σ maxDepth start) →
      ((∃ w k, (g.randomWord maxDepth).Returns σ 0 w k) ↔ ∃ w, g.isDerived w = .ok true) := by
  have hwf := hg.wellFormed
  refine ⟨fun c => productive_iff_derives, fun c hc maxDepth d => ?_,
    fun c hc maxDepth => ⟨fun d => ?_, fun σ => ?_, fun room c' h => ?_⟩, fun maxDepth d => ?_,
    fun start hs maxDepth => ?_, fun maxDepth d hdry => ?_, fun maxDepth σ hends => ?_⟩
  · exact run_randomWordFrom_of_not_productive hwf hc d
  · exact run_randomWordFrom_of_productive hwf hc d
  · exact exists_returns_randomWordFrom_iff hwf hc
  · exact exists_candidates_of_visits hwf hc h
  · exact run_randomWord_eq_noStartSymbol_iff hwf d
  · exact randomWord_of_start hs
  · exact exists_run_randomWord_iff hwf hdry
  · exact exists_returns_randomWord_iff hwf hends

/-- A grammar in which `S` may lead to `C`, which derives no word, and `D` has no alternatives. -/
def thicket : Grammar := (∅ : Grammar).after
  [.declareNonterminal 'S', .declareNonterminal 'C', .declareNonterminal 'D', .declareTerminal 'a',
    .setStart 'S', .add ⟨'S', .binary 'S' 'C'⟩, .add ⟨'S', .binary 'S' 'S'⟩, .add ⟨'S', .unary 'a'⟩,
    .add ⟨'C', .binary 'C' 'D'⟩]

theorem reachable_thicket : thicket.Reachable := Reachable.empty.after _

theorem thicket_grows : thicket.Reachable ∧ thicket.start = some 'S' ∧ thicket.Productive 'S' ∧
    ¬ thicket.Productive 'C' ∧
    (∀ maxDepth d, (thicket.randomWordFrom maxDepth 'C').run.run d = (.error (.unproductive 'C'), d)) ∧
    (∀ maxDepth d, (thicket.randomWordFrom maxDepth 'D').run.run d =
      (.error (.undefinedNonterminal 'D'), d)) ∧
    ∃ w k, (thicket.randomWord 3).Returns (fun _ => 0) 0 w k := by
  have hg : thicket.Reachable := Reachable.empty.after _
  have hproductive : ∀ c, thicket.Productive c ↔ ∃ h, thicket.leastHeights.get? c = some h :=
    fun c => productive_iff_get?_leastHeights hg.wellFormed
  have hS : thicket.Productive 'S' := (hproductive 'S').mpr ⟨1, by decide +kernel⟩
  have hC : ¬ thicket.Productive 'C' := by
    rw [hproductive, (by decide +kernel : thicket.leastHeights.get? 'C' = none)]
    simp
  have hD : ¬ thicket.Productive 'D' := by
    rw [hproductive, (by decide +kernel : thicket.leastHeights.get? 'D' = none)]
    simp
  obtain ⟨-, hfails, -, -, -, -, hreturns⟩ := randomWord_succeeds_iff_productive hg
  refine ⟨hg, by decide +kernel, hS, hC, fun maxDepth d => ?_, fun maxDepth d => ?_, ?_⟩
  · rw [hfails 'C' hC, if_neg (by decide +kernel)]
  · rw [hfails 'D' hD, if_pos (by decide +kernel)]
  · refine (hreturns 3 (fun _ => 0) fun start _ => ?_).mpr ⟨['a', 'a'], by decide +kernel⟩
    refine choicesEnd_of_forall fun n k hn => ⟨k, Nat.le_refl k, ?_⟩
    rw [pick_zero hn]
    exact Option.some_ne_none 0

end Chomsky.Grammar
