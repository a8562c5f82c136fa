import Chomsky.Proofs.Grammar.Change

/-!
# Well-formed grammars

What every change of a grammar keeps. Symbols have the letter case of their kind and nonterminals are
declared once; the start symbol and the productions mention declared symbols only, and a head that has
an entry has a production.

* **`WellFormed.attempt`**, `WellFormed.after`: no change spoils a grammar.
-/

namespace Chomsky.Grammar

variable {g g' : Grammar} {c : Char}

/-! ## The invariant -/

/-- **A well-formed grammar.** -/
structure WellFormed (g : Grammar) : Prop where
  nodup : g.nonterminals.Nodup
  upper : ∀ c ∈ g.nonterminals, isUpper c = true
  lower : ∀ c ∈ g.terminals, isLower c = true
  start : ∀ c, g.start = some c → c ∈ g.nonterminals
  head : ∀ p ∈ g.productions, p.head ∈ g.nonterminals
  declares : ∀ p ∈ g.productions, g.Declares p.alternative
  occupied : ∀ c as, g.productions.get? c = some as → as ≠ ∅

theorem Declares.mono {a : Alternative} (h : g.Declares a) (hn : g.nonterminals ⊆ g'.nonterminals)
    (ht : ∀ c ∈ g.terminals, c ∈ g'.terminals) : g'.Declares a := by
  cases a with
  | binary left right => exact ⟨hn h.1, hn h.2⟩
  | unary terminal => exact ht _ h

namespace WellFormed

theorem empty : (∅ : Grammar).WellFormed where
  nodup := List.nodup_nil
  upper _ hc := absurd hc List.not_mem_nil
  lower c hc := absurd hc (OrderedSet.not_mem_empty c)
  start _ hc := nomatch hc
  head p hp := absurd hp (Productions.not_mem_empty p)
  declares p hp := absurd hp (Productions.not_mem_empty p)
  occupied _ _ hc := nomatch hc

theorem not_isNonterminal_of_isTerminal (h : g.WellFormed) (hc : c ∈ g.terminals) :
    c ∉ g.nonterminals := fun hn => by
  have hupper := isUpper_eq_false_of_isLower (h.lower c hc)
  rw [h.upper c hn] at hupper
  exact Bool.noConfusion hupper

theorem declareNonterminal (h : g.WellFormed) (e : g.declareNonterminal c = (.ok (), g')) :
    g'.WellFormed := by
  obtain ⟨hu, hd, rfl⟩ := declareNonterminal_eq_ok_iff.mp e
  have hsub : g.nonterminals ⊆ g.nonterminals ++ [c] := List.subset_append_left _ _
  refine ⟨?_, ?_, h.lower, fun c hc => hsub (h.start c hc), fun p hp => hsub (h.head p hp),
    fun p hp => (h.declares p hp).mono hsub fun _ => id, h.occupied⟩
  · exact List.nodup_append.mpr ⟨h.nodup, List.pairwise_singleton _ c, fun a ha b hb hab => by
      rw [List.mem_singleton.mp hb] at hab
      exact hd (hab ▸ ha)⟩
  · intro a ha
    rcases List.mem_append.mp ha with ha | ha
    · exact h.upper a ha
    · rwa [List.mem_singleton.mp ha]

theorem declareTerminal (h : g.WellFormed) (e : g.declareTerminal c = (.ok (), g')) : g'.WellFormed := by
  obtain ⟨hl, -, rfl⟩ := declareTerminal_eq_ok_iff.mp e
  have hsub : ∀ a ∈ g.terminals, a ∈ g.terminals.insert c := fun a ha =>
    OrderedSet.mem_insert.mpr (.inr ha)
  refine ⟨h.nodup, h.upper, ?_, h.start, h.head,
    fun p hp => (h.declares p hp).mono (List.Subset.refl _) hsub, h.occupied⟩
  intro a ha
  rcases OrderedSet.mem_insert.mp ha with rfl | ha
  · exact hl
  · exact h.lower a ha

theorem setStart (h : g.WellFormed) (e : g.setStart c = (.ok (), g')) : g'.WellFormed := by
  obtain ⟨hc, rfl⟩ := setStart_eq_ok_iff.mp e
  refine ⟨h.nodup, h.upper, h.lower, ?_, h.head, h.declares, h.occupied⟩
  intro a ha
  rwa [← Option.some.inj ha]

theorem add {p : Production} (h : g.WellFormed) (e : g.add p = (.ok (), g')) : g'.WellFormed := by
  obtain ⟨hh, hd, -, rfl⟩ := add_eq_ok_iff.mp e
  refine ⟨h.nodup, h.upper, h.lower, h.start, ?_, ?_, ?_⟩
  · intro q hq
    rcases Productions.mem_insert.mp hq with rfl | hq
    · exact hh
    · exact h.head q hq
  · intro q hq
    rcases Productions.mem_insert.mp hq with rfl | hq
    · exact hd
    · exact h.declares q hq
  · intro c as hc
    rw [Productions.get?_insert] at hc
    split at hc
    · rw [← Option.some.inj hc]
      exact OrderedSet.insert_ne_empty _ _
    · exact h.occupied c as hc

theorem apply (h : g.WellFormed) {change : Change} (e : change.apply g = (.ok (), g')) :
    g'.WellFormed := by
  cases change with
  | declareNonterminal c => exact h.declareNonterminal e
  | declareTerminal c => exact h.declareTerminal e
  | setStart c => exact h.setStart e
  | add p => exact h.add e
  | addWritten head rhs =>
    obtain ⟨a, -, hadd⟩ := addWritten_eq_ok_iff.mp e
    exact h.add hadd
  | clear => cases e; exact empty

/-- **No change spoils a grammar**, whether it is refused or not. -/
theorem attempt (h : g.WellFormed) (change : Change) : (g.attempt change).WellFormed := by
  by_cases hmade : change.Made g
  · exact h.apply (Change.apply_of_made hmade)
  · rwa [Change.attempt_of_not_made hmade]

theorem after (h : g.WellFormed) (history : List Change) : (g.after history).WellFormed := by
  induction history generalizing g with
  | nil => exact h
  | cons change history ih => exact ih (h.attempt change)

end WellFormed

end Chomsky.Grammar
