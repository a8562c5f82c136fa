import Chomsky.Proofs.Grammar.Alternatives
import Chomsky.Proofs.Grammar.Reachable
import Mathlib.Data.List.NodupEquivFin

/-!
# What a grammar holds

No change leaves an entry without alternatives or a production over symbols that are not declared, so
the listings of a grammar tell all of it: each production is listed once, each nonterminal has its own
place, and grammars that answer alike are equal.

* **`contents_of_reachable`**: what holds of every reachable grammar.
-/

namespace Chomsky

/-! ## Productions without empty entries -/

namespace Productions

variable {ps qs : Productions} {p : Production}

theorem mem_iff_exists_entry : p ∈ ps ↔ ∃ as, ps.get? p.head = some as ∧ p.alternative ∈ as := by
  rw [mem_iff, of]
  cases ps.get? p.head <;> simp

theorem ext_of_occupied (hps : ∀ c as, ps.get? c = some as → as ≠ ∅)
    (hqs : ∀ c as, qs.get? c = some as → as ≠ ∅) (h : ∀ p, p ∈ ps ↔ p ∈ qs) : ps = qs := by
  refine OrderedMap.ext fun c => ?_
  have hof : ps.of c = qs.of c := OrderedSet.ext fun a => h ⟨c, a⟩
  rw [of, of] at hof
  cases hp : ps.get? c with
  | none =>
    cases hq : qs.get? c with
    | none => rfl
    | some bs =>
      rw [hp, hq] at hof
      exact absurd hof.symm (hqs c bs hq)
  | some as =>
    cases hq : qs.get? c with
    | none =>
      rw [hp, hq] at hof
      exact absurd hof (hps c as hp)
    | some bs =>
      rw [hp, hq] at hof
      exact congrArg some hof

/-- An entry without alternatives tells productions apart that have the same members. -/
example : (∅ : Productions).enter 'S' ≠ ∅ ∧ ∀ p, p ∈ (∅ : Productions).enter 'S' ↔ p ∈ (∅ : Productions) :=
  ⟨by decide, fun _ => mem_enter⟩

end Productions

namespace Grammar

variable {g g' : Grammar}

/-! ## Listings -/

theorem nodup_listedProductions (h : g.nonterminals.Nodup) : g.listedProductions.Nodup := by
  rw [listedProductions, List.nodup_flatMap]
  constructor
  · intro c _
    exact (g.nodup_alternatives c).map fun a b hab => (Production.mk.inj hab).2
  · refine h.imp fun {c d} hne p hp hq => ?_
    obtain ⟨a, -, rfl⟩ := List.mem_map.mp hp
    obtain ⟨b, -, hb⟩ := List.mem_map.mp hq
    exact hne (Production.mk.inj hb).1.symm

theorem WellFormed.mem_listedProductions_iff (hg : g.WellFormed) {p : Production} :
    p ∈ g.listedProductions ↔ p ∈ g.productions :=
  (g.mem_listedProductions).trans (and_iff_right_of_imp (hg.head p))

theorem exists_equiv_position (h : g.nonterminals.Nodup) :
    ∃ e : {c // c ∈ g.nonterminals} ≃ Fin g.nonterminals.length,
      ∀ c, g.position? c.1 = some (e c).1 ∧ g.nonterminals[e c] = c.1 := by
  refine ⟨(List.Nodup.getEquiv g.nonterminals h).symm, fun c => ⟨?_, ?_⟩⟩
  · obtain ⟨i, hi⟩ := Option.isSome_iff_exists.mp (List.isSome_idxOf?.mpr c.2)
    rw [List.Nodup.getEquiv_symm_apply_val, List.idxOf_eq_getD_idxOf?, position?, hi]
    rfl
  · exact congrArg Subtype.val ((List.Nodup.getEquiv g.nonterminals h).apply_symm_apply c)

/-- **Grammars that answer alike are equal.** -/
theorem WellFormed.eq_iff (hg : g.WellFormed) (hg' : g'.WellFormed) : g = g' ↔
    g.nonterminals = g'.nonterminals ∧ (∀ c, c ∈ g.terminals ↔ c ∈ g'.terminals) ∧
      g.start = g'.start ∧ ∀ head a, a ∈ g.alternatives head ↔ a ∈ g'.alternatives head := by
  constructor
  · rintro rfl
    exact ⟨rfl, fun _ => Iff.rfl, rfl, fun _ _ => Iff.rfl⟩
  · rintro ⟨hn, ht, hs, ha⟩
    have hproductions := Productions.ext_of_occupied hg.occupied hg'.occupied fun p => ha p.head p.alternative
    obtain ⟨nonterminals, terminals, start, productions⟩ := g
    obtain ⟨nonterminals', terminals', start', productions'⟩ := g'
    obtain rfl : nonterminals = nonterminals' := hn
    obtain rfl : terminals = terminals' := OrderedSet.ext ht
    obtain rfl : start = start' := hs
    obtain rfl : productions = productions' := hproductions
    rfl

/-- **What holds of every reachable grammar.** Nonterminals are upper-case and declared once, terminals are
lower-case, and all else is over declared symbols; every entry has an alternative. So each production is
listed once, the places of the nonterminals count them, and a grammar is known by what it answers. -/
theorem contents_of_reachable (hg : g.Reachable) :
    g.nonterminals.Nodup ∧ (∀ c ∈ g.nonterminals, isUpper c = true) ∧
    (∀ c ∈ g.terminals, isLower c = true ∧ c ∉ g.nonterminals) ∧
    (∀ c, g.start = some c → c ∈ g.nonterminals) ∧
    (∀ head as, g.productions.get? head = some as → head ∈ g.nonterminals ∧ as ≠ ∅ ∧
      (∀ l r, .binary l r ∈ as → l ∈ g.nonterminals ∧ r ∈ g.nonterminals) ∧
      ∀ a, .unary a ∈ as → a ∈ g.terminals) ∧
    (g.listedProductions.Nodup ∧ ∀ p, p ∈ g.listedProductions ↔
      ∃ as, g.productions.get? p.head = some as ∧ p.alternative ∈ as) ∧
    ((∃ e : {c // c ∈ g.nonterminals} ≃ Fin g.nonterminals.length,
        ∀ c, g.position? c.1 = some (e c).1 ∧ g.nonterminals[e c] = c.1) ∧
      ∀ c, g.position? c = none ↔ c ∉ g.nonterminals) ∧
    ∀ g' : Grammar, g'.Reachable → (g = g' ↔ g.nonterminals = g'.nonterminals ∧
      (∀ c, c ∈ g.terminals ↔ c ∈ g'.terminals) ∧ g.start = g'.start ∧
      ∀ head a, a ∈ g.alternatives head ↔ a ∈ g'.alternatives head) := by
  have hwf := hg.wellFormed
  refine ⟨hwf.nodup, hwf.upper, fun c hc => ⟨hwf.lower c hc, hwf.not_isNonterminal_of_isTerminal hc⟩,
    hwf.start, fun head as hentry => ?_, ⟨nodup_listedProductions hwf.nodup, fun p => ?_⟩,
    ⟨exists_equiv_position hwf.nodup, fun c => List.idxOf?_eq_none_iff⟩,
    fun g' hg' => hwf.eq_iff hg'.wellFormed⟩
  · have hmem : ∀ a ∈ as, (⟨head, a⟩ : Production) ∈ g.productions := fun a ha =>
      Productions.mem_iff_exists_entry.mpr ⟨as, hentry, ha⟩
    refine ⟨?_, hwf.occupied head as hentry, fun l r h => hwf.declares _ (hmem _ h),
      fun a h => hwf.declares _ (hmem _ h)⟩
    obtain ⟨a, ha⟩ := OrderedSet.exists_mem_of_ne_empty (hwf.occupied head as hentry)
    exact hwf.head _ (hmem a ha)
  · rw [hwf.mem_listedProductions_iff, Productions.mem_iff_exists_entry]

theorem textbook_eq_reordered : textbook.Reachable ∧
    textbook = (∅ : Grammar).after
      [.declareTerminal 'b', .declareNonterminal 'S', .declareTerminal 'a', .declareNonterminal 'A',
        .declareNonterminal 'B', .add ⟨'C', .unary 'a'⟩, .declareNonterminal 'C', .setStart 'S',
        .addWritten 'C' "a", .addWritten 'C' "AB", .addWritten 'C' "AB", .addWritten 'A' "a",
        .addWritten 'A' "BA", .addWritten 'B' "b", .addWritten 'B' "CC", .addWritten 'S' "BC",
        .addWritten 'S' "AB"] := by
  refine ⟨reachable_textbook, ?_⟩
  obtain ⟨-, -, -, -, -, -, -, heq⟩ := contents_of_reachable reachable_textbook
  refine (heq _ (Reachable.empty.after _)).mpr ⟨by decide +kernel, fun c => ?_, by decide +kernel, fun c a => ?_⟩
  · exact iff_of_eq (congrArg (c ∈ ·) (by decide +kernel))
  · rw [mem_alternatives, mem_alternatives]
    exact iff_of_eq (congrArg (_ ∈ ·) (by decide +kernel))

end Grammar

end Chomsky
