import Chomsky.Proofs.RuleFile.Listing

/-!
# Alternatives in other lines and in another order

A file pairs heads with alternatives. Which line a pair stands on makes no difference, and the order of the
pairs makes none but for the order of the nonterminals and the start symbol, which is the first head.

* **`Pairs`**: the heads and the alternatives that a file pairs;
* `eraseDups_nonterminals`, **`eq_of_productions_eq`**: pairs in the same order define the same grammar;
* **`readText_of_pairs`**.
-/

namespace Chomsky

/-! ## Pairs -/

/-- **The rule lines of a text pair heads with alternatives** in this order. -/
def Pairs (text : String) (pairs : List (Char × List Symbol)) : Prop :=
  ∃ rules : List Rule, List.Forall₂ (fun line r => r.alternatives ≠ [] ∧ Spells line r.tokens)
    (ruleLines text) rules ∧ rules.flatMap (·.pairs) = pairs

variable {path path' : Path} {text text' : String} {g g' : Grammar} {ns ns' : List NormalRule}
  {pairs pairs' : List (Char × List Symbol)}

/-- A production as a pair. -/
def Production.pair (p : Production) : Char × List Symbol := (p.head, p.alternative.symbols)

theorem Production.pair_injective : Function.Injective Production.pair := by
  rintro ⟨c, a⟩ ⟨d, b⟩ h
  obtain ⟨hhead, hsymbols⟩ := Prod.mk.inj h
  exact Production.mk.injEq .. ▸ ⟨hhead, Alternative.symbols_injective hsymbols⟩

theorem flatMap_pairs_rule (ns : List NormalRule) :
    (ns.map (·.rule)).flatMap (·.pairs) = (ns.flatMap (·.productions)).map (·.pair) := by
  simp only [List.flatMap_map, List.map_flatMap, NormalRule.productions, Rule.pairs, NormalRule.rule,
    List.map_map]
  rfl

theorem forall₂_ofLine_iff {lines : List (List Char)} {rules : List Rule} :
    List.Forall₂ (fun line r => r.alternatives ≠ [] ∧ Spells line r.tokens) lines rules ↔
      List.Forall₂ (fun line r => Rule.ofLine line = .ok r) lines rules := by
  simp only [Rule.ofLine_eq_ok_iff_spells]

theorem pairs_iff_map_ofLine : Pairs text pairs ↔ ∃ rules : List Rule,
    (ruleLines text).map Rule.ofLine = rules.map .ok ∧ rules.flatMap (·.pairs) = pairs := by
  refine exists_congr fun rules => and_congr_left fun _ => forall₂_ofLine_iff.trans ?_
  rw [← List.forall₂_eq_eq_eq, List.forall₂_map_left_iff, List.forall₂_map_right_iff]

theorem Pairs.eq_of_writtenAs (h : Pairs text pairs) (hns : WrittenAs text ns) :
    (ns.flatMap (·.productions)).map (·.pair) = pairs := by
  obtain ⟨rules, hrules, rfl⟩ := h
  obtain ⟨-, hitems⟩ := (map_item_rulesOf_iff ⟨""⟩).mpr (forall₂_ofLine_iff.mp hrules)
  obtain ⟨-, hitems'⟩ := (map_item_rulesOf_iff ⟨""⟩).mpr (writtenAs_iff.mp hns)
  rw [← flatMap_pairs_rule, ← hitems', hitems]

theorem Pairs.exists_writtenAs (h : Pairs text pairs) (hnormal : ∀ q ∈ pairs, ∃ p : Production, p.pair = q) :
    ∃ ns, WrittenAs text ns := by
  obtain ⟨rules, hrules, rfl⟩ := h
  have hlines := forall₂_ofLine_iff.mp hrules
  have hread : ∀ r ∈ rules, r.Readable := fun r hr =>
    Rule.readable_of_ofLine (exists_line_of_forall₂ hlines r hr).choose_spec.2
  obtain ⟨ns, rfl⟩ := exists_map_rule hread fun r hr ss hss => by
    obtain ⟨p, hp⟩ := hnormal (r.head, ss) (List.mem_flatMap.mpr ⟨r, hr, List.mem_map_of_mem hss⟩)
    exact ⟨p.alternative, (Prod.mk.inj hp).2⟩
  exact ⟨ns, writtenAs_iff.mpr hlines⟩

/-! ## Reading another order -/

theorem mem_map_head_iff {c : Char} :
    c ∈ ns.map (·.head) ↔ ∃ p ∈ ns.flatMap (·.productions), p.head = c := by
  simp only [List.mem_map, mem_flatMap_productions]
  constructor
  · rintro ⟨n, hn, rfl⟩
    obtain ⟨a, ha⟩ := List.exists_mem_of_ne_nil _ n.nonempty
    exact ⟨⟨n.head, a⟩, ⟨n, hn, rfl, ha⟩, rfl⟩
  · rintro ⟨p, ⟨n, hn, hhead, -⟩, rfl⟩
    exact ⟨n, hn, hhead.symm⟩

theorem consistent_iff : Consistent ns ↔
    (∀ p ∈ ns.flatMap (·.productions), ∀ c, .nonterminal c ∈ p.alternative.symbols →
      ∃ q ∈ ns.flatMap (·.productions), q.head = c) ∧ (ns.flatMap (·.productions)).Nodup := by
  simp only [← mem_map_head_iff]
  constructor
  · rintro ⟨hclosed, hnodup⟩
    refine ⟨fun p hp c hc => ?_, hnodup⟩
    obtain ⟨n, hn, -, ha⟩ := mem_flatMap_productions.mp hp
    exact hclosed n hn _ ha c hc
  · rintro ⟨hclosed, hnodup⟩
    exact ⟨fun n hn a ha c hc =>
      hclosed ⟨n.head, a⟩ (mem_flatMap_productions.mpr ⟨n, hn, rfl, ha⟩) c hc, hnodup⟩

theorem Consistent.of_perm (h : Consistent ns)
    (hperm : (ns.flatMap (·.productions)).Perm (ns'.flatMap (·.productions))) : Consistent ns' := by
  rw [consistent_iff] at h ⊢
  simp only [← hperm.mem_iff]
  exact ⟨h.1, hperm.nodup_iff.mp h.2⟩

theorem Pairs.exists_readText (h : Pairs text pairs) (h' : Pairs text' pairs') (hperm : pairs.Perm pairs')
    (hg : readText path text = .ok g) : ∃ g', readText path' text' = .ok g' := by
  obtain ⟨ns, hns⟩ := Chomsky.exists_writtenAs hg
  have hpairs := h.eq_of_writtenAs hns
  obtain ⟨ns', hns'⟩ := h'.exists_writtenAs fun q hq => by
    rw [← hperm.mem_iff, ← hpairs] at hq
    obtain ⟨p, -, hp⟩ := List.mem_map.mp hq
    exact ⟨p, hp⟩
  rw [← hpairs, ← h'.eq_of_writtenAs hns', List.map_perm_map_iff Production.pair_injective] at hperm
  have hconsistent := ((readText_eq_ok_iff_consistent hns).mp hg).1.of_perm hperm
  exact ⟨_, (readText_eq_ok_iff_consistent hns').mpr ⟨hconsistent, rfl⟩⟩

/-! ## The same order -/

theorem eraseDups_append_cons_of_mem {c : Char} {l : List Char} (hc : c ∈ l) (m : List Char) :
    (l ++ c :: m).eraseDups = (l ++ m).eraseDups := by
  rw [List.eraseDups_append, List.eraseDups_append, List.removeAll,
    List.filter_cons_of_neg (by simpa using hc)]
  rfl

theorem eraseDups_append_flatMap_cons {c : Char} {l : List Char} (hc : c ∈ l) (pieces : List (List Char))
    (rest : List Char) :
    (l ++ (pieces.flatMap (c :: ·) ++ rest)).eraseDups = (l ++ (pieces.flatten ++ rest)).eraseDups := by
  induction pieces generalizing l with
  | nil => rfl
  | cons piece pieces ih =>
    have hpiece := ih (List.mem_append_left piece hc)
    rw [List.append_assoc, List.append_assoc] at hpiece
    rw [List.flatMap_cons, List.cons_append, List.cons_append, eraseDups_append_cons_of_mem hc,
      List.flatten_cons, List.append_assoc, List.append_assoc, hpiece]

/-- The nonterminals of a production, in order. -/
def Production.nonterminals (p : Production) : List Char :=
  p.head :: p.alternative.symbols.filterMap Symbol.nonterminal?

/-- **Writing the head again before each alternative declares the nonterminals in the same order.** -/
theorem eraseDups_nonterminals (l : List Char) (ns : List NormalRule) :
    (l ++ (ns.flatMap (·.rule.symbols)).filterMap Symbol.nonterminal?).eraseDups =
      (l ++ (ns.flatMap (·.productions)).flatMap (·.nonterminals)).eraseDups := by
  induction ns generalizing l with
  | nil => rfl
  | cons n ns ih =>
    have hrule : n.rule.symbols.filterMap Symbol.nonterminal? = n.head ::
        (n.alternatives.map (·.symbols.filterMap Symbol.nonterminal?)).flatten := by
      show n.head :: n.rule.alternatives.flatten.filterMap Symbol.nonterminal? = _
      rw [List.filterMap_flatten, NormalRule.rule, List.map_map]
      rfl
    have hproductions : n.productions.flatMap (·.nonterminals) =
        (n.alternatives.map (·.symbols.filterMap Symbol.nonterminal?)).flatMap (n.head :: ·) := by
      rw [NormalRule.productions, List.flatMap_map, List.flatMap_map]
      rfl
    rw [List.flatMap_cons, List.filterMap_append, hrule, List.flatMap_cons, List.flatMap_append,
      hproductions, ← List.append_assoc, ih]
    obtain ⟨a, as, has⟩ := List.exists_cons_of_ne_nil n.nonempty
    have hhead : n.head ∈ l ++ n.head :: a.symbols.filterMap Symbol.nonterminal? :=
      List.mem_append_right _ List.mem_cons_self
    have hagain := eraseDups_append_flatMap_cons hhead
      (as.map (·.symbols.filterMap Symbol.nonterminal?))
      ((ns.flatMap (·.productions)).flatMap (·.nonterminals))
    simpa [has] using hagain.symm

section Read

variable (hg : readText path text = .ok g) (h : WrittenAs text ns)

include hg h

theorem nonterminals_of_readText :
    g.nonterminals = ((ns.flatMap (·.productions)).flatMap (·.nonterminals)).eraseDups := by
  obtain ⟨g₀, hdeclared, rfl⟩ := declared_of_readText hg h
  show g₀.nonterminals = _
  rw [hdeclared.nonterminals]
  exact eraseDups_nonterminals [] ns

theorem start_of_productions : g.start = (ns.flatMap (·.productions)).head?.map (·.head) := by
  rw [start_of_readText hg h]
  cases ns with
  | nil => rfl
  | cons n ns =>
    obtain ⟨a, as, has⟩ := List.exists_cons_of_ne_nil n.nonempty
    rw [List.flatMap_cons, NormalRule.productions, has]
    rfl

variable (hg' : readText path' text' = .ok g') (h' : WrittenAs text' ns')

include hg' h'

theorem alike_of_perm (hperm : (ns.flatMap (·.productions)).Perm (ns'.flatMap (·.productions))) :
    (∀ c, c ∈ g.nonterminals ↔ c ∈ g'.nonterminals) ∧ (∀ c, c ∈ g.terminals ↔ c ∈ g'.terminals) ∧
      ∀ head a, a ∈ g.alternatives head ↔ a ∈ g'.alternatives head := by
  have hproductions : ∀ p, p ∈ g.productions ↔ p ∈ g'.productions := by
    intro p
    rw [mem_productions_of_readText hg h, mem_productions_of_readText hg' h', hperm.mem_iff]
  refine ⟨fun c => ?_, fun c => ?_, fun head a => hproductions ⟨head, a⟩⟩
  · rw [mem_nonterminals_of_readText hg h, mem_nonterminals_of_readText hg' h', mem_map_head_iff,
      mem_map_head_iff]
    simp only [hperm.mem_iff]
  · rw [mem_terminals_of_readText hg h, mem_terminals_of_readText hg' h']
    simp only [hproductions]

/-- **Pairs in the same order define the same grammar.** -/
theorem eq_of_productions_eq (heq : ns.flatMap (·.productions) = ns'.flatMap (·.productions)) : g = g' := by
  obtain ⟨-, hterminals, halternatives⟩ := alike_of_perm hg h hg' h' (heq ▸ .refl _)
  refine ((Grammar.Reachable.read hg).wellFormed.eq_iff (Grammar.Reachable.read hg').wellFormed).mpr
    ⟨?_, hterminals, ?_, halternatives⟩
  · rw [nonterminals_of_readText hg h, nonterminals_of_readText hg' h', heq]
  · rw [start_of_productions hg h, start_of_productions hg' h', heq]

theorem reordered_of_perm (hperm : (ns.flatMap (·.productions)).Perm (ns'.flatMap (·.productions)))
    (hhead : (ns.flatMap (·.productions)).head?.map (·.head) =
      (ns'.flatMap (·.productions)).head?.map (·.head)) : g.Reordered g' := by
  obtain ⟨hnonterminals, hterminals, halternatives⟩ := alike_of_perm hg h hg' h' hperm
  refine ⟨?_, hterminals, ?_, halternatives⟩
  · exact (List.perm_ext_iff_of_nodup (Grammar.Reachable.read hg).wellFormed.nodup
      (Grammar.Reachable.read hg').wellFormed.nodup).mpr hnonterminals
  · rw [start_of_productions hg h, start_of_productions hg' h', hhead]

end Read

theorem head?_map_pair (ps : List Production) :
    (ps.map (·.pair)).head?.map Prod.fst = ps.head?.map (·.head) := by
  cases ps <;> rfl

theorem Pairs.readText_eq_ok (h : Pairs text pairs) (h' : Pairs text' pairs) (hg : readText path text = .ok g) :
    readText path' text' = .ok g := by
  obtain ⟨g', hg'⟩ := h.exists_readText h' (.refl _) hg
  obtain ⟨ns, hns⟩ := Chomsky.exists_writtenAs hg
  obtain ⟨ns', hns'⟩ := Chomsky.exists_writtenAs hg'
  have hpairs := (h.eq_of_writtenAs hns).trans (h'.eq_of_writtenAs hns').symm
  rw [List.map_inj_right fun _ _ => (Production.pair_injective ·)] at hpairs
  rw [hg', eq_of_productions_eq hg hns hg' hns' hpairs]

/-- **How a file distributes its alternatives over lines does not matter.** Files that pair the same heads with
the same alternatives in the same order define the same grammar or none. In another order they still define a
grammar both or neither, with the same nonterminals, terminals and alternatives; and if they begin with the same
head, both grammars derive the same words. -/
theorem readText_of_pairs (path path' : Path) {text text' : String} {pairs pairs' : List (Char × List Symbol)}
    (h : Pairs text pairs) (h' : Pairs text' pairs') :
    (pairs = pairs' → ∀ g, readText path text = .ok g ↔ readText path' text' = .ok g) ∧
    (pairs.Perm pairs' →
      ((∃ g, readText path text = .ok g) ↔ ∃ g, readText path' text' = .ok g) ∧
      ∀ g g', readText path text = .ok g → readText path' text' = .ok g' →
        (∀ c, c ∈ g.nonterminals ↔ c ∈ g'.nonterminals) ∧ g.terminals = g'.terminals ∧
        (∀ head, g.alternatives head = g'.alternatives head) ∧
        (pairs.head?.map Prod.fst = pairs'.head?.map Prod.fst → ∀ w, g.isDerived w = g'.isDerived w)) := by
  refine ⟨?_, fun hperm => ⟨⟨?_, ?_⟩, ?_⟩⟩
  · rintro rfl g
    exact ⟨h.readText_eq_ok h', h'.readText_eq_ok h⟩
  · rintro ⟨g, hg⟩
    exact h.exists_readText h' hperm hg
  · rintro ⟨g', hg'⟩
    exact h'.exists_readText h hperm.symm hg'
  · intro g g' hg hg'
    obtain ⟨ns, hns⟩ := exists_writtenAs hg
    obtain ⟨ns', hns'⟩ := exists_writtenAs hg'
    rw [← h.eq_of_writtenAs hns, ← h'.eq_of_writtenAs hns'] at hperm ⊢
    rw [List.map_perm_map_iff Production.pair_injective] at hperm
    obtain ⟨hnonterminals, hterminals, halternatives⟩ := alike_of_perm hg hns hg' hns' hperm
    refine ⟨hnonterminals, OrderedSet.ext hterminals, fun head => ?_, fun hhead => ?_⟩
    · exact congrArg OrderedSet.toList (OrderedSet.ext (halternatives head))
    · rw [head?_map_pair, head?_map_pair] at hhead
      exact (reordered_of_perm hg hns hg' hns' hperm hhead).isDerived_eq
        (Grammar.Reachable.read hg).wellFormed (Grammar.Reachable.read hg').wellFormed

theorem readText_of_pairs_three_files : ∃ g g',
    readText ⟨"a.cnf"⟩ "S = AA | a\nA = a" = .ok g ∧
    readText ⟨"b.cnf"⟩ "S ::= AA\n; split\nS ::= a\nA ::= a" = .ok g ∧
    readText ⟨"c.cnf"⟩ "S = a\nA = a\nS = AA" = .ok g' ∧
    g.terminals = g'.terminals ∧ ∀ w, g.isDerived w = g'.isDerived w := by
  have hjoined : Pairs "S = AA | a\nA = a"
      [('S', [.nonterminal 'A', .nonterminal 'A']), ('S', [.terminal 'a']), ('A', [.terminal 'a'])] :=
    pairs_iff_map_ofLine.mpr ⟨[⟨'S', [[.nonterminal 'A', .nonterminal 'A'], [.terminal 'a']]⟩,
      ⟨'A', [[.terminal 'a']]⟩], by decide +kernel, rfl⟩
  have hsplit : Pairs "S ::= AA\n; split\nS ::= a\nA ::= a"
      [('S', [.nonterminal 'A', .nonterminal 'A']), ('S', [.terminal 'a']), ('A', [.terminal 'a'])] :=
    pairs_iff_map_ofLine.mpr ⟨[⟨'S', [[.nonterminal 'A', .nonterminal 'A']]⟩, ⟨'S', [[.terminal 'a']]⟩,
      ⟨'A', [[.terminal 'a']]⟩], by decide +kernel, rfl⟩
  have hmoved : Pairs "S = a\nA = a\nS = AA"
      [('S', [.terminal 'a']), ('A', [.terminal 'a']), ('S', [.nonterminal 'A', .nonterminal 'A'])] :=
    pairs_iff_map_ofLine.mpr ⟨[⟨'S', [[.terminal 'a']]⟩, ⟨'A', [[.terminal 'a']]⟩,
      ⟨'S', [[.nonterminal 'A', .nonterminal 'A']]⟩], by decide +kernel, rfl⟩
  obtain ⟨hsame, -⟩ := readText_of_pairs ⟨"a.cnf"⟩ ⟨"b.cnf"⟩ hjoined hsplit
  obtain ⟨-, hother⟩ := readText_of_pairs ⟨"a.cnf"⟩ ⟨"c.cnf"⟩ hjoined hmoved
  obtain ⟨hread, halike⟩ := hother (by decide)
  obtain ⟨g, hg⟩ : ∃ g, readText ⟨"a.cnf"⟩ "S = AA | a\nA = a" = .ok g := by
    have hok : (readText ⟨"a.cnf"⟩ "S = AA | a\nA = a").isOk = true := by decide +kernel
    cases h : readText ⟨"a.cnf"⟩ "S = AA | a\nA = a" with
    | ok g => exact ⟨g, rfl⟩
    | error errors =>
      rw [h] at hok
      cases hok
  obtain ⟨g', hg'⟩ := hread.mp ⟨g, hg⟩
  obtain ⟨-, hterminals, -, hwords⟩ := halike g g' hg hg'
  exact ⟨g, g', hg, (hsame rfl g).mp hg, hg', hterminals, hwords rfl⟩

end Chomsky
