import Chomsky.Proofs.Chart.Reordering
import Chomsky.Proofs.Grammar.Listing
import Chomsky.Proofs.RuleFile.Reading
import Mathlib.Data.List.Perm.Basic

/-!
# Listed rules read back

The rule of a head is listed in the notation of rule files, its alternatives sorted by their texts. Read as a
rule file, the rules of all heads give the grammar back. It may declare its nonterminals in another order,
since a file declares them as they appear.

* **`reordered_of_readText_ruleTexts`**: which grammar that file defines.
-/

namespace Chomsky

variable {g g' : Grammar} {path : Path} {text : String} {c head : Char}

/-! ## Grammars that files define -/

/-- **A grammar that declares what its productions need, and nothing else**: every nonterminal has a production,
every terminal occurs in one, and the first nonterminal is the start symbol. -/
structure Grammar.Tidy (g : Grammar) : Prop where
  heads : ∀ c ∈ g.nonterminals, g.alternatives c ≠ []
  letters : ∀ c ∈ g.terminals, ∃ p ∈ g.productions, p.alternative = .unary c
  start : g.start = g.nonterminals.head?

section Read

variable {rules : List NormalRule} (hg : readText path text = .ok g) (h : WrittenAs text rules)

include hg h

theorem declared_of_readText : ∃ g₀ : Grammar,
    g₀.Declared (rules.flatMap (·.rule.symbols)) (rules.head?.map (·.head)) ∧
      g = { g₀ with productions := (rules.flatMap (·.productions)).foldl .insert ∅ } :=
  ⟨_, declared_rules path h, ((readText_eq_ok_iff_consistent h).mp hg).2⟩

theorem mem_productions_of_readText {p : Production} :
    p ∈ g.productions ↔ p ∈ rules.flatMap (·.productions) := by
  obtain ⟨g₀, -, rfl⟩ := declared_of_readText hg h
  exact Productions.mem_foldl_insert.trans (or_iff_left (Productions.not_mem_empty p))

theorem start_of_readText : g.start = rules.head?.map (·.head) := by
  obtain ⟨g₀, hdeclared, rfl⟩ := declared_of_readText hg h
  exact hdeclared.start

/-- The nonterminals are the heads, since a nonterminal that heads no rule is refused. -/
theorem mem_nonterminals_of_readText : c ∈ g.nonterminals ↔ c ∈ rules.map (·.head) := by
  have hclosed := ((readText_eq_ok_iff_consistent h).mp hg).1.closed
  obtain ⟨g₀, hdeclared, rfl⟩ := declared_of_readText hg h
  refine hdeclared.mem_nonterminals.trans ?_
  rw [List.mem_flatMap]
  constructor
  · rintro ⟨n, hn, hc⟩
    rcases NormalRule.mem_symbols_rule.mp hc with hc | ⟨a, ha, hc⟩
    · cases hc
      exact List.mem_map_of_mem hn
    · exact hclosed n hn a ha c hc
  · intro hc
    obtain ⟨n, hn, rfl⟩ := List.mem_map.mp hc
    exact ⟨n, hn, NormalRule.mem_symbols_rule.mpr (.inl rfl)⟩

theorem mem_terminals_of_readText :
    c ∈ g.terminals ↔ ∃ p ∈ g.productions, p.alternative = .unary c := by
  have hletter : ∀ a : Alternative, .terminal c ∈ a.symbols ↔ a = .unary c := by
    rintro (_ | _) <;> simp [Alternative.symbols, eq_comm]
  simp only [mem_productions_of_readText hg h, mem_flatMap_productions]
  obtain ⟨g₀, hdeclared, rfl⟩ := declared_of_readText hg h
  refine (hdeclared.terminals c).trans ?_
  simp only [List.mem_flatMap, NormalRule.mem_symbols_rule, reduceCtorEq, false_or, hletter]
  constructor
  · rintro ⟨n, hn, a, ha, rfl⟩
    exact ⟨⟨n.head, .unary c⟩, ⟨n, hn, rfl, ha⟩, rfl⟩
  · rintro ⟨p, ⟨n, hn, -, ha⟩, hp⟩
    exact ⟨n, hn, _, ha, hp⟩

theorem head?_nonterminals_of_readText : g.nonterminals.head? = g.start := by
  rw [start_of_readText hg h]
  obtain ⟨g₀, hdeclared, rfl⟩ := declared_of_readText hg h
  show g₀.nonterminals.head? = _
  rw [hdeclared.nonterminals]
  cases rules with
  | nil => rfl
  | cons r rules =>
    have hfirst : ((r :: rules).flatMap (·.rule.symbols)).filterMap Symbol.nonterminal? =
        r.head :: (r.rule.alternatives.flatten ++ rules.flatMap (·.rule.symbols)).filterMap
          Symbol.nonterminal? := rfl
    rw [hfirst, List.eraseDups_cons]
    rfl

theorem tidy_of_readText : g.Tidy where
  heads c hc := by
    obtain ⟨n, hn, rfl⟩ := List.mem_map.mp ((mem_nonterminals_of_readText hg h).mp hc)
    obtain ⟨a, ha⟩ := List.exists_mem_of_ne_nil _ n.nonempty
    have hp : (⟨n.head, a⟩ : Production) ∈ g.productions :=
      (mem_productions_of_readText hg h).mpr (mem_flatMap_productions.mpr ⟨n, hn, rfl, ha⟩)
    exact List.ne_nil_of_mem (g.mem_alternatives.mpr hp)
  letters _ hc := (mem_terminals_of_readText hg h).mp hc
  start := (head?_nonterminals_of_readText hg h).symm

end Read

/-! ## Spelling a rule -/

namespace Spells

theorem symbols {ss : List Symbol} (hcased : ∀ s ∈ ss, Symbol.ofChar? s.char = some s) :
    Spells (ss.map (·.char)) (ss.map .symbol) := by
  induction ss with
  | nil => exact .nil
  | cons s ss ih =>
    obtain ⟨hs, hss⟩ := List.forall_mem_cons.mp hcased
    cases s with
    | nonterminal c => exact .nonterminal (Symbol.ofChar?_eq_nonterminal_iff.mp hs).2 (ih hss)
    | terminal c => exact .terminal (Symbol.ofChar?_eq_terminal_iff.mp hs).2 (ih hss)

theorem intercalate {lines : List (List Char)} {pieces : List (List Token)}
    (h : List.Forall₂ Spells lines pieces) :
    Spells (['|'].intercalate lines) ([Token.bar].intercalate pieces) := by
  induction h with
  | nil => exact .nil
  | @cons line piece lines pieces hline hlines ih =>
    cases hlines with
    | nil => rwa [List.intercalate_singleton, List.intercalate_singleton]
    | cons _ _ =>
      rw [List.intercalate_cons_cons, List.intercalate_cons_cons, List.append_assoc, List.append_assoc]
      exact hline.append (.bar ih)

end Spells

/-! ## Listed rules -/

namespace Grammar

/-- **The rule that is listed for a head.** -/
def listedRule (g : Grammar) (head : Char) (h : g.alternatives head ≠ []) : NormalRule where
  head := head
  alternatives := g.sortedAlternatives head
  nonempty := sortedAlternatives_ne_nil h

theorem spells_ruleText (hg : g.WellFormed) (hc : head ∈ g.nonterminals) (h : g.alternatives head ≠ []) :
    Spells (g.ruleText head).toList (g.listedRule head h).tokens := by
  have hbodies : List.Forall₂ Spells ((g.sortedAlternatives head).map (·.body))
      ((g.sortedAlternatives head).map fun a => a.symbols.map .symbol) := by
    rw [List.forall₂_map_left_iff, List.forall₂_map_right_iff, List.forall₂_same]
    intro a ha
    rw [← a.map_char_symbols]
    exact .symbols (hg.cased (hg.declares _ (mem_sortedAlternatives.mp ha)))
  rw [toList_ruleText h]
  exact .nonterminal (hg.upper head hc) (.define (.intercalate hbodies))

end Grammar

/-! ## Listed lines -/

theorem ruleLines_intercalate {lines : List String} (hlines : ∀ line ∈ lines, '\n' ∉ line.toList)
    (hrules : ∀ line ∈ lines, isRuleLine line.toList = true) :
    ruleLines ("\n".intercalate lines) = lines.map (·.toList) := by
  have hfilter : (lines.map (·.toList)).filter isRuleLine = lines.map (·.toList) :=
    List.filter_eq_self.mpr (List.forall_mem_map.mpr hrules)
  rw [ruleLines, String.toList_intercalate]
  by_cases hnil : lines = []
  · subst hnil
    rfl
  · have hsplit := List.splitOn_intercalate '\n' (List.forall_mem_map.mpr hlines)
      (mt List.map_eq_nil_iff.mp hnil)
    exact (congrArg (List.filter isRuleLine) hsplit).trans hfilter

namespace Grammar

theorem isRuleLine_ruleText (hg : g.WellFormed) (hc : head ∈ g.nonterminals)
    (h : g.alternatives head ≠ []) : isRuleLine (g.ruleText head).toList = true := by
  have hletter : letterCase head ≠ none := Symbol.letterCase_ne_none_of_ofChar?
    (Symbol.ofChar?_eq_nonterminal_iff.mpr ⟨rfl, hg.upper head hc⟩)
  have hblank : isBlank head ≠ true := fun hb => hletter (letterCase_eq_none_of_isBlank hb)
  rw [toList_ruleText h, isRuleLine, List.cons_append, List.dropWhile_cons_of_neg hblank]
  refine decide_eq_true fun hsemicolon => hletter ?_
  rw [hsemicolon]
  decide +kernel

/-! ## The file of all rules -/

section File

variable (htidy : g.Tidy)

/-- The rules that are listed, in the order of their heads. -/
def listedRules (g : Grammar) (htidy : g.Tidy) : List NormalRule :=
  g.nonterminals.attach.map fun c => g.listedRule c.1 (htidy.heads c.1 c.2)

theorem map_head_listedRules : (g.listedRules htidy).map (·.head) = g.nonterminals := by
  rw [listedRules, List.map_map]
  exact List.attach_map_subtype_val _

theorem perm_flatMap_listedRules :
    ((g.listedRules htidy).flatMap (·.productions)).Perm g.listedProductions := by
  have hattach : g.listedProductions = g.nonterminals.attach.flatMap fun c =>
      (g.alternatives c.1).map fun a => ⟨c.1, a⟩ := by
    rw [listedProductions, List.flatMap_def, List.flatMap_def, ← List.attach_map_val]
  rw [listedRules, List.flatMap_map, hattach]
  exact List.Perm.flatMap_left _ fun c _ => (perm_sortedAlternatives g c.1).map _

variable (hg : g.WellFormed)

include hg

theorem mem_flatMap_listedRules {p : Production} :
    p ∈ (g.listedRules htidy).flatMap (·.productions) ↔ p ∈ g.productions :=
  (perm_flatMap_listedRules htidy).mem_iff.trans hg.mem_listedProductions_iff

theorem writtenAs_ruleTexts :
    WrittenAs ("\n".intercalate (g.nonterminals.map g.ruleText)) (g.listedRules htidy) := by
  have hlines : ruleLines ("\n".intercalate (g.nonterminals.map g.ruleText)) =
      g.nonterminals.attach.map fun c => (g.ruleText c.1).toList := by
    rw [ruleLines_intercalate
      (List.forall_mem_map.mpr fun c hc => newline_not_mem_ruleText hg hc)
      (List.forall_mem_map.mpr fun c hc => isRuleLine_ruleText hg hc (htidy.heads c hc)),
      List.map_map, ← List.attach_map_val]
    rfl
  rw [WrittenAs, hlines, listedRules, List.forall₂_map_left_iff, List.forall₂_map_right_iff,
    List.forall₂_same]
  exact fun c _ => spells_ruleText hg c.2 (htidy.heads c.1 c.2)

theorem consistent_listedRules : Consistent (g.listedRules htidy) where
  closed n hn a ha c hc := by
    have hp : (⟨n.head, a⟩ : Production) ∈ g.productions :=
      (mem_flatMap_listedRules htidy hg).mp (mem_flatMap_productions.mpr ⟨n, hn, rfl, ha⟩)
    have hd := hg.declares _ hp
    rw [map_head_listedRules]
    cases a with
    | binary l r =>
      simp only [Alternative.symbols, List.mem_cons, Symbol.nonterminal.injEq, List.not_mem_nil,
        or_false] at hc
      rcases hc with rfl | rfl
      · exact hd.1
      · exact hd.2
    | unary t => simp [Alternative.symbols] at hc
  nodup := (perm_flatMap_listedRules htidy).nodup_iff.mpr (nodup_listedProductions hg.nodup)

include htidy

/-- **The file of the listed rules defines the grammar**, up to the order of its nonterminals. -/
theorem exists_readText_ruleTexts (path : Path) : ∃ g',
    readText path ("\n".intercalate (g.nonterminals.map g.ruleText)) = .ok g' ∧ g'.Reordered g := by
  have hwritten := writtenAs_ruleTexts htidy hg
  obtain ⟨g', hg'⟩ : ∃ g', readText path _ = .ok g' :=
    ⟨_, (readText_eq_ok_iff_consistent hwritten).mpr ⟨consistent_listedRules htidy hg, rfl⟩⟩
  have hproductions : ∀ p, p ∈ g'.productions ↔ p ∈ g.productions := fun p =>
    (mem_productions_of_readText hg' hwritten).trans (mem_flatMap_listedRules htidy hg)
  have hwf' := (Reachable.read hg').wellFormed
  refine ⟨g', hg', ?_, fun c => ?_, ?_, fun c a => hproductions ⟨c, a⟩⟩
  · refine (List.perm_ext_iff_of_nodup hwf'.nodup hg.nodup).mpr fun c => ?_
    rw [mem_nonterminals_of_readText hg' hwritten, map_head_listedRules]
  · rw [mem_terminals_of_readText hg' hwritten]
    simp only [hproductions]
    refine ⟨?_, htidy.letters c⟩
    rintro ⟨p, hp, hc⟩
    have hd := hg.declares p hp
    rwa [hc] at hd
  · rw [start_of_readText hg' hwritten, ← List.head?_map, map_head_listedRules, htidy.start]

end File

end Grammar

/-! ## The round trip -/

/-- **A grammar reads back from its listed rules.** Every file with a rule defines a grammar that declares what
its productions need and nothing else. The rules listed for such a grammar, a line each, are a rule file, and
what it defines differs from the grammar in the order of the nonterminals at most; so both derive the same
words. -/
theorem reordered_of_readText_ruleTexts :
    (∀ path text g, readText path text = .ok g → ruleLines text ≠ [] →
      g.Reachable ∧ g.nonterminals ≠ [] ∧ g.Tidy) ∧
    ∀ g : Grammar, g.Reachable → g.Tidy → ∀ path, ∃ g',
      readText path ("\n".intercalate (g.nonterminals.map g.ruleText)) = .ok g' ∧
      g'.Reordered g ∧ ∀ w, g'.isDerived w = g.isDerived w := by
  constructor
  · intro path text g hg hlines
    obtain ⟨rules, hrules⟩ := exists_writtenAs hg
    refine ⟨.read hg, fun hnil => ?_, tidy_of_readText hg hrules⟩
    cases rules with
    | nil => exact hlines (List.forall₂_nil_right_iff.mp hrules)
    | cons r rules =>
      have hhead := (mem_nonterminals_of_readText hg hrules).mpr List.mem_cons_self
      rw [hnil] at hhead
      exact List.not_mem_nil hhead
  · intro g hg htidy path
    obtain ⟨g', hg', hreordered⟩ := Grammar.exists_readText_ruleTexts htidy hg.wellFormed path
    exact ⟨g', hg', hreordered,
      hreordered.isDerived_eq (Grammar.Reachable.read hg').wellFormed hg.wellFormed⟩

theorem exists_readText_ruleTexts_textbook : Grammar.textbook.Tidy ∧
    "\n".intercalate (Grammar.textbook.nonterminals.map Grammar.textbook.ruleText) =
      "S::=AB|BC\nA::=BA|a\nB::=CC|b\nC::=AB|a" ∧
    ∃ g', readText ⟨"textbook.cnf"⟩ "S::=AB|BC\nA::=BA|a\nB::=CC|b\nC::=AB|a" = .ok g' ∧
      g'.Tidy ∧ g'.Reordered Grammar.textbook ∧ ∀ w, g'.isDerived w = Grammar.textbook.isDerived w := by
  have htidy : Grammar.textbook.Tidy := by
    have hheads : Grammar.textbook.nonterminals.all (Grammar.textbook.alternatives · ≠ []) = true := by
      decide +kernel
    refine ⟨fun c hc => of_decide_eq_true (List.all_eq_true.mp hheads c hc), fun c hc => ?_,
      by decide +kernel⟩
    have hterminals : Grammar.textbook.terminals.toList = ['a', 'b'] := by decide +kernel
    have hmem : c ∈ ['a', 'b'] := hterminals ▸ hc
    rcases List.mem_cons.mp hmem with rfl | hmem
    · exact ⟨⟨'A', .unary 'a'⟩, by decide +kernel, rfl⟩
    · obtain rfl := List.mem_singleton.mp hmem
      exact ⟨⟨'B', .unary 'b'⟩, by decide +kernel, rfl⟩
  have hsorted : ∀ head ∈ Grammar.textbook.nonterminals, Grammar.textbook.sortedTexts head =
      (Grammar.textbook.alternatives head).map (·.text) := by
    have hpairwise : Grammar.textbook.nonterminals.all (fun head =>
        ((Grammar.textbook.alternatives head).map (·.text)).Pairwise (decide <| · ≤ ·)) = true := by
      decide +kernel
    exact fun head hhead => List.mergeSort_of_pairwise
      (of_decide_eq_true (List.all_eq_true.mp hpairwise head hhead))
  have hrules : Grammar.textbook.nonterminals.map Grammar.textbook.ruleText =
      ["S::=AB|BC", "A::=BA|a", "B::=CC|b", "C::=AB|a"] := by
    rw [List.map_congr_left fun head hhead => by rw [Grammar.ruleText, hsorted head hhead]]
    decide +kernel
  have htext : "\n".intercalate (Grammar.textbook.nonterminals.map Grammar.textbook.ruleText) =
      "S::=AB|BC\nA::=BA|a\nB::=CC|b\nC::=AB|a" := by
    rw [hrules]
    decide +kernel
  obtain ⟨hfile, hlisted⟩ := reordered_of_readText_ruleTexts
  obtain ⟨g', hg', hreordered, hwords⟩ :=
    hlisted Grammar.textbook Grammar.reachable_textbook htidy ⟨"textbook.cnf"⟩
  rw [htext] at hg'
  obtain ⟨-, -, htidy'⟩ := hfile _ _ g' hg' (by decide +kernel)
  exact ⟨htidy, htext, g', hg', htidy', hreordered, hwords⟩

end Chomsky
