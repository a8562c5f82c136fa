import Chomsky.Proofs.RuleFile.Building
import Mathlib.Data.List.Forall2

/-!
# Which texts are rule files

A text is read if its rule lines spell consistent rules in normal form. The grammar has the symbols
of these lines and the productions of these rules.

* **`readText_eq_ok_iff_consistent`**;
* **`readText_accepts_consistent_rules`**: when a text is read, and what is read then.
-/

namespace Chomsky

variable {path : Path} {text : String} {g : Grammar}

/-! ## Lines -/

/-- **The rule lines of a text.** -/
def ruleLines (text : String) : List (List Char) := (text.toList.splitOn '\n').filter isRuleLine

theorem readLines_iff_forall₂ (path : Path) {lines : List (List Char)} (n : Nat) {rules : List Rule} :
    (errorsOf (((lines.map Except.ok).zipIdx n).filterMap fun p => readLine path p.1 p.2) = [] ∧
      (valuesOf (((lines.map Except.ok).zipIdx n).filterMap fun p => readLine path p.1 p.2)).map
        (·.item) = rules) ↔
      List.Forall₂ (fun line r => Rule.ofLine line = .ok r) (lines.filter isRuleLine) rules := by
  induction lines generalizing n rules with
  | nil => simp [errorsOf, valuesOf, eq_comm]
  | cons line lines ih =>
    rw [List.map_cons, List.zipIdx_cons]
    by_cases hline : isRuleLine line = true
    · rw [List.filter_cons_of_pos hline, List.forall₂_cons_left_iff, List.filterMap_cons, readLine,
        if_pos hline]
      cases Rule.ofLine line with
      | error e => simp [errorsOf]
      | ok r =>
        constructor
        · rintro ⟨herrors, rfl⟩
          exact ⟨r, _, rfl, (ih (n + 1)).mp ⟨herrors, rfl⟩, rfl⟩
        · rintro ⟨_, rules, h, hall, rfl⟩
          cases h
          obtain ⟨herrors, hrules⟩ := (ih (n + 1)).mpr hall
          exact ⟨herrors, congrArg (r :: ·) hrules⟩
    · rw [List.filter_cons_of_neg hline, List.filterMap_cons_none (by simp [readLine, hline])]
      exact ih (n + 1)

/-- The rules of a text, at their places. -/
def rulesOf (path : Path) (text : String) : List (Located Rule) :=
  valuesOf (readLines path ((cutLines '\n' text.toList).map .ok))

theorem map_item_rulesOf_iff (path : Path) {rules : List Rule} :
    (errorsOf (readLines path ((cutLines '\n' text.toList).map .ok)) = [] ∧
      (rulesOf path text).map (·.item) = rules) ↔
      List.Forall₂ (fun line r => Rule.ofLine line = .ok r) (ruleLines text) rules := by
  rw [ruleLines, ← filter_cutLines rfl, ← readLines_iff_forall₂ path 1]
  rfl

theorem readText_eq_ok_iff : readText path text = .ok g ↔
    List.Forall₂ (fun line r => Rule.ofLine line = .ok r) (ruleLines text)
      ((rulesOf path text).map (·.item)) ∧ grammarOfRules (rulesOf path text) = .ok g := by
  rw [readText, readRules_eq_ok_iff, ← map_item_rulesOf_iff path, and_iff_left rfl]
  rfl

/-! ## Rules in normal form -/

section Lines

variable {lines : List (List Char)} {rules : List Rule}
  (h : List.Forall₂ (fun line r => Rule.ofLine line = .ok r) lines rules)

include h

theorem exists_line_of_forall₂ : ∀ r ∈ rules, ∃ line ∈ lines, Rule.ofLine line = .ok r := by
  induction h with
  | nil => exact nofun
  | cons hr _ ih =>
    refine List.forall_mem_cons.mpr ⟨⟨_, List.mem_cons_self, hr⟩, fun r h => ?_⟩
    obtain ⟨line, hline, hr⟩ := ih r h
    exact ⟨line, List.mem_cons_of_mem _ hline, hr⟩

theorem flatMap_symbols_of_forall₂ :
    rules.flatMap (·.symbols) = lines.flatMap (·.filterMap Symbol.ofChar?) := by
  induction h with
  | nil => rfl
  | cons hr _ ih => rw [List.flatMap_cons, List.flatMap_cons, ih, Rule.symbols_of_ofLine hr]

end Lines

/-- The rule lines of a text spell the rules. -/
def WrittenAs (text : String) (rules : List NormalRule) : Prop :=
  List.Forall₂ (fun line r => Spells line r.tokens) (ruleLines text) rules

theorem writtenAs_iff {rules : List NormalRule} : WrittenAs text rules ↔
    List.Forall₂ (fun line r => Rule.ofLine line = .ok r) (ruleLines text) (rules.map (·.rule)) := by
  rw [List.forall₂_map_right_iff, WrittenAs]
  simp only [ofLine_eq_ok_rule_iff]

theorem readable_rulesOf {rules : List Rule} (h : (rulesOf path text).map (·.item) = rules)
    (hlines : List.Forall₂ (fun line r => Rule.ofLine line = .ok r) (ruleLines text) rules) :
    ∀ r ∈ rulesOf path text, r.item.Readable := by
  intro r hr
  obtain ⟨line, -, hline⟩ := exists_line_of_forall₂ hlines r.item (h ▸ List.mem_map_of_mem hr)
  exact Rule.readable_of_ofLine hline

theorem declared_rules (path : Path) {rules : List NormalRule} (h : WrittenAs text rules) :
    ((∅ : Grammar).after (declarations (rulesOf path text))).Declared
      (rules.flatMap (·.rule.symbols)) (rules.head?.map (·.head)) := by
  have hlines := writtenAs_iff.mp h
  obtain ⟨-, hrules⟩ := (map_item_rulesOf_iff path).mpr hlines
  have hsymbols : (rulesOf path text).flatMap (·.item.symbols) = rules.flatMap (·.rule.symbols) := by
    have hmap := congrArg (List.flatMap Rule.symbols) hrules
    rwa [List.flatMap_map, List.flatMap_map] at hmap
  have hstart : (rulesOf path text).head?.map (·.item.head) = rules.head?.map (·.head) := by
    have hmap := congrArg (fun l => l.head?.map Rule.head) hrules
    simp only [List.head?_map, Option.map_map] at hmap
    exact hmap
  rw [← hsymbols, ← hstart]
  exact declared_declarations (readable_rulesOf hrules hlines)

theorem flatMap_symbols_of_writtenAs {rules : List NormalRule} (h : WrittenAs text rules) :
    rules.flatMap (·.rule.symbols) = (ruleLines text).flatMap (·.filterMap Symbol.ofChar?) := by
  rw [← flatMap_symbols_of_forall₂ (writtenAs_iff.mp h), List.flatMap_map]

theorem exists_writtenAs (h : readText path text = .ok g) : ∃ rules, WrittenAs text rules := by
  obtain ⟨hlines, hg⟩ := readText_eq_ok_iff.mp h
  obtain ⟨rules, hrules⟩ := exists_map_rule_of_grammarOfRules (readable_rulesOf rfl hlines) hg
  rw [← hrules] at hlines
  exact ⟨rules, writtenAs_iff.mpr hlines⟩

/-- **A text that spells rules is read if they are consistent.** -/
theorem readText_eq_ok_iff_consistent {rules : List NormalRule} (h : WrittenAs text rules) :
    readText path text = .ok g ↔ Consistent rules ∧
      g = { (∅ : Grammar).after (declarations (rulesOf path text)) with
        productions := (rules.flatMap (·.productions)).foldl .insert ∅ } := by
  have hlines := writtenAs_iff.mp h
  obtain ⟨-, hrules⟩ := (map_item_rulesOf_iff path).mpr hlines
  rw [readText_eq_ok_iff, hrules, and_iff_right hlines]
  exact grammarOfRules_eq_ok_iff_consistent (readable_rulesOf hrules hlines) hrules.symm

/-- **Which texts are read, and as what**: the rule lines have to spell consistent rules in normal form.
The grammar has their productions, the upper-case letters of the rule lines as they appear, the
lower-case ones, and the first head as its start symbol. A line without a rule is blank or a comment. -/
theorem readText_accepts_consistent_rules (path : Path) (text : String) :
    ((∃ g, readText path text = .ok g) ↔ ∃ rules, WrittenAs text rules ∧ Consistent rules) ∧
    (∀ g rules, readText path text = .ok g → WrittenAs text rules →
      (∀ p, p ∈ g.productions ↔ p ∈ rules.flatMap (·.productions)) ∧
      g.nonterminals = ((ruleLines text).flatMap (·.filter isUpper)).eraseDups ∧
      (∀ c, c ∈ g.terminals ↔ isLower c = true ∧ ∃ line ∈ ruleLines text, c ∈ line) ∧
      g.start = rules.head?.map (·.head) ∧
      (ruleLines text = [] → g = ∅)) ∧
    ∀ line, isRuleLine line = false ↔ (∀ c ∈ line, isBlank c = true) ∨
      ∃ before behind, line = before ++ ';' :: behind ∧ ∀ c ∈ before, isBlank c = true := by
  refine ⟨⟨?_, ?_⟩, ?_, fun line => isRuleLine_eq_false_iff⟩
  · rintro ⟨g, hg⟩
    obtain ⟨rules, hrules⟩ := exists_writtenAs hg
    exact ⟨rules, hrules, ((readText_eq_ok_iff_consistent hrules).mp hg).1⟩
  · rintro ⟨rules, hrules, hconsistent⟩
    exact ⟨_, (readText_eq_ok_iff_consistent hrules).mpr ⟨hconsistent, rfl⟩⟩
  · intro g rules hg h
    obtain ⟨-, heq⟩ := (readText_eq_ok_iff_consistent h).mp hg
    have hdeclared := declared_rules path h
    rw [flatMap_symbols_of_writtenAs h] at hdeclared
    generalize (∅ : Grammar).after (declarations (rulesOf path text)) = g₀ at heq hdeclared
    subst heq
    refine ⟨fun p => ?_, ?_, fun c => ?_, hdeclared.start, fun hnil => ?_⟩
    · rw [Productions.mem_foldl_insert]
      exact or_iff_left (Productions.not_mem_empty p)
    · show g₀.nonterminals = _
      rw [hdeclared.nonterminals, List.filterMap_flatMap]
      simp only [Symbol.filterMap_nonterminal?_ofChar?]
    · show c ∈ g₀.terminals ↔ _
      rw [hdeclared.terminals]
      simp only [List.mem_flatMap, Symbol.terminal_mem_filterMap_ofChar?]
      constructor
      · rintro ⟨line, hline, hc, hlower⟩
        exact ⟨hlower, line, hline, hc⟩
      · rintro ⟨hlower, line, hline, hc⟩
        exact ⟨line, hline, hc, hlower⟩
    · rw [WrittenAs, hnil, List.forall₂_nil_left_iff] at h
      subst h
      rw [hnil] at hdeclared
      rw [hdeclared.eq_empty]
      rfl

theorem readText_double_a : ∃ g, readText ⟨"aa.cnf"⟩ "S = AA|a\n; no rule\nA ::= a" = .ok g ∧
    g.start = some 'S' ∧ g.nonterminals = ['S', 'A'] ∧ ⟨'S', .binary 'A' 'A'⟩ ∈ g.productions := by
  obtain ⟨hread, hgrammar, -⟩ := readText_accepts_consistent_rules ⟨"aa.cnf"⟩ "S = AA|a\n; no rule\nA ::= a"
  let rules : List NormalRule :=
    [⟨'S', [.binary 'A' 'A', .unary 'a'], nofun⟩, ⟨'A', [.unary 'a'], nofun⟩]
  have hwritten : WrittenAs "S = AA|a\n; no rule\nA ::= a" rules := by
    have hlines : ruleLines "S = AA|a\n; no rule\nA ::= a" =
        ["S = AA|a".toList, "A ::= a".toList] := by decide +kernel
    rw [writtenAs_iff, hlines]
    exact .cons (by decide +kernel) (.cons (by decide +kernel) .nil)
  have hconsistent : Consistent rules := ⟨by simp [rules, Alternative.symbols], by decide⟩
  obtain ⟨g, hg⟩ := hread.mpr ⟨rules, hwritten, hconsistent⟩
  obtain ⟨hproductions, hnonterminals, -, hstart, -⟩ := hgrammar g rules hg hwritten
  refine ⟨g, hg, hstart, ?_, (hproductions _).mpr (by decide)⟩
  rw [hnonterminals]
  decide +kernel

end Chomsky
