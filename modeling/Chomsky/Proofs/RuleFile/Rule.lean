import Chomsky.RuleFile.Rule
import Chomsky.Proofs.RuleFile.Token
import Chomsky.Proofs.Text.Lines
import Mathlib.Data.List.TakeWhile
import Mathlib.Data.Set.List

/-!
# Rules in Chomsky Normal Form

A line is read as a rule whatever its alternatives are. Those that a grammar takes are the ones in
normal form, and a line is read as such a rule exactly if it spells its tokens.

* `Rule.tokens`, **`Rule.ofLine_eq_ok_iff_spells`**: how a rule is written;
* `Alternative.symbols`, **`NormalRule`**, `NormalRule.tokens`, `NormalRule.rule`;
* **`ofLine_eq_ok_rule_iff`**.
-/

namespace Chomsky

variable {line : List Char} {ts : List Token}

/-! ## What is read -/

namespace Rule

variable {r : Rule}

/-- A rule has an alternative, perhaps an empty one, and its symbols go by their letter case. -/
structure Readable (r : Rule) : Prop where
  nonempty : r.alternatives ≠ []
  cased : ∀ s ∈ r.symbols, Symbol.ofChar? s.char = some s

theorem ofTokens_eq_ok_iff : ofTokens ts = .ok r ↔
    ∃ rest, ts = .symbol (.nonterminal r.head) :: .equals :: rest ∧ Token.equals ∉ rest ∧
      r.alternatives = (rest.splitOn .bar).map (·.filterMap Token.symbol?) := by
  constructor
  · intro h
    unfold ofTokens at h
    split at h
    · rename_i head rest
      by_cases heq : Token.equals ∈ rest
      · rw [if_pos heq] at h
        cases h
      · rw [if_neg heq] at h
        cases h
        exact ⟨rest, rfl, heq, rfl⟩
    · cases h
    · cases h
  · rintro ⟨rest, rfl, heq, halts⟩
    rw [ofTokens, if_neg heq, ← halts]

theorem ofLine_eq_ok_iff : ofLine line = .ok r ↔ ∃ ts, Spells line ts ∧ ofTokens ts = .ok r := by
  simp only [← Token.scan_eq_ok_iff]
  rw [ofLine]
  cases Token.scan line <;> simp

theorem symbols_of_ofTokens (h : ofTokens ts = .ok r) : r.symbols = ts.filterMap Token.symbol? := by
  obtain ⟨rest, rfl, -, halts⟩ := ofTokens_eq_ok_iff.mp h
  have hflat : r.alternatives.flatten = rest.filterMap Token.symbol? := by
    rw [halts, ← List.flatMap_def, flatMap_filterMap_splitOn rfl]
  rw [symbols, hflat]
  rfl

theorem symbols_of_ofLine (h : ofLine line = .ok r) : r.symbols = line.filterMap Symbol.ofChar? := by
  obtain ⟨ts, hspells, hts⟩ := ofLine_eq_ok_iff.mp h
  rw [symbols_of_ofTokens hts, hspells.filterMap_ofChar?]

end Rule

/-! ## How a rule is written -/

theorem equals_ne_bar : Token.equals ≠ Token.bar := nofun

theorem filterMap_symbol?_map_symbol (ss : List Symbol) :
    (ss.map Token.symbol).filterMap Token.symbol? = ss := by
  induction ss with
  | nil => rfl
  | cons s ss ih => exact congrArg (s :: ·) ih

theorem map_symbol_filterMap_symbol? (heq : Token.equals ∉ ts) (hbar : Token.bar ∉ ts) :
    (ts.filterMap Token.symbol?).map Token.symbol = ts := by
  induction ts with
  | nil => rfl
  | cons t ts ih =>
    obtain ⟨h1, h2⟩ := not_or.mp fun h => heq (List.mem_cons.mpr h)
    obtain ⟨h3, h4⟩ := not_or.mp fun h => hbar (List.mem_cons.mpr h)
    cases t with
    | equals => exact absurd rfl h1
    | bar => exact absurd rfl h3
    | symbol s => exact congrArg (Token.symbol s :: ·) (ih h2 h4)

namespace Rule

variable {r : Rule}

/-- The way a rule is written: its head, an equals sign and its alternatives between bars. -/
def tokens (r : Rule) : List Token := .symbol (.nonterminal r.head) :: .equals ::
  [Token.bar].intercalate (r.alternatives.map (·.map .symbol))

/-- The head of a rule with each of its alternatives. -/
def pairs (r : Rule) : List (Char × List Symbol) := r.alternatives.map (r.head, ·)

theorem ofTokens_tokens (h : r.alternatives ≠ []) : ofTokens r.tokens = .ok r := by
  have hsymbols : ∀ piece ∈ r.alternatives.map (·.map Token.symbol), ∀ t ∈ piece, ∃ s, t = .symbol s := by
    intro piece hpiece t ht
    obtain ⟨ss, -, rfl⟩ := List.mem_map.mp hpiece
    obtain ⟨s, -, rfl⟩ := List.mem_map.mp ht
    exact ⟨s, rfl⟩
  have hsplit := List.splitOn_intercalate Token.bar
    (fun piece hpiece ht => by obtain ⟨s, hs⟩ := hsymbols piece hpiece _ ht; cases hs)
    (fun hnil => h (List.map_eq_nil_iff.mp hnil))
  refine ofTokens_eq_ok_iff.mpr ⟨_, rfl, fun heq => ?_, ?_⟩
  · obtain ⟨piece, hpiece, ht⟩ := (exists_mem_splitOn_iff equals_ne_bar).mpr heq
    rw [hsplit] at hpiece
    obtain ⟨s, hs⟩ := hsymbols piece hpiece _ ht
    cases hs
  · rw [hsplit, List.map_map]
    refine (List.map_id _).symm.trans (List.map_congr_left fun ss _ => ?_)
    exact (filterMap_symbol?_map_symbol ss).symm

theorem tokens_of_ofTokens (h : ofTokens ts = .ok r) : ts = r.tokens := by
  obtain ⟨rest, rfl, heq, halts⟩ := ofTokens_eq_ok_iff.mp h
  have hpieces : rest.splitOn .bar = r.alternatives.map (·.map Token.symbol) := by
    rw [halts, List.map_map]
    refine (List.map_id _).symm.trans (List.map_congr_left fun piece hpiece => ?_)
    refine (map_symbol_filterMap_symbol? (fun ht => heq ?_) (not_mem_of_mem_splitOn hpiece)).symm
    exact (exists_mem_splitOn_iff equals_ne_bar).mp ⟨piece, hpiece, ht⟩
  rw [tokens, ← hpieces, List.intercalate_splitOn]

/-- **A line is read as a rule if it spells its tokens.** -/
theorem ofLine_eq_ok_iff_spells : ofLine line = .ok r ↔ r.alternatives ≠ [] ∧ Spells line r.tokens := by
  rw [ofLine_eq_ok_iff]
  constructor
  · rintro ⟨ts, hspells, hts⟩
    refine ⟨?_, tokens_of_ofTokens hts ▸ hspells⟩
    obtain ⟨rest, -, -, halts⟩ := ofTokens_eq_ok_iff.mp hts
    rw [halts]
    exact fun hnil => List.splitOn_ne_nil _ _ (List.map_eq_nil_iff.mp hnil)
  · rintro ⟨hne, hspells⟩
    exact ⟨r.tokens, hspells, ofTokens_tokens hne⟩

theorem readable_of_ofLine (h : ofLine line = .ok r) : r.Readable := by
  refine ⟨(ofLine_eq_ok_iff_spells.mp h).1, fun s hs => ?_⟩
  rw [symbols_of_ofLine h] at hs
  obtain ⟨c, -, hc⟩ := List.mem_filterMap.mp hs
  rw [Symbol.char_of_ofChar? hc, hc]

end Rule

/-! ## Normal form -/

/-- The symbols of an alternative. -/
def Alternative.symbols : Alternative → List Symbol
  | binary left right => [.nonterminal left, .nonterminal right]
  | unary terminal => [.terminal terminal]

theorem Alternative.map_char_symbols (a : Alternative) : a.symbols.map (·.char) = a.body := by
  cases a <;> rfl

theorem Alternative.symbols_injective {a b : Alternative} (h : a.symbols = b.symbols) : a = b := by
  have hbody := congrArg (List.map (·.char)) h
  rw [map_char_symbols, map_char_symbols] at hbody
  exact body_injective hbody

/-- **A rule in Chomsky Normal Form.** -/
structure NormalRule where
  head : Char
  alternatives : List Alternative
  nonempty : alternatives ≠ []

namespace NormalRule

variable (r : NormalRule)

/-- The way a rule is written: its head, an equals sign and its alternatives between bars. -/
def tokens : List Token := .symbol (.nonterminal r.head) :: .equals ::
  [Token.bar].intercalate (r.alternatives.map fun a => a.symbols.map .symbol)

/-- The productions that a rule writes, in order. -/
def productions : List Production := r.alternatives.map (⟨r.head, ·⟩)

/-- The rule that is read from a line. -/
def rule : Rule := ⟨r.head, r.alternatives.map (·.symbols)⟩

end NormalRule

theorem NormalRule.tokens_rule (r : NormalRule) : r.rule.tokens = r.tokens := by
  rw [Rule.tokens, rule, List.map_map]
  rfl

/-- **A line is read as a rule in normal form if it spells its tokens.** -/
theorem ofLine_eq_ok_rule_iff {r : NormalRule} : Rule.ofLine line = .ok r.rule ↔ Spells line r.tokens := by
  rw [Rule.ofLine_eq_ok_iff_spells, r.tokens_rule]
  exact and_iff_right (mt List.map_eq_nil_iff.mp r.nonempty)

/-! ## Uses -/

theorem Rule.mem_uses {r : Rule} {c : Char} : c ∈ r.uses ↔ .nonterminal c ∈ r.alternatives.flatten := by
  have hname : ∀ s : Symbol, s.nonterminal? = some c ↔ s = .nonterminal c := by
    intro s
    cases s <;> simp [Symbol.nonterminal?]
  simp only [Rule.uses, List.mem_filterMap, hname, exists_eq_right]

/-! ## Rules all of whose alternatives are in normal form -/

theorem exists_map_rule {rules : List Rule} (hread : ∀ r ∈ rules, r.Readable)
    (hnormal : ∀ r ∈ rules, ∀ ss ∈ r.alternatives, ∃ a : Alternative, a.symbols = ss) :
    ∃ ns : List NormalRule, ns.map (·.rule) = rules := by
  show rules ∈ Set.range (List.map NormalRule.rule)
  rw [Set.range_list_map]
  intro r hr
  have hrange : r.alternatives ∈ Set.range (List.map Alternative.symbols) := by
    rw [Set.range_list_map]
    exact hnormal r hr
  obtain ⟨as, has⟩ := hrange
  refine ⟨⟨r.head, as, fun hnil => ?_⟩, ?_⟩
  · rw [hnil] at has
    exact (hread r hr).nonempty has.symm
  · show (⟨r.head, as.map Alternative.symbols⟩ : Rule) = r
    rw [has]

namespace NormalRule

variable {r : NormalRule} {s : Symbol} {c : Char}

theorem mem_symbols_rule : s ∈ r.rule.symbols ↔
    s = .nonterminal r.head ∨ ∃ a ∈ r.alternatives, s ∈ a.symbols := by
  simp [rule, Rule.symbols]

theorem mem_uses_rule : c ∈ r.rule.uses ↔ ∃ a ∈ r.alternatives, .nonterminal c ∈ a.symbols := by
  simp only [Rule.mem_uses, rule, List.mem_flatten, List.mem_map, exists_exists_and_eq_and]

end NormalRule

/-! ## Rule lines -/

section RuleLines

variable {c : Char} {cs ds : List Char}

/-- **A line that is no rule line** is blank, or its first sign is a semicolon. -/
theorem isRuleLine_eq_false_iff : isRuleLine cs = false ↔ (∀ c ∈ cs, isBlank c = true) ∨
    ∃ before behind, cs = before ++ ';' :: behind ∧ ∀ c ∈ before, isBlank c = true := by
  have hsemicolon : isBlank ';' = false := by decide
  constructor
  · intro h
    rw [isRuleLine] at h
    split at h
    · rename_i hnil
      exact .inl (List.dropWhile_eq_nil_iff.mp hnil)
    · rename_i c behind hdrop
      obtain rfl : c = ';' := by simpa using h
      refine .inr ⟨cs.takeWhile isBlank, behind, ?_, fun c hc => List.mem_takeWhile_imp hc⟩
      rw [← hdrop, List.takeWhile_append_dropWhile]
  · rintro (h | ⟨before, behind, rfl, h⟩)
    · rw [isRuleLine, List.dropWhile_eq_nil_iff.mpr h]
    · rw [isRuleLine, List.dropWhile_append_of_pos h, List.dropWhile_cons_of_neg (by simp [hsemicolon])]
      rfl

theorem isRuleLine_insert_blank (hc : isBlank c = true) :
    isRuleLine (cs ++ c :: ds) = isRuleLine (cs ++ ds) := by
  rw [isRuleLine, isRuleLine, List.dropWhile_append, List.dropWhile_append,
    List.dropWhile_cons_of_pos hc]
  cases cs.dropWhile isBlank <;> rfl

theorem isRuleLine_insert_colons :
    isRuleLine (cs ++ ':' :: ':' :: '=' :: ds) = isRuleLine (cs ++ '=' :: ds) := by
  have hcolon : isBlank ':' = false := by decide
  have hequals : isBlank '=' = false := by decide
  rw [isRuleLine, isRuleLine, List.dropWhile_append, List.dropWhile_append]
  cases cs.dropWhile isBlank with
  | nil => simp [hcolon, hequals]
  | cons d ds => rfl

end RuleLines

end Chomsky
