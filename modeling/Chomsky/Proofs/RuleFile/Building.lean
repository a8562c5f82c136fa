import Chomsky.Proofs.Grammar.Reachable
import Chomsky.Proofs.RuleFile.Rule

/-!
# From rules to a grammar

The symbols of the rules are declared as they appear, the productions are added one by one. Nothing is
refused exactly if every rule is in normal form, every nonterminal in use heads a rule and no
production is written twice.

* `Grammar.Declared`, **`declared_declarations`**: the grammar of the declarations;
* `Production.written`, **`addAll_eq_nil_iff`**: when every production is added;
* `Consistent`, **`grammarOfRules_eq_ok_iff_consistent`**.
-/

namespace Chomsky

variable {g g' : Grammar} {c : Char}

/-! ## Declarations -/

theorem eraseDups_concat {cs : List Char} :
    (cs ++ [c]).eraseDups = if c ∈ cs then cs.eraseDups else cs.eraseDups ++ [c] := by
  rw [List.eraseDups_append, List.removeAll]
  by_cases hmem : c ∈ cs
  · rw [if_pos hmem, List.filter_cons_of_neg (by simp [hmem])]
    exact List.append_nil _
  · rw [if_neg hmem, List.filter_cons_of_pos (by simp [hmem])]
    rfl

namespace Grammar

theorem attempt_declareNonterminal (hc : isUpper c = true) : g.attempt (.declareNonterminal c) =
    if c ∈ g.nonterminals then g else { g with nonterminals := g.nonterminals ++ [c] } := by
  by_cases hmem : c ∈ g.nonterminals
  · simp [attempt, Change.apply, declareNonterminal, hc, isNonterminal_iff.mpr hmem, hmem]
  · rw [if_neg hmem, attempt, Change.apply, declareNonterminal_eq_ok_iff.mpr ⟨hc, hmem, rfl⟩]

theorem attempt_declareTerminal (hc : isLower c = true) : g.attempt (.declareTerminal c) =
    if c ∈ g.terminals then g else { g with terminals := g.terminals.insert c } := by
  by_cases hmem : c ∈ g.terminals
  · simp [attempt, Change.apply, declareTerminal, hc, isTerminal_iff.mpr hmem, hmem,
      OrderedSet.insert_of_mem hmem]
  · rw [if_neg hmem, attempt, Change.apply, declareTerminal_eq_ok_iff.mpr ⟨hc, hmem, rfl⟩]

/-- The grammar has declared the symbols, and perhaps a start symbol, but has no productions. -/
structure Declared (g : Grammar) (symbols : List Symbol) (start : Option Char) : Prop where
  nonterminals : g.nonterminals = (symbols.filterMap Symbol.nonterminal?).eraseDups
  terminals : ∀ c, c ∈ g.terminals ↔ .terminal c ∈ symbols
  start : g.start = start
  productions : g.productions = ∅

variable {symbols more : List Symbol} {start : Option Char}

theorem Declared.mem_nonterminals (h : g.Declared symbols start) :
    c ∈ g.nonterminals ↔ .nonterminal c ∈ symbols := by
  rw [h.nonterminals, List.mem_eraseDups, List.mem_filterMap]
  constructor
  · rintro ⟨_ | _, hs, hc⟩
    · cases hc
      exact hs
    · cases hc
  · exact fun hs => ⟨_, hs, rfl⟩

theorem Declared.declares_iff (h : g.Declared symbols start) {a : Alternative} :
    g.Declares a ↔ ∀ s ∈ a.symbols, s ∈ symbols := by
  cases a with
  | binary l r => simp [Declares, Alternative.symbols, h.mem_nonterminals]
  | unary t => simp [Declares, Alternative.symbols, h.terminals]

theorem Declared.eq_empty (h : g.Declared [] none) : g = ∅ := by
  have hterminals : g.terminals = ∅ := by
    refine OrderedSet.ext fun c => ?_
    rw [h.terminals]
    exact iff_of_false List.not_mem_nil (OrderedSet.not_mem_empty c)
  obtain ⟨nonterminals, terminals, start, productions⟩ := g
  obtain rfl : nonterminals = [] := h.nonterminals
  obtain rfl : start = none := h.start
  obtain rfl : productions = ∅ := h.productions
  obtain rfl : terminals = ∅ := hterminals
  rfl

theorem Declared.attempt_nonterminal (h : g.Declared symbols start) (hc : isUpper c = true) :
    (g.attempt (.declareNonterminal c)).Declared (symbols ++ [.nonterminal c]) start := by
  have hnames : (symbols ++ [Symbol.nonterminal c]).filterMap Symbol.nonterminal? =
      symbols.filterMap Symbol.nonterminal? ++ [c] := List.filterMap_append
  have hletters : ∀ d, d ∈ g.terminals ↔ .terminal d ∈ symbols ++ [.nonterminal c] := by
    intro d
    rw [h.terminals]
    simp
  rw [attempt_declareNonterminal hc]
  by_cases hmem : c ∈ g.nonterminals
  · rw [if_pos hmem]
    rw [h.nonterminals, List.mem_eraseDups] at hmem
    refine ⟨?_, hletters, h.start, h.productions⟩
    rw [hnames, eraseDups_concat, if_pos hmem, h.nonterminals]
  · rw [if_neg hmem]
    rw [h.nonterminals, List.mem_eraseDups] at hmem
    refine ⟨?_, hletters, h.start, h.productions⟩
    rw [hnames, eraseDups_concat, if_neg hmem, h.nonterminals]

theorem Declared.attempt_terminal (h : g.Declared symbols start) (hc : isLower c = true) :
    (g.attempt (.declareTerminal c)).Declared (symbols ++ [.terminal c]) start := by
  have hnames : (symbols ++ [Symbol.terminal c]).filterMap Symbol.nonterminal? =
      symbols.filterMap Symbol.nonterminal? := List.filterMap_append.trans (List.append_nil _)
  have hletters : ∀ d, d = c ∨ d ∈ g.terminals ↔ .terminal d ∈ symbols ++ [.terminal c] := by
    intro d
    rw [h.terminals, List.mem_append, List.mem_singleton, Symbol.terminal.injEq, or_comm]
  rw [attempt_declareTerminal hc]
  by_cases hmem : c ∈ g.terminals
  · rw [if_pos hmem]
    refine ⟨by rw [hnames, h.nonterminals], fun d => ?_, h.start, h.productions⟩
    rw [← hletters]
    exact ⟨.inr, fun hd => hd.elim (· ▸ hmem) id⟩
  · rw [if_neg hmem]
    refine ⟨by rw [hnames]; exact h.nonterminals, fun d => ?_, h.start, h.productions⟩
    rw [← hletters]
    exact OrderedSet.mem_insert

theorem Declared.after (h : g.Declared symbols start)
    (hcased : ∀ s ∈ more, Symbol.ofChar? s.char = some s) :
    (g.after (more.map (·.declaration))).Declared (symbols ++ more) start := by
  induction more generalizing g symbols with
  | nil => rwa [List.append_nil]
  | cons s more ih =>
    obtain ⟨hs, hmore⟩ := List.forall_mem_cons.mp hcased
    rw [List.map_cons, after_cons, List.append_cons]
    cases s with
    | nonterminal c =>
      exact ih (h.attempt_nonterminal (Symbol.ofChar?_eq_nonterminal_iff.mp hs).2) hmore
    | terminal c => exact ih (h.attempt_terminal (Symbol.ofChar?_eq_terminal_iff.mp hs).2) hmore

theorem Declared.empty : (∅ : Grammar).Declared [] none :=
  ⟨rfl, fun c => iff_of_false (OrderedSet.not_mem_empty c) List.not_mem_nil, rfl, rfl⟩

theorem Declared.setStart (h : g.Declared symbols none) (hc : .nonterminal c ∈ symbols) :
    (g.attempt (.setStart c)).Declared symbols (some c) := by
  rw [attempt, Change.apply, setStart_eq_ok_iff.mpr ⟨h.mem_nonterminals.mpr hc, rfl⟩]
  exact ⟨h.nonterminals, h.terminals, rfl, h.productions⟩

end Grammar

variable {rules : List (Located Rule)}

theorem cased_of_readable (hread : ∀ r ∈ rules, r.item.Readable) :
    ∀ s ∈ rules.flatMap (·.item.symbols), Symbol.ofChar? s.char = some s := by
  intro s hs
  obtain ⟨r, hr, hs⟩ := List.mem_flatMap.mp hs
  exact (hread r hr).cased s hs

theorem declared_declarations (hread : ∀ r ∈ rules, r.item.Readable) :
    ((∅ : Grammar).after (declarations rules)).Declared (rules.flatMap (·.item.symbols))
      (rules.head?.map (·.item.head)) := by
  have h := Grammar.Declared.empty.after (cased_of_readable hread)
  rw [declarations, Grammar.after_append]
  cases rules with
  | nil => exact h
  | cons r rules => exact h.setStart (List.mem_cons_self ..)

/-! ## Productions -/

/-- A production as it is written. -/
def Production.written (p : Production) : Char × String := (p.head, p.alternative.text)

theorem Production.written_injective {p q : Production} (h : p.written = q.written) : p = q := by
  obtain ⟨c, a⟩ := p
  obtain ⟨d, b⟩ := q
  obtain ⟨hc, ht⟩ := Prod.mk.inj h
  exact Production.mk.injEq .. ▸ ⟨hc, Alternative.text_injective ht⟩

theorem Productions.mem_foldl_insert {p : Production} {l : List Production} {ps : Productions} :
    p ∈ l.foldl .insert ps ↔ p ∈ l ∨ p ∈ ps := by
  induction l generalizing ps with
  | nil => simp
  | cons q l ih => rw [List.foldl_cons, ih, mem_insert, List.mem_cons, or_left_comm, or_assoc]

/-- **Written productions are all added** if they are in normal form, over declared symbols and new. -/
theorem addAll_eq_nil_iff {written : List (Located (Char × String))} :
    addAll g written = (g', []) ↔ ∃ ps : List Production,
      ps.map (·.written) = written.map (·.item) ∧ ps.Nodup ∧
      (∀ p ∈ ps, p.head ∈ g.nonterminals ∧ g.Declares p.alternative ∧ p ∉ g.productions) ∧
      g' = { g with productions := ps.foldl .insert g.productions } := by
  induction written generalizing g with
  | nil =>
    constructor
    · intro h
      cases h
      exact ⟨[], rfl, List.nodup_nil, nofun, rfl⟩
    · rintro ⟨ps, hwritten, -, -, rfl⟩
      rw [List.map_eq_nil_iff.mp hwritten]
      rfl
  | cons w written ih =>
    rw [addAll_cons_eq_nil_iff]
    constructor
    · rintro ⟨g₁, h1, h2⟩
      obtain ⟨a, ht, hadd⟩ := Grammar.addWritten_eq_ok_iff.mp h1
      obtain ⟨hh, hd, hn, rfl⟩ := Grammar.add_eq_ok_iff.mp hadd
      obtain ⟨ps, hwritten, hnodup, hps, rfl⟩ := ih.mp h2
      have hnew : ∀ p ∈ ps, p ≠ ⟨w.item.1, a⟩ ∧ p ∉ g.productions := fun p hp =>
        not_or.mp fun hmem => (hps p hp).2.2 (Productions.mem_insert.mpr hmem)
      refine ⟨⟨w.item.1, a⟩ :: ps, ?_, ?_, ?_, rfl⟩
      · rw [List.map_cons, List.map_cons, hwritten, Production.written, ht]
      · exact List.nodup_cons.mpr ⟨fun hmem => (hnew _ hmem).1 rfl, hnodup⟩
      · intro p hp
        rcases List.mem_cons.mp hp with rfl | hp
        · exact ⟨hh, hd, hn⟩
        · exact ⟨(hps p hp).1, (hps p hp).2.1, (hnew p hp).2⟩
    · rintro ⟨ps, hwritten, hnodup, hps, rfl⟩
      cases ps with
      | nil => cases hwritten
      | cons p ps =>
        obtain ⟨hp, hwritten⟩ : p.written = w.item ∧ _ := List.cons.inj hwritten
        obtain ⟨hnot, hnodup⟩ := List.nodup_cons.mp hnodup
        obtain ⟨⟨hh, hd, hn⟩, hps⟩ := List.forall_mem_cons.mp hps
        have hadd : g.add p = (.ok (), { g with productions := g.productions.insert p }) :=
          Grammar.add_eq_ok_iff.mpr ⟨hh, hd, hn, rfl⟩
        refine ⟨{ g with productions := g.productions.insert p }, ?_,
          ih.mpr ⟨ps, hwritten, hnodup, fun q hq => ?_, rfl⟩⟩
        · rw [← hp]
          exact Grammar.addWritten_eq_ok_iff.mpr ⟨p.alternative, rfl, hadd⟩
        · obtain ⟨h1, h2, h3⟩ := hps q hq
          refine ⟨h1, h2, fun hmem => ?_⟩
          rcases Productions.mem_insert.mp hmem with rfl | hmem
          · exact hnot hq
          · exact h3 hmem

/-! ## Rules -/

theorem undefinedUses_eq_nil_iff : undefinedUses rules = [] ↔
    ∀ r ∈ rules, ∀ c ∈ r.item.uses, c ∈ rules.map (·.item.head) := by
  simp only [undefinedUses, List.flatMap_eq_nil_iff, List.map_eq_nil_iff]
  refine forall₂_congr fun r _ => ?_
  constructor
  · intro h c hc
    by_contra hmem
    have hundefined : c ∈ r.item.uses.filter (· ∉ rules.map (·.item.head)) :=
      List.mem_filter.mpr ⟨hc, decide_eq_true hmem⟩
    rw [← List.mem_eraseDups, h] at hundefined
    exact List.not_mem_nil hundefined
  · intro h
    have hnil : r.item.uses.filter (· ∉ rules.map (·.item.head)) = [] :=
      List.filter_eq_nil_iff.mpr fun c hc => by simpa using h c hc
    rw [hnil, List.eraseDups_nil]

theorem filterMap_ofChar?_map_char {ss : List Symbol}
    (hcased : ∀ s ∈ ss, Symbol.ofChar? s.char = some s) :
    (ss.map (·.char)).filterMap Symbol.ofChar? = ss := by
  induction ss with
  | nil => rfl
  | cons s ss ih =>
    obtain ⟨hs, hss⟩ := List.forall_mem_cons.mp hcased
    rw [List.map_cons, List.filterMap_cons_some hs, ih hss]

theorem Grammar.WellFormed.cased (hg : g.WellFormed) {a : Alternative} (hd : g.Declares a) :
    ∀ s ∈ a.symbols, Symbol.ofChar? s.char = some s := by
  cases a with
  | binary l r =>
    have hl := Symbol.ofChar?_eq_nonterminal_iff.mpr ⟨rfl, hg.upper l hd.1⟩
    have hr := Symbol.ofChar?_eq_nonterminal_iff.mpr ⟨rfl, hg.upper r hd.2⟩
    simpa [Alternative.symbols, Symbol.char] using ⟨hl, hr⟩
  | unary t =>
    have ht := Symbol.ofChar?_eq_terminal_iff.mpr ⟨rfl, hg.lower t hd⟩
    simpa [Alternative.symbols, Symbol.char] using ht

theorem Grammar.WellFormed.symbols_eq_of_text (hg : g.WellFormed) {a : Alternative}
    (hd : g.Declares a) {ss : List Symbol} (hcased : ∀ s ∈ ss, Symbol.ofChar? s.char = some s)
    (ht : a.text = String.ofList (ss.map (·.char))) : a.symbols = ss := by
  rw [← filterMap_ofChar?_map_char (hg.cased hd), ← filterMap_ofChar?_map_char hcased,
    a.map_char_symbols, String.ofList_injective ht]

theorem mem_map_item_writtenProductions {w : Char × String} :
    w ∈ (writtenProductions rules).map (·.item) ↔
      ∃ r ∈ rules, ∃ ss ∈ r.item.alternatives, (r.item.head, String.ofList (ss.map (·.char))) = w := by
  simp [writtenProductions, Rule.bodies, and_assoc]

theorem exists_map_rule_of_grammarOfRules (hread : ∀ r ∈ rules, r.item.Readable)
    (h : grammarOfRules rules = .ok g) :
    ∃ ns : List NormalRule, ns.map (·.rule) = rules.map (·.item) := by
  obtain ⟨ps, hwritten, -, hps, -⟩ := addAll_eq_nil_iff.mp (grammarOfRules_eq_ok_iff.mp h).2
  refine exists_map_rule (List.forall_mem_map.mpr hread) (List.forall_mem_map.mpr ?_)
  intro r hr ss hss
  have hmem : (r.item.head, String.ofList (ss.map (·.char))) ∈ ps.map (·.written) := by
    rw [hwritten, mem_map_item_writtenProductions]
    exact ⟨r, hr, ss, hss, rfl⟩
  obtain ⟨p, hp, hpw⟩ := List.mem_map.mp hmem
  refine ⟨p.alternative, (Grammar.WellFormed.empty.after _).symbols_eq_of_text (hps p hp).2.1 ?_
    (Prod.mk.inj hpw).2⟩
  intro s hs
  refine (hread r hr).cased s (List.mem_cons_of_mem _ ?_)
  exact List.mem_flatten.mpr ⟨ss, hss, hs⟩

/-! ## Rules in normal form -/

/-- **Rules that agree with each other**: every nonterminal in use heads one of them, and no production
is written twice. -/
structure Consistent (ns : List NormalRule) : Prop where
  closed : ∀ n ∈ ns, ∀ a ∈ n.alternatives, ∀ c, .nonterminal c ∈ a.symbols → c ∈ ns.map (·.head)
  nodup : (ns.flatMap (·.productions)).Nodup

section Normal

variable {ns : List NormalRule}

theorem map_item_writtenProductions (h : ns.map (·.rule) = rules.map (·.item)) :
    (writtenProductions rules).map (·.item) = (ns.flatMap (·.productions)).map (·.written) := by
  have hitems : (writtenProductions rules).map (·.item) =
      (rules.map (·.item)).flatMap fun r => r.bodies.map (r.head, ·) := by
    simp only [writtenProductions, List.map_flatMap, List.flatMap_map, List.map_map]
    rfl
  have hbodies : ∀ n : NormalRule, n.rule.bodies = n.alternatives.map (·.text) := by
    intro n
    simp only [Rule.bodies, NormalRule.rule, List.map_map]
    exact List.map_congr_left fun a _ => congrArg String.ofList a.map_char_symbols
  rw [hitems, ← h, List.flatMap_map, List.map_flatMap]
  congr 1
  funext n
  rw [hbodies, NormalRule.productions, List.map_map, List.map_map]
  rfl

theorem undefinedUses_eq_nil_iff_closed (h : ns.map (·.rule) = rules.map (·.item)) :
    undefinedUses rules = [] ↔
      ∀ n ∈ ns, ∀ a ∈ n.alternatives, ∀ c, .nonterminal c ∈ a.symbols → c ∈ ns.map (·.head) := by
  have hheads : rules.map (·.item.head) = ns.map (·.head) := by
    have hmap := congrArg (List.map Rule.head) h
    rw [List.map_map, List.map_map] at hmap
    exact hmap.symm
  have hitems : (∀ r ∈ rules, ∀ c ∈ r.item.uses, c ∈ ns.map (·.head)) ↔
      ∀ r ∈ rules.map (·.item), ∀ c ∈ r.uses, c ∈ ns.map (·.head) := by rw [List.forall_mem_map]
  rw [undefinedUses_eq_nil_iff, hheads, hitems, ← h, List.forall_mem_map]
  simp only [NormalRule.mem_uses_rule]
  constructor
  · intro hall n hn a ha c hc
    exact hall n hn c ⟨a, ha, hc⟩
  · rintro hall n hn c ⟨a, ha, hc⟩
    exact hall n hn a ha c hc

theorem mem_flatMap_productions {p : Production} : p ∈ ns.flatMap (·.productions) ↔
    ∃ n ∈ ns, p.head = n.head ∧ p.alternative ∈ n.alternatives := by
  obtain ⟨c, a⟩ := p
  simp only [List.mem_flatMap, NormalRule.productions, List.mem_map, Production.mk.injEq]
  refine exists_congr fun n => and_congr_right fun _ => ?_
  constructor
  · rintro ⟨b, hb, rfl, rfl⟩
    exact ⟨rfl, hb⟩
  · rintro ⟨rfl, ha⟩
    exact ⟨a, ha, rfl, rfl⟩

theorem mem_symbols_of_mem_productions (h : ns.map (·.rule) = rules.map (·.item)) {p : Production}
    (hp : p ∈ ns.flatMap (·.productions)) : .nonterminal p.head ∈ rules.flatMap (·.item.symbols) ∧
      ∀ s ∈ p.alternative.symbols, s ∈ rules.flatMap (·.item.symbols) := by
  obtain ⟨n, hn, hhead, ha⟩ := mem_flatMap_productions.mp hp
  have hrule : n.rule ∈ rules.map (·.item) := h ▸ List.mem_map_of_mem hn
  obtain ⟨r, hr, hrn⟩ := List.mem_map.mp hrule
  have hsub : ∀ s ∈ n.rule.symbols, s ∈ rules.flatMap (·.item.symbols) := fun s hs =>
    List.mem_flatMap.mpr ⟨r, hr, hrn ▸ hs⟩
  constructor
  · exact hsub _ (NormalRule.mem_symbols_rule.mpr (.inl (by rw [hhead])))
  · exact fun s hs => hsub s (NormalRule.mem_symbols_rule.mpr (.inr ⟨_, ha, hs⟩))

/-- **When rules define a grammar, and which one.** -/
theorem grammarOfRules_eq_ok_iff_consistent (hread : ∀ r ∈ rules, r.item.Readable)
    (hns : ns.map (·.rule) = rules.map (·.item)) : grammarOfRules rules = .ok g ↔ Consistent ns ∧
      g = { (∅ : Grammar).after (declarations rules) with
        productions := (ns.flatMap (·.productions)).foldl .insert ∅ } := by
  have hdeclared := declared_declarations hread
  rw [grammarOfRules_eq_ok_iff, ← hdeclared.productions]
  constructor
  · rintro ⟨hundefined, hadd⟩
    obtain ⟨ps, hwritten, hnodup, -, rfl⟩ := addAll_eq_nil_iff.mp hadd
    rw [map_item_writtenProductions hns] at hwritten
    obtain rfl := (List.map_inj_right fun _ _ => Production.written_injective).mp hwritten
    exact ⟨⟨(undefinedUses_eq_nil_iff_closed hns).mp hundefined, hnodup⟩, rfl⟩
  · rintro ⟨⟨hclosed, hnodup⟩, rfl⟩
    refine ⟨(undefinedUses_eq_nil_iff_closed hns).mpr hclosed, ?_⟩
    refine addAll_eq_nil_iff.mpr ⟨_, (map_item_writtenProductions hns).symm, hnodup, ?_, rfl⟩
    intro p hp
    obtain ⟨hhead, hbody⟩ := mem_symbols_of_mem_productions hns hp
    refine ⟨hdeclared.mem_nonterminals.mpr hhead, hdeclared.declares_iff.mpr hbody, ?_⟩
    rw [hdeclared.productions]
    exact Productions.not_mem_empty p

end Normal

end Chomsky
