import Chomsky.Proofs.RuleFile.Reading
import Mathlib.Data.List.Sort

/-!
# What is wrong with a rule file

A file is refused for the faults of the first of three kinds that it has: lines that are no rules,
nonterminals that no rule defines, and alternatives that the grammar does not take. All faults of that
kind are listed in the order of the file, each at its line.

* `Collects`: what the members of a list give, in their order;
* `Malformed`, **`Rule.ofLine_eq_error_iff`**: the fault of a line;
* `numberedRuleLines`, `LineFaults`, `RulesAt`: the lines of a file, their faults and their rules;
* `FirstUndefined`, `UseFaults`: nonterminals without a definition;
* `Refuses`, `ProductionFaults`: alternatives that are not taken;
* `Rule.ofPieces`, `attemptAll`, **`readStepwise`**: a reader that leaves no refusal out, with
  `readStepwise_eq_readText`;
* **`readText_eq_error_iff_faults`**.
-/

namespace Chomsky

variable {path : Path} {text : String} {line : List Char} {errors : List (Located RuleError)}
  {rules : List (Located Rule)}

/-! ## Collecting -/

section Collecting

variable {α β : Type} {P : α → β → Prop} {as : List α} {bs bs' : List β}

/-- **What the members of a list give**, in their order; a member may give nothing. -/
inductive Collects (P : α → β → Prop) : List α → List β → Prop where
  | nil : Collects P [] []
  | skip {a : α} {as : List α} {bs : List β} (h : ∀ b, ¬ P a b) (rest : Collects P as bs) :
    Collects P (a :: as) bs
  | take {a : α} {b : β} {as : List α} {bs : List β} (h : P a b) (rest : Collects P as bs) :
    Collects P (a :: as) (b :: bs)

theorem Collects.unique (hP : ∀ {a b b'}, P a b → P a b' → b = b') (h : Collects P as bs)
    (h' : Collects P as bs') : bs = bs' := by
  induction h generalizing bs' with
  | nil =>
    cases h'
    rfl
  | skip hnone _ ih =>
    cases h' with
    | skip _ rest => exact ih rest
    | take hb _ => exact absurd hb (hnone _)
  | take hb _ ih =>
    cases h' with
    | skip hnone _ => exact absurd hb (hnone _)
    | take hb' rest => rw [hP hb hb', ih rest]

theorem collects_filterMap {f : α → Option β} (hf : ∀ a b, f a = some b ↔ P a b) (as : List α) :
    Collects P as (as.filterMap f) := by
  induction as with
  | nil => exact .nil
  | cons a as ih =>
    cases ha : f a with
    | none =>
      rw [List.filterMap_cons_none ha]
      refine .skip (fun b hb => ?_) ih
      rw [(hf a b).mpr hb] at ha
      cases ha
    | some b =>
      rw [List.filterMap_cons_some ha]
      exact .take ((hf a b).mp ha) ih

end Collecting

/-! ## The fault of a line -/

/-- **What is wrong with a line**, in the order in which it is looked for. -/
inductive Malformed (line : List Char) : RuleError → Prop where
  /-- A character begins no token. -/
  | unexpectedCharacter {c : Char} (h : Stops line c) : Malformed line (.unexpectedCharacter c)
  /-- The first token is no nonterminal. -/
  | missingNonterminal {ts : List Token} (h : Spells line ts)
    (hhead : ∀ c, ts[0]? ≠ some (.symbol (.nonterminal c))) : Malformed line .missingNonterminal
  /-- The second token is no equals sign. -/
  | missingEquals {ts : List Token} {c : Char} (h : Spells line ts)
    (hhead : ts[0]? = some (.symbol (.nonterminal c))) (hsign : ts[1]? ≠ some .equals) :
    Malformed line .missingEquals
  /-- Another equals sign follows. -/
  | unexpectedEquals {ts : List Token} {c : Char} (h : Spells line ts)
    (hhead : ts[0]? = some (.symbol (.nonterminal c))) (hsign : ts[1]? = some .equals)
    (hagain : .equals ∈ ts.drop 2) : Malformed line .unexpectedEquals

namespace Rule

variable {e : RuleError}

theorem malformed_of_ofTokens {ts : List Token} (hspells : Spells line ts) (h : ofTokens ts = .error e) :
    Malformed line e := by
  unfold ofTokens at h
  split at h
  · rename_i head rest
    split at h
    · cases h
      exact .unexpectedEquals hspells rfl rfl ‹_›
    · cases h
  · rename_i head rest hsign
    cases h
    refine .missingEquals hspells rfl fun heq => ?_
    cases rest with
    | nil => cases heq
    | cons t rest =>
      obtain rfl := Option.some.inj heq
      exact hsign rest rfl
  · rename_i hsign hhead
    cases h
    refine .missingNonterminal hspells fun c hc => ?_
    cases ts with
    | nil => cases hc
    | cons t rest =>
      obtain rfl := Option.some.inj hc
      exact hhead c rest rfl

theorem ofTokens_of_malformed {ts : List Token} {c : Char} (h : ts[0]? = some (.symbol (.nonterminal c))) :
    (ts[1]? ≠ some .equals → ofTokens ts = .error .missingEquals) ∧
      (ts[1]? = some .equals → .equals ∈ ts.drop 2 → ofTokens ts = .error .unexpectedEquals) := by
  obtain ⟨rest, rfl⟩ : ∃ rest, ts = .symbol (.nonterminal c) :: rest := by
    cases ts with
    | nil => cases h
    | cons t rest => exact ⟨rest, by rw [Option.some.inj h]⟩
  constructor
  · intro hsign
    rw [ofTokens]
    rintro rest' rfl
    exact hsign rfl
  · intro hsign hagain
    obtain ⟨rest, rfl⟩ : ∃ rest', rest = .equals :: rest' := by
      cases rest with
      | nil => cases hsign
      | cons t rest => exact ⟨rest, by rw [Option.some.inj hsign]⟩
    exact if_pos hagain

/-- **A line is refused for the first fault that it has.** -/
theorem ofLine_eq_error_iff : ofLine line = .error e ↔ Malformed line e := by
  constructor
  · intro h
    unfold ofLine at h
    split at h
    · rename_i ts hts
      exact malformed_of_ofTokens (Token.scan_eq_ok_iff.mp hts) h
    · rename_i c hc
      cases h
      exact .unexpectedCharacter (Token.scan_eq_error_iff.mp hc)
  · intro h
    cases h with
    | unexpectedCharacter h => rw [ofLine, Token.scan_eq_error_iff.mpr h]
    | @missingNonterminal ts h hhead =>
      rw [ofLine, Token.scan_eq_ok_iff.mpr h]
      show ofTokens ts = _
      unfold ofTokens
      split
      · exact absurd rfl (hhead _)
      · exact absurd rfl (hhead _)
      · rfl
    | missingEquals h hhead hsign =>
      rw [ofLine, Token.scan_eq_ok_iff.mpr h]
      exact (ofTokens_of_malformed hhead).1 hsign
    | unexpectedEquals h hhead hsign hagain =>
      rw [ofLine, Token.scan_eq_ok_iff.mpr h]
      exact (ofTokens_of_malformed hhead).2 hsign hagain

end Rule

/-! ## The lines of a file -/

/-- **The rule lines of a text with their numbers**, which count from one and count every line. -/
def numberedRuleLines (text : String) : List (List Char × Nat) :=
  ((text.toList.splitOn '\n').zipIdx 1).filter (isRuleLine ·.1)

/-- What a numbered rule line says. -/
def readRuleLine (path : Path) (l : List Char × Nat) : Except (Located RuleError) (Located Rule) :=
  match Rule.ofLine l.1 with
  | .ok rule => .ok ⟨⟨path, l.2⟩, rule⟩
  | .error e => .error ⟨⟨path, l.2⟩, e⟩

theorem readLines_eq_map (path : Path) (lines : List (List Char)) :
    readLines path (lines.map .ok) =
      ((lines.zipIdx 1).filter (isRuleLine ·.1)).map (readRuleLine path) := by
  rw [readLines, List.zipIdx_map, List.filterMap_map, ← List.filterMap_eq_map, List.filterMap_filter]
  rfl

theorem readLines_cutLines (path : Path) (text : String) :
    readLines path ((cutLines '\n' text.toList).map .ok) =
      (numberedRuleLines text).map (readRuleLine path) := by
  rw [readLines_eq_map, numberedRuleLines]
  rcases splitOn_eq_cutLines '\n' text.toList with h | h
  · rw [h]
  · rw [h, List.zipIdx_append, List.filter_append]
    simp [isRuleLine]

/-- **The faults of the lines**: one for each rule line that is no rule, at its place. -/
def LineFaults (path : Path) (text : String) (errors : List (Located RuleError)) : Prop :=
  Collects (fun l e => e.location = ⟨path, l.2⟩ ∧ Malformed l.1 e.item) (numberedRuleLines text) errors

theorem lineFaults_iff : LineFaults path text errors ↔
    errorsOf (readLines path ((cutLines '\n' text.toList).map .ok)) = errors := by
  have hcollects : LineFaults path text
      (errorsOf (readLines path ((cutLines '\n' text.toList).map .ok))) := by
    rw [readLines_cutLines, errorsOf, List.filterMap_map]
    refine collects_filterMap (fun l e => ?_) _
    obtain ⟨location, item⟩ := e
    rw [Function.comp_apply, readRuleLine, ← Rule.ofLine_eq_error_iff]
    cases Rule.ofLine l.1 <;> simp [eq_comm]
  refine ⟨fun h => hcollects.unique ?_ h, fun h => h ▸ hcollects⟩
  rintro l ⟨location, item⟩ ⟨location', item'⟩ ⟨rfl, h⟩ ⟨rfl, h'⟩
  rw [← Rule.ofLine_eq_error_iff] at h h'
  obtain rfl : item = item' := Except.error.inj (h.symm.trans h')
  rfl

/-- **The rules of a file**, one for each rule line, at its place. -/
def RulesAt (path : Path) (text : String) (rules : List (Located Rule)) : Prop :=
  List.Forall₂ (fun l r => r.location = ⟨path, l.2⟩ ∧ r.item.alternatives ≠ [] ∧
    Spells l.1 r.item.tokens) (numberedRuleLines text) rules

theorem rulesAt_iff : RulesAt path text rules ↔
    readLines path ((cutLines '\n' text.toList).map .ok) = rules.map .ok := by
  have hline : ∀ (l : List Char × Nat) (r : Located Rule),
      readRuleLine path l = .ok r ↔ r.location = ⟨path, l.2⟩ ∧ r.item.alternatives ≠ [] ∧
        Spells l.1 r.item.tokens := by
    rintro l ⟨location, item⟩
    rw [readRuleLine, ← Rule.ofLine_eq_ok_iff_spells]
    cases Rule.ofLine l.1 <;> simp [eq_comm]
  rw [readLines_cutLines, ← List.forall₂_eq_eq_eq, List.forall₂_map_left_iff,
    List.forall₂_map_right_iff, RulesAt]
  simp only [hline]

/-! ## Nonterminals without a definition -/

/-- **The nonterminals to the right in a rule that no rule defines**, in the order in which they first occur
there. -/
structure FirstUndefined (rules : List (Located Rule)) (r : Rule) (cs : List Char) : Prop where
  mem : ∀ c, c ∈ cs ↔ .nonterminal c ∈ r.alternatives.flatten ∧ ∀ r' ∈ rules, r'.item.head ≠ c
  ordered : cs.Pairwise fun c d =>
    r.alternatives.flatten.idxOf (.nonterminal c) < r.alternatives.flatten.idxOf (.nonterminal d)

/-- Of the nonterminals that pass a test, the first occurrences come in order. -/
theorem pairwise_idxOf_eraseDups_filter (ss : List Symbol) (p : Char → Bool) :
    ((ss.filterMap Symbol.nonterminal?).filter p).eraseDups.Pairwise
      fun c d => ss.idxOf (.nonterminal c) < ss.idxOf (.nonterminal d) := by
  induction ss generalizing p with
  | nil => exact List.Pairwise.nil
  | cons s ss ih =>
    have hlater : ∀ q : Char → Bool, (∀ c, q c = true → s ≠ .nonterminal c) →
        ((ss.filterMap Symbol.nonterminal?).filter q).eraseDups.Pairwise
          fun c d => (s :: ss).idxOf (.nonterminal c) < (s :: ss).idxOf (.nonterminal d) := by
      intro q hq
      refine (ih q).imp_of_mem fun {c d} hc hd hlt => ?_
      rw [List.mem_eraseDups, List.mem_filter] at hc hd
      rw [List.idxOf_cons_ne _ (hq c hc.2), List.idxOf_cons_ne _ (hq d hd.2)]
      omega
    cases s with
    | terminal _ => exact hlater p fun c _ => nofun
    | nonterminal a =>
      show ((a :: ss.filterMap Symbol.nonterminal?).filter p).eraseDups.Pairwise _
      by_cases ha : p a = true
      · have hne : ∀ c, (!c == a && p c) = true → Symbol.nonterminal a ≠ .nonterminal c := by
          intro c hc heq
          obtain rfl := Symbol.nonterminal.inj heq
          simp at hc
        rw [List.filter_cons_of_pos ha, List.eraseDups_cons, List.filter_filter, List.pairwise_cons]
        refine ⟨fun c hc => ?_, hlater _ hne⟩
        rw [List.mem_eraseDups, List.mem_filter] at hc
        rw [List.idxOf_cons_self, List.idxOf_cons_ne _ (hne c hc.2)]
        omega
      · rw [List.filter_cons_of_neg ha]
        exact hlater p fun c hc heq => ha (Symbol.nonterminal.inj heq ▸ hc)

theorem firstUndefined_iff {r : Rule} {cs : List Char} : FirstUndefined rules r cs ↔
    (r.uses.filter (· ∉ rules.map (·.item.head))).eraseDups = cs := by
  have hmem : ∀ c, c ∈ (r.uses.filter (· ∉ rules.map (·.item.head))).eraseDups ↔
      .nonterminal c ∈ r.alternatives.flatten ∧ ∀ r' ∈ rules, r'.item.head ≠ c := by
    intro c
    rw [List.mem_eraseDups, List.mem_filter, Rule.mem_uses]
    simp
  have hordered := pairwise_idxOf_eraseDups_filter r.alternatives.flatten (· ∉ rules.map (·.item.head))
  constructor
  · rintro ⟨hcs, hpairwise⟩
    let place (c : Char) : Nat := r.alternatives.flatten.idxOf (.nonterminal c)
    have : Std.Antisymm fun c d => place c < place d := ⟨fun c d hcd hdc => absurd hcd (by omega)⟩
    have : Std.Irrefl fun c d => place c < place d := ⟨fun c => Nat.lt_irrefl _⟩
    exact hordered.eq_of_mem_iff hpairwise fun c => (hmem c).trans (hcs c).symm
  · rintro rfl
    exact ⟨hmem, hordered⟩

/-- **The faults of the uses**: one for each nonterminal that a rule uses and no rule defines, at the place
of the rule that uses it. -/
def UseFaults (rules : List (Located Rule)) (errors : List (Located RuleError)) : Prop :=
  ∃ blocks, errors = blocks.flatten ∧ List.Forall₂ (fun r block => ∃ cs, FirstUndefined rules r.item cs ∧
    block = cs.map fun c => ⟨r.location, .undefinedNonterminal c⟩) rules blocks

theorem forall₂_apply_eq_iff {α β : Type} {f : α → β} {as : List α} {bs : List β} :
    List.Forall₂ (fun a b => f a = b) as bs ↔ as.map f = bs := by
  rw [← List.forall₂_eq_eq_eq, List.forall₂_map_left_iff]

theorem useFaults_iff : UseFaults rules errors ↔ undefinedUses rules = errors := by
  have hblock : ∀ (r : Located Rule) (block : List (Located RuleError)),
      (∃ cs, FirstUndefined rules r.item cs ∧ block = cs.map (⟨r.location, .undefinedNonterminal ·⟩)) ↔
      (r.item.uses.filter (· ∉ rules.map (·.item.head))).eraseDups.map
        (⟨r.location, .undefinedNonterminal ·⟩) = block := by
    intro r block
    rw [@eq_comm _ _ block]
    simp only [firstUndefined_iff, exists_eq_left']
  simp only [UseFaults, hblock, forall₂_apply_eq_iff, exists_eq_right']
  rw [undefinedUses, List.flatMap_def, eq_comm]

/-! ## Alternatives that are not taken -/

/-- Each member of a list with all that come before it. -/
def withEarlier {α : Type} (earlier : List α) : List α → List (List α × α)
  | [] => []
  | a :: as => (earlier, a) :: withEarlier (earlier ++ [a]) as

/-- **What the grammar has against an alternative of a head**, given the ones before it in the file. -/
inductive Refuses (earlier : List (Char × List Symbol)) (head : Char) (ss : List Symbol) :
    GrammarError → Prop where
  /-- It is neither two nonterminals nor one terminal. -/
  | notNormalForm (h : ∀ a : Alternative, a.symbols ≠ ss) :
    Refuses earlier head ss (.notNormalForm head (String.ofList (ss.map (·.char))))
  /-- The head has it already. -/
  | duplicate (hnormal : ∃ a : Alternative, a.symbols = ss) (h : (head, ss) ∈ earlier) :
    Refuses earlier head ss (.duplicateProduction head (String.ofList (ss.map (·.char))))

theorem Refuses.unique {earlier : List (Char × List Symbol)} {head : Char} {ss : List Symbol}
    {reason reason' : GrammarError} (h : Refuses earlier head ss reason)
    (h' : Refuses earlier head ss reason') : reason = reason' := by
  cases h with
  | notNormalForm h =>
    cases h' with
    | notNormalForm _ => rfl
    | duplicate hnormal _ => exact absurd hnormal.choose_spec (h _)
  | duplicate hnormal _ =>
    cases h' with
    | notNormalForm h' => exact absurd hnormal.choose_spec (h' _)
    | duplicate _ _ => rfl

/-- The heads of the rules with their alternatives, at their places. -/
def pairsAt (rules : List (Located Rule)) : List (Located (Char × List Symbol)) :=
  rules.flatMap fun r => r.item.pairs.map (⟨r.location, ·⟩)

/-- **What is wrong with an alternative**, given the ones before it, at its place. -/
def RefusedAt (p : List (Located (Char × List Symbol)) × Located (Char × List Symbol))
    (e : Located RuleError) : Prop :=
  e.location = p.2.location ∧ ∃ reason, e.item = .refused reason ∧
    Refuses (p.1.map (·.item)) p.2.item.1 p.2.item.2 reason

/-- **The faults of the productions**: one for each alternative that is not taken, at the place of its rule. -/
def ProductionFaults (rules : List (Located Rule)) (errors : List (Located RuleError)) : Prop :=
  Collects RefusedAt (withEarlier [] (pairsAt rules)) errors

/-- A production as it is written. -/
def Located.written (p : Located (Char × List Symbol)) : Located (Char × String) :=
  ⟨p.location, p.item.1, String.ofList (p.item.2.map (·.char))⟩

theorem map_written_pairsAt : (pairsAt rules).map (·.written) = writtenProductions rules := by
  simp only [pairsAt, writtenProductions, Rule.pairs, Rule.bodies, List.map_flatMap, List.map_map]
  rfl

section Adding

variable {g : Grammar} {earlier pairs : List (Located (Char × List Symbol))} {head : Char}
  {ss : List Symbol}

theorem Grammar.WellFormed.addWritten_cases (hg : g.WellFormed) (hhead : head ∈ g.nonterminals)
    (hcased : ∀ s ∈ ss, Symbol.ofChar? s.char = some s)
    (hdeclares : ∀ a : Alternative, a.symbols = ss → g.Declares a) {text : String}
    (ht : text = String.ofList (ss.map (·.char))) :
    (g.addWritten head text = (.error (.notNormalForm head text), g) ∧
      ∀ a : Alternative, a.symbols ≠ ss) ∨
    ∃ a : Alternative, a.symbols = ss ∧
      ((g.addWritten head text = (.error (.duplicateProduction head text), g) ∧
        (⟨head, a⟩ : Production) ∈ g.productions) ∨
      (g.addWritten head text = (.ok (), { g with productions := g.productions.insert ⟨head, a⟩ }) ∧
        (⟨head, a⟩ : Production) ∉ g.productions)) := by
  subst ht
  have hsymbols : ∀ a : Alternative, a.text = String.ofList (ss.map (·.char)) → g.Declares a →
      a.symbols = ss := fun a ht hd => hg.symbols_eq_of_text hd hcased ht
  by_cases hnormal : ∀ a : Alternative, a.symbols ≠ ss
  · exact .inl ⟨Grammar.addWritten_eq_error_iff.mpr
      ⟨rfl, .inr (.inl ⟨hhead, fun a ht hd => hnormal a (hsymbols a ht hd), rfl⟩)⟩, hnormal⟩
  · push Not at hnormal
    obtain ⟨a, rfl⟩ := hnormal
    have ht : a.text = String.ofList (a.symbols.map (·.char)) := by rw [a.map_char_symbols]; rfl
    have hd := hdeclares a rfl
    refine .inr ⟨a, rfl, ?_⟩
    by_cases hp : (⟨head, a⟩ : Production) ∈ g.productions
    · exact .inl ⟨Grammar.addWritten_eq_error_iff.mpr
        ⟨rfl, .inr (.inr ⟨hhead, a, ht, hd, hp, rfl⟩)⟩, hp⟩
    · exact .inr ⟨Grammar.addWritten_eq_ok_iff.mpr
        ⟨a, ht, Grammar.add_eq_ok_iff.mpr ⟨hhead, hd, hp, rfl⟩⟩, hp⟩

/-- Productions that are added one by one are refused for what has come before, which is what the grammar
holds. -/
theorem collects_addAll (hg : g.WellFormed)
    (hpairs : ∀ p ∈ pairs, p.item.1 ∈ g.nonterminals ∧
      (∀ s ∈ p.item.2, Symbol.ofChar? s.char = some s) ∧
      ∀ a : Alternative, a.symbols = p.item.2 → g.Declares a)
    (hearlier : ∀ c a, (⟨c, a⟩ : Production) ∈ g.productions ↔ (c, a.symbols) ∈ earlier.map (·.item)) :
    Collects RefusedAt (withEarlier earlier pairs) (addAll g (pairs.map (·.written))).2 := by
  induction pairs generalizing g earlier with
  | nil => exact .nil
  | cons p pairs ih =>
    obtain ⟨⟨hhead, hcased, hdeclares⟩, hrest⟩ := List.forall_mem_cons.mp hpairs
    obtain ⟨location, head, ss⟩ := p
    have hmem : ∀ c (a : Alternative), (c, a.symbols) ∈
        (earlier ++ [(⟨location, head, ss⟩ : Located (Char × List Symbol))]).map (·.item) ↔
        (⟨c, a⟩ : Production) ∈ g.productions ∨ c = head ∧ a.symbols = ss := by
      intro c a
      rw [hearlier, List.map_append, List.mem_append, List.map_singleton, List.mem_singleton,
        Prod.mk.injEq]
    rw [List.map_cons, withEarlier, addAll]
    dsimp only [Located.written]
    rcases hg.addWritten_cases hhead hcased hdeclares rfl with
      ⟨hadd, hnormal⟩ | ⟨a, rfl, ⟨hadd, hp⟩ | ⟨hadd, hp⟩⟩
    · rw [hadd]
      refine .take ⟨rfl, _, rfl, .notNormalForm hnormal⟩ (ih hg hrest fun c a => ?_)
      rw [hmem]
      exact (or_iff_left fun h => hnormal a h.2).symm
    · rw [hadd]
      refine .take ⟨rfl, _, rfl, .duplicate ⟨a, rfl⟩ ((hearlier head a).mp hp)⟩ (ih hg hrest fun c b => ?_)
      rw [hmem]
      refine (or_iff_left_of_imp ?_).symm
      rintro ⟨rfl, hb⟩
      rwa [Alternative.symbols_injective hb]
    · rw [hadd]
      refine .skip ?_ (ih ?_ ?_ fun c b => ?_)
      · rintro e ⟨-, reason, -, hnormal | ⟨-, h⟩⟩
        · exact hnormal a rfl
        · exact hp ((hearlier head a).mpr h)
      · exact hg.apply (show (Change.addWritten head _).apply g = _ from hadd)
      · exact hrest
      · rw [hmem, Productions.mem_insert, Production.mk.injEq, or_comm]
        exact or_congr_right (and_congr_right fun _ => ⟨congrArg _, Alternative.symbols_injective⟩)

end Adding

theorem mem_pairsAt {p : Located (Char × List Symbol)} (h : p ∈ pairsAt rules) :
    ∃ r ∈ rules, p.item.1 = r.item.head ∧ p.item.2 ∈ r.item.alternatives := by
  obtain ⟨r, hr, hp⟩ := List.mem_flatMap.mp h
  obtain ⟨_, hpair, rfl⟩ := List.mem_map.mp hp
  obtain ⟨ss, hss, rfl⟩ := List.mem_map.mp hpair
  exact ⟨r, hr, rfl, hss⟩

theorem productionFaults_addAll (hread : ∀ r ∈ rules, r.item.Readable) : ProductionFaults rules
    (addAll ((∅ : Grammar).after (declarations rules)) (writtenProductions rules)).2 := by
  have hdeclared := declared_declarations hread
  rw [← map_written_pairsAt]
  refine collects_addAll (Grammar.WellFormed.empty.after _) (fun p hp => ?_) fun c a => ?_
  · obtain ⟨r, hr, hhead, hbody⟩ := mem_pairsAt hp
    have hsub : ∀ s ∈ r.item.symbols, s ∈ rules.flatMap (·.item.symbols) := fun s hs =>
      List.mem_flatMap.mpr ⟨r, hr, hs⟩
    have hsymbols : ∀ s ∈ p.item.2, s ∈ r.item.symbols := fun s hs =>
      List.mem_cons_of_mem _ (List.mem_flatten.mpr ⟨_, hbody, hs⟩)
    refine ⟨?_, fun s hs => (hread r hr).cased s (hsymbols s hs), fun a ha => ?_⟩
    · rw [hdeclared.mem_nonterminals, hhead]
      exact hsub _ List.mem_cons_self
    · rw [hdeclared.declares_iff, ha]
      exact fun s hs => hsub s (hsymbols s hs)
  · rw [hdeclared.productions]
    exact iff_of_false (Productions.not_mem_empty _) List.not_mem_nil

theorem productionFaults_iff (hread : ∀ r ∈ rules, r.item.Readable) : ProductionFaults rules errors ↔
    (addAll ((∅ : Grammar).after (declarations rules)) (writtenProductions rules)).2 = errors := by
  have hcollects := productionFaults_addAll hread
  refine ⟨fun h => hcollects.unique ?_ h, fun h => h ▸ hcollects⟩
  rintro p ⟨location, item⟩ ⟨location', item'⟩ ⟨rfl, reason, rfl, h⟩ ⟨rfl, reason', rfl, h'⟩
  rw [h.unique h']

/-! ## A reader that leaves no refusal out -/

namespace Rule

/-- The symbols between two bars, token by token. -/
def symbolsOf : List Token → Except RuleError (List Symbol)
  | [] => .ok []
  | .equals :: _ => .error .unexpectedEquals
  | .bar :: _ => .error (.unexpectedCharacter '|')
  | .symbol s :: ts => (symbolsOf ts).map (s :: ·)

/-- The rule that tokens spell, its alternatives read one by one. -/
def ofPieces : List Token → Except RuleError Rule
  | .symbol (.nonterminal head) :: .equals :: rest =>
    ((rest.splitOn .bar).mapM symbolsOf).map (⟨head, ·⟩)
  | .symbol (.nonterminal _) :: _ => .error .missingEquals
  | _ => .error .missingNonterminal

/-- No bar stands between two bars, so an equals sign is all that can be in the way. -/
theorem symbolsOf_of_not_mem {ts : List Token} (hbar : Token.bar ∉ ts) : symbolsOf ts =
    if Token.equals ∈ ts then .error .unexpectedEquals else .ok (ts.filterMap Token.symbol?) := by
  induction ts with
  | nil => rfl
  | cons t ts ih =>
    obtain ⟨ht, hts⟩ := not_or.mp fun h => hbar (List.mem_cons.mpr h)
    cases t with
    | equals => simp [symbolsOf]
    | bar => exact absurd rfl ht
    | symbol s =>
      rw [symbolsOf, ih hts]
      by_cases h : Token.equals ∈ ts <;> simp [h, Except.map, Token.symbol?]

theorem mapM_symbolsOf {pieces : List (List Token)} (hbar : ∀ piece ∈ pieces, Token.bar ∉ piece) :
    pieces.mapM symbolsOf =
      if ∃ piece ∈ pieces, Token.equals ∈ piece then .error .unexpectedEquals
      else .ok (pieces.map (·.filterMap Token.symbol?)) := by
  induction pieces with
  | nil => rfl
  | cons piece pieces ih =>
    obtain ⟨hpiece, hpieces⟩ := List.forall_mem_cons.mp hbar
    rw [List.mapM_cons, symbolsOf_of_not_mem hpiece, ih hpieces]
    by_cases h : Token.equals ∈ piece
    · simp [h, bind, Except.bind]
    · by_cases h' : ∃ piece ∈ pieces, Token.equals ∈ piece <;>
        simp [h, h', bind, Except.bind, pure, Except.pure]

theorem ofPieces_eq_ofTokens (ts : List Token) : ofPieces ts = ofTokens ts := by
  fun_cases ofPieces ts with
  | case1 head rest =>
    rw [ofTokens, mapM_symbolsOf fun piece => not_mem_of_mem_splitOn]
    simp only [exists_mem_splitOn_iff equals_ne_bar]
    split <;> rfl
  | case2 head rest hsign => rw [ofTokens]; exact hsign
  | case3 ts hsign hhead => rw [ofTokens]; exact hsign; exact hhead

end Rule

/-- A numbered rule line, its alternatives read one by one. -/
def readRuleLineStepwise (path : Path) (l : List Char × Nat) :
    Except (Located RuleError) (Located Rule) :=
  match Token.scan l.1 with
  | .error c => .error ⟨⟨path, l.2⟩, .unexpectedCharacter c⟩
  | .ok ts =>
    match Rule.ofPieces ts with
    | .error e => .error ⟨⟨path, l.2⟩, e⟩
    | .ok rule => .ok ⟨⟨path, l.2⟩, rule⟩

theorem readRuleLineStepwise_eq (l : List Char × Nat) :
    readRuleLineStepwise path l = readRuleLine path l := by
  rw [readRuleLineStepwise, readRuleLine, Rule.ofLine]
  cases Token.scan l.1 with
  | error c => rfl
  | ok ts =>
    dsimp only
    rw [Rule.ofPieces_eq_ofTokens]
    cases Rule.ofTokens ts <;> rfl

/-- The change declares a symbol that is declared already. -/
def Change.redundant (g : Grammar) : Change → Bool
  | .declareNonterminal c => g.isNonterminal c
  | .declareTerminal c => g.isTerminal c
  | _ => false

/-- Makes changes one by one, each at its place, and lists the refusals. What is declared already is not
declared again. -/
def attemptAll : Grammar → List (Located Change) → Grammar × List (Located RuleError)
  | g, [] => (g, [])
  | g, change :: rest =>
    if change.item.redundant g then attemptAll g rest
    else match change.item.apply g with
      | (.ok (), g') => attemptAll g' rest
      | (.error e, g') =>
        let (g'', errors) := attemptAll g' rest
        (g'', ⟨change.location, .refused e⟩ :: errors)

/-- **The changes that a file makes**: its symbols, its start symbol and its productions. -/
def fileChanges (rules : List (Located Rule)) : List (Located Change) :=
  (rules.flatMap fun r => r.item.symbols.map fun s => ⟨r.location, s.declaration⟩) ++
    (rules.head?.map fun r => ⟨r.location, Change.setStart r.item.head⟩).toList ++
    (writtenProductions rules).map fun w => ⟨w.location, Change.addWritten w.item.1 w.item.2⟩

/-- The grammar of the rules, or every refusal, those of declarations and of the start symbol too. -/
def grammarStepwise (rules : List (Located Rule)) : Reading :=
  match undefinedUses rules with
  | [] =>
    match attemptAll ∅ (fileChanges rules) with
    | (g, []) => .ok g
    | (_, errors) => .error errors
  | errors => .error errors

/-- **Reads a text and leaves no refusal out.** -/
def readStepwise (path : Path) (text : String) : Reading :=
  let outcomes := (numberedRuleLines text).map (readRuleLineStepwise path)
  match errorsOf outcomes with
  | [] => grammarStepwise (valuesOf outcomes)
  | errors => .error errors

section Attempts

variable {g : Grammar} {changes rest : List (Located Change)}

theorem attemptAll_addWritten (g : Grammar) (written : List (Located (Char × String))) :
    attemptAll g (written.map fun w => ⟨w.location, Change.addWritten w.item.1 w.item.2⟩) =
      addAll g written := by
  induction written generalizing g with
  | nil => rfl
  | cons w written ih =>
    rw [List.map_cons, attemptAll, addAll, if_neg (by simp [Change.redundant]), Change.apply]
    rcases g.addWritten w.item.1 w.item.2 with ⟨e | u, g'⟩
    · simp only [ih]
    · simp only [ih]

theorem attemptAll_of_ok {change : Change} {g' : Grammar} {location : Location}
    (h : change.apply g = (.ok (), g')) (hnew : change.redundant g = false) :
    attemptAll g (⟨location, change⟩ :: rest) = attemptAll (g.attempt change) rest := by
  rw [attemptAll, hnew, if_neg Bool.false_ne_true, Grammar.attempt, h]

theorem attemptAll_declaration {s : Symbol} (hs : Symbol.ofChar? s.char = some s) (location : Location) :
    attemptAll g (⟨location, s.declaration⟩ :: rest) = attemptAll (g.attempt s.declaration) rest := by
  cases s with
  | nonterminal c =>
    have hc : isUpper c = true := (Symbol.ofChar?_eq_nonterminal_iff.mp hs).2
    by_cases hmem : c ∈ g.nonterminals
    · show attemptAll g (⟨location, .declareNonterminal c⟩ :: rest) =
        attemptAll (g.attempt (.declareNonterminal c)) rest
      rw [Grammar.attempt_declareNonterminal hc, if_pos hmem, attemptAll]
      exact if_pos (Grammar.isNonterminal_iff.mpr hmem)
    · exact attemptAll_of_ok (Grammar.declareNonterminal_eq_ok_iff.mpr ⟨hc, hmem, rfl⟩)
        (decide_eq_false hmem)
  | terminal c =>
    have hc : isLower c = true := (Symbol.ofChar?_eq_terminal_iff.mp hs).2
    by_cases hmem : c ∈ g.terminals
    · show attemptAll g (⟨location, .declareTerminal c⟩ :: rest) =
        attemptAll (g.attempt (.declareTerminal c)) rest
      rw [Grammar.attempt_declareTerminal hc, if_pos hmem, attemptAll]
      exact if_pos (Grammar.isTerminal_iff.mpr hmem)
    · exact attemptAll_of_ok (Grammar.declareTerminal_eq_ok_iff.mpr ⟨hc, hmem, rfl⟩)
        (decide_eq_false hmem)

theorem attemptAll_declarations (hchanges : ∀ change ∈ changes, ∃ s : Symbol,
      Symbol.ofChar? s.char = some s ∧ change.item = s.declaration) :
    attemptAll g (changes ++ rest) = attemptAll (g.after (changes.map (·.item))) rest := by
  induction changes generalizing g with
  | nil => rfl
  | cons change changes ih =>
    obtain ⟨⟨s, hs, hchange⟩, hrest⟩ := List.forall_mem_cons.mp hchanges
    obtain ⟨location, _⟩ := change
    obtain rfl := hchange
    rw [List.cons_append, attemptAll_declaration hs, ih hrest, List.map_cons, Grammar.after_cons]

/-- **Only productions are refused**: the symbols and the start symbol of readable rules are declared. -/
theorem attemptAll_fileChanges (hread : ∀ r ∈ rules, r.item.Readable) :
    attemptAll ∅ (fileChanges rules) =
      addAll ((∅ : Grammar).after (declarations rules)) (writtenProductions rules) := by
  have hdeclarations : ∀ change ∈ rules.flatMap fun r => r.item.symbols.map fun s =>
      (⟨r.location, s.declaration⟩ : Located Change), ∃ s : Symbol,
        Symbol.ofChar? s.char = some s ∧ change.item = s.declaration := by
    intro change hchange
    obtain ⟨r, hr, hchange⟩ := List.mem_flatMap.mp hchange
    obtain ⟨s, hs, rfl⟩ := List.mem_map.mp hchange
    exact ⟨s, (hread r hr).cased s hs, rfl⟩
  have hitems : (rules.flatMap fun r => r.item.symbols.map fun s =>
      (⟨r.location, s.declaration⟩ : Located Change)).map (·.item) =
        (rules.flatMap (·.item.symbols)).map (·.declaration) := by
    simp only [List.map_flatMap, List.map_map]
    rfl
  have hdeclared := Grammar.Declared.empty.after (cased_of_readable hread)
  rw [fileChanges, List.append_assoc, attemptAll_declarations hdeclarations, hitems, declarations,
    Grammar.after_append]
  cases rules with
  | nil => exact attemptAll_addWritten _ _
  | cons r rules =>
    have hstart : .nonterminal r.item.head ∈ (r :: rules).flatMap (·.item.symbols) :=
      List.mem_cons_self
    have hset : (Change.setStart r.item.head).apply _ = _ :=
      Grammar.setStart_eq_ok_iff.mpr ⟨hdeclared.mem_nonterminals.mpr hstart, rfl⟩
    exact (attemptAll_of_ok hset rfl).trans (attemptAll_addWritten _ _)

theorem grammarStepwise_eq (hread : ∀ r ∈ rules, r.item.Readable) :
    grammarStepwise rules = grammarOfRules rules := by
  rw [grammarOfRules, ← attemptAll_fileChanges hread]
  rfl

end Attempts

/-! ## The stages -/

theorem grammarOfRules_eq_error_iff : grammarOfRules rules = .error errors ↔ errors ≠ [] ∧
    (undefinedUses rules = errors ∨ undefinedUses rules = [] ∧
      (addAll ((∅ : Grammar).after (declarations rules)) (writtenProductions rules)).2 = errors) := by
  rw [grammarOfRules]
  cases undefinedUses rules with
  | nil =>
    rcases addAll ((∅ : Grammar).after (declarations rules)) (writtenProductions rules) with ⟨g, l⟩
    cases l <;> cases errors <;> simp
  | cons e l => cases errors <;> simp

theorem map_ok_valuesOf {ε α : Type} {outcomes : List (Except ε α)} (h : errorsOf outcomes = []) :
    (valuesOf outcomes).map .ok = outcomes := by
  induction outcomes with
  | nil => rfl
  | cons outcome outcomes ih =>
    cases outcome with
    | error e => cases h
    | ok a => exact congrArg (Except.ok a :: ·) (ih h)

theorem errorsOf_map_ok {ε α : Type} (values : List α) :
    errorsOf (values.map (Except.ok : α → Except ε α)) = [] := by
  rw [errorsOf, List.filterMap_map, List.filterMap_eq_nil_iff]
  exact fun _ _ => rfl

theorem readText_eq_error_iff : readText path text = .error errors ↔
    errors ≠ [] ∧ errorsOf (readLines path ((cutLines '\n' text.toList).map .ok)) = errors ∨
      ∃ rules, readLines path ((cutLines '\n' text.toList).map .ok) = rules.map .ok ∧
        grammarOfRules rules = .error errors := by
  rw [readText, readRules]
  generalize readLines path ((cutLines '\n' text.toList).map .ok) = outcomes
  cases h : errorsOf outcomes with
  | nil =>
    have hall := map_ok_valuesOf h
    constructor
    · exact fun hrules => .inr ⟨_, hall.symm, hrules⟩
    · rintro (⟨hne, rfl⟩ | ⟨rules, hrules, herror⟩)
      · exact absurd rfl hne
      · rw [← hall] at hrules
        obtain rfl := (List.map_inj_right fun _ _ => Except.ok.inj).mp hrules
        exact herror
  | cons e l =>
    constructor
    · intro heq
      obtain rfl := Except.error.inj heq
      exact .inl ⟨List.cons_ne_nil _ _, rfl⟩
    · rintro (⟨-, rfl⟩ | ⟨rules, rfl, -⟩)
      · rfl
      · rw [errorsOf_map_ok] at h
        cases h

theorem readable_of_rulesAt (h : RulesAt path text rules) : ∀ r ∈ rules, r.item.Readable := by
  have hlines : List.Forall₂ (fun line r => Rule.ofLine line = .ok r)
      ((numberedRuleLines text).map (·.1)) (rules.map (·.item)) :=
    (List.forall₂_map_left_iff.trans List.forall₂_map_right_iff).mpr
      (h.imp fun l r hr => Rule.ofLine_eq_ok_iff_spells.mpr hr.2)
  intro r hr
  obtain ⟨line, -, hline⟩ := exists_line_of_forall₂ hlines r.item (List.mem_map_of_mem hr)
  exact Rule.readable_of_ofLine hline

/-- **Declarations and start symbols are never refused.** -/
theorem readStepwise_eq_readText (path : Path) (text : String) :
    readStepwise path text = readText path text := by
  have hlines : (numberedRuleLines text).map (readRuleLineStepwise path) =
      readLines path ((cutLines '\n' text.toList).map .ok) := by
    rw [readLines_cutLines]
    exact List.map_congr_left fun l _ => readRuleLineStepwise_eq l
  rw [readStepwise, readText, readRules, hlines]
  cases h : errorsOf (readLines path ((cutLines '\n' text.toList).map .ok)) with
  | cons e l => rfl
  | nil =>
    have hrules := rulesAt_iff.mpr (map_ok_valuesOf h).symm
    exact grammarStepwise_eq (readable_of_rulesAt hrules)

/-- **A text that is refused is refused for the faults of one kind, all of them and in order.** A line without a
rule is blank or a comment. -/
theorem readText_eq_error_iff_faults (path : Path) (text : String) (errors : List (Located RuleError)) :
    (readText path text = .error errors ↔ errors ≠ [] ∧ (LineFaults path text errors ∨
      ∃ rules, RulesAt path text rules ∧
        (UseFaults rules errors ∨ UseFaults rules [] ∧ ProductionFaults rules errors))) ∧
    readStepwise path text = readText path text ∧
    ∀ line, isRuleLine line = false ↔ (∀ c ∈ line, isBlank c = true) ∨
      ∃ before behind, line = before ++ ';' :: behind ∧ ∀ c ∈ before, isBlank c = true := by
  refine ⟨?_, readStepwise_eq_readText path text, fun line => isRuleLine_eq_false_iff⟩
  rw [readText_eq_error_iff, and_or_left, lineFaults_iff, ← exists_and_left]
  refine or_congr_right (exists_congr fun rules => ?_)
  rw [and_left_comm, ← rulesAt_iff]
  refine and_congr_right fun hrules => ?_
  rw [grammarOfRules_eq_error_iff, useFaults_iff, useFaults_iff,
    productionFaults_iff (readable_of_rulesAt hrules)]

theorem readText_undefined_in_order : readText ⟨"u.cnf"⟩ "S = BCB | aC\n; no rule\nA = D | a" =
    .error [⟨⟨⟨"u.cnf"⟩, 1⟩, .undefinedNonterminal 'B'⟩, ⟨⟨⟨"u.cnf"⟩, 1⟩, .undefinedNonterminal 'C'⟩,
      ⟨⟨⟨"u.cnf"⟩, 3⟩, .undefinedNonterminal 'D'⟩] := by
  let first : Rule :=
    ⟨'S', [[.nonterminal 'B', .nonterminal 'C', .nonterminal 'B'], [.terminal 'a', .nonterminal 'C']]⟩
  let second : Rule := ⟨'A', [[.nonterminal 'D'], [.terminal 'a']]⟩
  refine (readText_eq_error_iff_faults _ _ _).1.mpr ⟨List.cons_ne_nil _ _,
    .inr ⟨[⟨⟨⟨"u.cnf"⟩, 1⟩, first⟩, ⟨⟨⟨"u.cnf"⟩, 3⟩, second⟩], ?_, .inl ?_⟩⟩
  · have hlines : numberedRuleLines "S = BCB | aC\n; no rule\nA = D | a" =
        [("S = BCB | aC".toList, 1), ("A = D | a".toList, 3)] := by decide +kernel
    rw [RulesAt, hlines]
    exact .cons ⟨rfl, Rule.ofLine_eq_ok_iff_spells.mp (by decide +kernel)⟩
      (.cons ⟨rfl, Rule.ofLine_eq_ok_iff_spells.mp (by decide +kernel)⟩ .nil)
  · exact ⟨[[_, _], [_]], rfl, .cons ⟨['B', 'C'], firstUndefined_iff.mpr (by decide +kernel), rfl⟩
      (.cons ⟨['D'], firstUndefined_iff.mpr (by decide +kernel), rfl⟩ .nil)⟩

/-- The blank line is counted. -/
example : (match readText ⟨"s.cnf"⟩ "S = AA | aA | AA\nA = a\n\nA ::= a" with
    | .error errors => errors.map fun e => (e.location.line, e.item)
    | .ok _ => []) =
      [(1, .refused (.notNormalForm 'S' "aA")), (1, .refused (.duplicateProduction 'S' "AA")),
        (4, .refused (.duplicateProduction 'A' "a"))] := by decide +kernel

end Chomsky
