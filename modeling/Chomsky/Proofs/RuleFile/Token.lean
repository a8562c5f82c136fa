import Chomsky.RuleFile.Token

/-!
# What a line spells

A line spells tokens if it writes them one after the other, with blanks anywhere around them. Scanning
finds the tokens that a line spells.

* **`Spells`**, **`Token.scan_eq_ok_iff`**: scanning reads spelling back;
* **`Stops`**, **`Token.scan_eq_error_iff`**: scanning stops at the first character that begins no token;
* `InsideSign`, **`Token.scan_insert_blank`**, `Token.scan_insert_colons`: spellings of the same tokens;
* **`Spells.filterMap_ofChar?`**: the letters of a line are the symbols that it spells.
-/

namespace Chomsky

/-! ## Letters -/

namespace Symbol

theorem ofChar?_eq_none_of_isBlank {c : Char} (h : isBlank c = true) : ofChar? c = none := by
  rw [ofChar?, letterCase_eq_none_of_isBlank h]

theorem letterCase_ne_none_of_ofChar? {c : Char} {s : Symbol} (h : ofChar? c = some s) :
    letterCase c ≠ none := fun hc => by
  rw [ofChar?, hc] at h
  cases h

theorem ofChar?_eq_nonterminal_iff {c d : Char} :
    ofChar? c = some (nonterminal d) ↔ c = d ∧ isUpper c = true := by
  rw [ofChar?, isUpper]
  rcases letterCase c with _ | _ | _ <;> simp

theorem ofChar?_eq_terminal_iff {c d : Char} :
    ofChar? c = some (terminal d) ↔ c = d ∧ isLower c = true := by
  rw [ofChar?, isLower]
  rcases letterCase c with _ | _ | _ <;> simp

theorem ofChar?_eq_none_iff {c : Char} : ofChar? c = none ↔ isUpper c = false ∧ isLower c = false := by
  rw [ofChar?, isUpper, isLower]
  rcases letterCase c with _ | _ | _ <;> simp

end Symbol

/-! ## Spelling -/

/-- **A line spells tokens.** -/
inductive Spells : List Char → List Token → Prop where
  | nil : Spells [] []
  | blank {c : Char} {cs : List Char} {ts : List Token} (h : isBlank c = true)
    (rest : Spells cs ts) : Spells (c :: cs) ts
  | equals {cs : List Char} {ts : List Token} (rest : Spells cs ts) :
    Spells ('=' :: cs) (.equals :: ts)
  | define {cs : List Char} {ts : List Token} (rest : Spells cs ts) :
    Spells (':' :: ':' :: '=' :: cs) (.equals :: ts)
  | bar {cs : List Char} {ts : List Token} (rest : Spells cs ts) : Spells ('|' :: cs) (.bar :: ts)
  | nonterminal {c : Char} {cs : List Char} {ts : List Token} (h : isUpper c = true)
    (rest : Spells cs ts) : Spells (c :: cs) (.symbol (.nonterminal c) :: ts)
  | terminal {c : Char} {cs : List Char} {ts : List Token} (h : isLower c = true)
    (rest : Spells cs ts) : Spells (c :: cs) (.symbol (.terminal c) :: ts)

namespace Token

variable {c : Char} {cs line : List Char} {ts : List Token}

theorem not_sign (h : isBlank c = true ∨ letterCase c ≠ none) : c ≠ '=' ∧ c ≠ ':' ∧ c ≠ '|' := by
  refine ⟨?_, ?_, ?_⟩
  all_goals
    rintro rfl
    revert h
    decide +kernel

theorem scan_blank (h : isBlank c = true) : scan (c :: cs) = scan cs := by
  obtain ⟨h1, h2, h3⟩ := not_sign (.inl h)
  rw [scan, if_pos h]
  · exact h1
  · exact fun _ hc _ => h2 hc
  · exact h3

theorem scan_symbol {s : Symbol} (h : Symbol.ofChar? c = some s) :
    scan (c :: cs) = (scan cs).map (symbol s :: ·) := by
  have hletter := Symbol.letterCase_ne_none_of_ofChar? h
  have hblank : ¬ isBlank c = true := fun hb => hletter (letterCase_eq_none_of_isBlank hb)
  obtain ⟨h1, h2, h3⟩ := not_sign (.inr hletter)
  rw [scan, if_neg hblank, h]
  · exact h1
  · exact fun _ hc _ => h2 hc
  · exact h3

theorem map_cons_eq_ok_iff {t : Token} {x : Except Char (List Token)} :
    x.map (t :: ·) = .ok ts ↔ ∃ us, x = .ok us ∧ ts = t :: us := by
  cases x <;> simp [Except.map, eq_comm]

theorem spells_of_scan (h : scan line = .ok ts) : Spells line ts := by
  fun_induction scan line generalizing ts with
  | case1 => cases h; exact .nil
  | case2 cs ih =>
    obtain ⟨us, hus, rfl⟩ := map_cons_eq_ok_iff.mp h
    exact .equals (ih hus)
  | case3 cs ih =>
    obtain ⟨us, hus, rfl⟩ := map_cons_eq_ok_iff.mp h
    exact .define (ih hus)
  | case4 cs ih =>
    obtain ⟨us, hus, rfl⟩ := map_cons_eq_ok_iff.mp h
    exact .bar (ih hus)
  | case5 c cs _ _ _ hblank ih => exact .blank hblank (ih h)
  | case6 c cs _ _ _ _ s hs ih =>
    obtain ⟨us, hus, rfl⟩ := map_cons_eq_ok_iff.mp h
    cases s with
    | nonterminal d =>
      obtain ⟨rfl, hc⟩ := Symbol.ofChar?_eq_nonterminal_iff.mp hs
      exact .nonterminal hc (ih hus)
    | terminal d =>
      obtain ⟨rfl, hc⟩ := Symbol.ofChar?_eq_terminal_iff.mp hs
      exact .terminal hc (ih hus)
  | case7 => cases h

theorem scan_append (h : Spells line ts) (cs : List Char) :
    scan (line ++ cs) = (scan cs).map (ts ++ ·) := by
  induction h with
  | nil => rw [List.nil_append]; cases scan cs <;> rfl
  | blank h _ ih => rw [List.cons_append, scan_blank h, ih]
  | equals _ ih => rw [List.cons_append, scan, ih]; cases scan cs <;> rfl
  | define _ ih =>
    rw [List.cons_append, List.cons_append, List.cons_append, scan, ih]
    cases scan cs <;> rfl
  | bar _ ih => rw [List.cons_append, scan, ih]; cases scan cs <;> rfl
  | nonterminal h _ ih =>
    rw [List.cons_append, scan_symbol (Symbol.ofChar?_eq_nonterminal_iff.mpr ⟨rfl, h⟩), ih]
    cases scan cs <;> rfl
  | terminal h _ ih =>
    rw [List.cons_append, scan_symbol (Symbol.ofChar?_eq_terminal_iff.mpr ⟨rfl, h⟩), ih]
    cases scan cs <;> rfl

theorem scan_of_spells (h : Spells line ts) : scan line = .ok ts := by
  have happend := scan_append h []
  rw [List.append_nil] at happend
  rw [happend, scan]
  exact congrArg Except.ok (List.append_nil ts)

/-- **Scanning reads spelling back.** -/
theorem scan_eq_ok_iff : scan line = .ok ts ↔ Spells line ts := ⟨spells_of_scan, scan_of_spells⟩

end Token

/-! ## Where scanning stops -/

theorem Spells.append {cs ds : List Char} {ts us : List Token} (h : Spells cs ts) (h' : Spells ds us) :
    Spells (cs ++ ds) (ts ++ us) := by
  induction h with
  | nil => exact h'
  | blank hc _ ih => exact .blank hc ih
  | equals _ ih => exact .equals ih
  | define _ ih => exact .define ih
  | bar _ ih => exact .bar ih
  | nonterminal hc _ ih => exact .nonterminal hc ih
  | terminal hc _ ih => exact .terminal hc ih

/-- **A line stops at a character**: what stands before it spells tokens, and it begins none. A colon begins
one in front of `:=` only. -/
def Stops (line : List Char) (c : Char) : Prop :=
  ∃ before rest, line = before ++ c :: rest ∧ (∃ ts, Spells before ts) ∧
    (c = ':' ∧ ¬ [':', '='] <+: rest ∨
      c ∉ ['=', ':', '|'] ∧ isBlank c = false ∧ Symbol.ofChar? c = none)

theorem Stops.append {cs ds : List Char} {ts : List Token} {c : Char} (h : Spells cs ts) (h' : Stops ds c) :
    Stops (cs ++ ds) c := by
  obtain ⟨before, rest, rfl, ⟨us, hus⟩, hc⟩ := h'
  exact ⟨cs ++ before, rest, (List.append_assoc ..).symm, ⟨_, h.append hus⟩, hc⟩

namespace Token

variable {c : Char} {cs line : List Char}

theorem map_cons_eq_error_iff {t : Token} {x : Except Char (List Token)} :
    x.map (t :: ·) = .error c ↔ x = .error c := by
  cases x <;> simp [Except.map]

theorem stops_of_scan (h : scan line = .error c) : Stops line c := by
  fun_induction scan line with
  | case1 => cases h
  | case2 cs ih => exact .append (.equals .nil) (ih (map_cons_eq_error_iff.mp h))
  | case3 cs ih => exact .append (.define .nil) (ih (map_cons_eq_error_iff.mp h))
  | case4 cs ih => exact .append (.bar .nil) (ih (map_cons_eq_error_iff.mp h))
  | case5 d cs _ _ _ hblank ih => exact .append (.blank hblank .nil) (ih h)
  | case6 d cs _ _ _ _ s hs ih =>
    have hrest := ih (map_cons_eq_error_iff.mp h)
    cases s with
    | nonterminal d' =>
      obtain ⟨rfl, hd⟩ := Symbol.ofChar?_eq_nonterminal_iff.mp hs
      exact .append (.nonterminal hd .nil) hrest
    | terminal d' =>
      obtain ⟨rfl, hd⟩ := Symbol.ofChar?_eq_terminal_iff.mp hs
      exact .append (.terminal hd .nil) hrest
  | case7 d cs hequals hdefine hbar hblank hs =>
    obtain rfl := Except.error.inj h
    refine ⟨[], cs, rfl, ⟨[], .nil⟩, ?_⟩
    by_cases hcolon : d = ':'
    · refine .inl ⟨hcolon, ?_⟩
      rintro ⟨rest, rfl⟩
      exact hdefine rest hcolon rfl
    · refine .inr ⟨?_, (Bool.not_eq_true _).mp hblank, hs⟩
      simp only [List.mem_cons, List.not_mem_nil, or_false, not_or]
      exact ⟨hequals, hcolon, hbar⟩

theorem scan_colon (h : ¬ [':', '='] <+: cs) : scan (':' :: cs) = .error ':' := by
  have hcolon : isBlank ':' = false ∧ Symbol.ofChar? ':' = none := by decide +kernel
  rw [scan, hcolon.1, hcolon.2]
  · rfl
  · exact nofun
  · rintro ds - rfl
    exact h ⟨ds, rfl⟩
  · exact nofun

theorem scan_stop (hsign : c ∉ ['=', ':', '|']) (hblank : isBlank c = false)
    (hnone : Symbol.ofChar? c = none) (cs : List Char) : scan (c :: cs) = .error c := by
  simp only [List.mem_cons, List.not_mem_nil, or_false, not_or] at hsign
  obtain ⟨h1, h2, h3⟩ := hsign
  rw [scan, hblank, hnone]
  · rfl
  · exact h1
  · exact fun _ hc _ => h2 hc
  · exact h3

end Token

/-- **A place strictly inside a definition sign**, between what stands before it and what stands behind. -/
def InsideSign (before behind : List Char) : Prop :=
  ∃ a b, a ≠ [] ∧ b ≠ [] ∧ a ++ b = [':', ':', '='] ∧ a <:+ before ∧ b <+: behind

section Places

variable {c : Char} {cs ds es before behind : List Char}

theorem insideSign_iff : InsideSign before behind ↔
    [':'] <:+ before ∧ [':', '='] <+: behind ∨ [':', ':'] <:+ before ∧ ['='] <+: behind := by
  constructor
  · rintro ⟨a, b, ha, hb, hab, hbefore, hbehind⟩
    rcases a with _ | ⟨x, _ | ⟨y, _ | ⟨z, a⟩⟩⟩
    · exact absurd rfl ha
    · simp only [List.singleton_append, List.cons.injEq] at hab
      obtain ⟨rfl, rfl⟩ := hab
      exact .inl ⟨hbefore, hbehind⟩
    · simp only [List.cons_append, List.nil_append, List.cons.injEq] at hab
      obtain ⟨rfl, rfl, rfl⟩ := hab
      exact .inr ⟨hbefore, hbehind⟩
    · simp [hb] at hab
  · rintro (⟨h1, h2⟩ | ⟨h1, h2⟩)
    · exact ⟨[':'], [':', '='], nofun, nofun, rfl, h1, h2⟩
    · exact ⟨[':', ':'], ['='], nofun, nofun, rfl, h1, h2⟩

theorem InsideSign.mono (h : InsideSign cs ds) (hcs : cs <:+ before) (hds : ds <+: behind) :
    InsideSign before behind := by
  obtain ⟨a, b, ha, hb, hab, hbefore, hbehind⟩ := h
  exact ⟨a, b, ha, hb, hab, hbefore.trans hcs, hbehind.trans hds⟩

/-- Behind a colon, what follows completes a definition sign from the inside only. -/
theorem not_prefix_append (h : ¬ [':', '='] <+: cs) (hin : ¬ InsideSign (before ++ ':' :: cs) ds) :
    ¬ [':', '='] <+: cs ++ ds := by
  rw [insideSign_iff, not_or] at hin
  rcases cs with _ | ⟨x, _ | ⟨y, cs⟩⟩
  · exact fun hds => hin.1 ⟨List.suffix_append .., hds⟩
  · intro hds
    obtain ⟨rfl, hsign⟩ := List.cons_prefix_cons.mp hds
    exact hin.2 ⟨List.suffix_append .., hsign⟩
  · intro hds
    rw [List.cons_append, List.cons_append, List.cons_prefix_cons, List.cons_prefix_cons] at hds
    exact h (hds.1 ▸ hds.2.1 ▸ ⟨cs, rfl⟩)

namespace Token

/-- A line that stops still does when it goes on, unless that completes a definition sign. -/
theorem scan_append_of_stops (h : Stops cs c) (hin : ¬ InsideSign cs ds) : scan (cs ++ ds) = .error c := by
  obtain ⟨before, rest, rfl, ⟨ts, hts⟩, hc⟩ := h
  have hstop : scan (c :: (rest ++ ds)) = .error c := by
    rcases hc with ⟨rfl, hrest⟩ | ⟨hsign, hblank, hnone⟩
    · exact scan_colon (not_prefix_append hrest hin)
    · exact scan_stop hsign hblank hnone _
  rw [List.append_assoc, List.cons_append, scan_append hts, hstop]
  rfl

/-- **Scanning stops where no token begins.** -/
theorem scan_eq_error_iff : scan cs = .error c ↔ Stops cs c := by
  refine ⟨stops_of_scan, fun h => ?_⟩
  rw [← List.append_nil cs]
  exact scan_append_of_stops h (by simp [insideSign_iff])

theorem scan_append_congr (h : scan ds = scan es) (hds : ¬ InsideSign cs ds) (hes : ¬ InsideSign cs es) :
    scan (cs ++ ds) = scan (cs ++ es) := by
  cases hcs : scan cs with
  | ok ts => rw [scan_append (scan_eq_ok_iff.mp hcs), scan_append (scan_eq_ok_iff.mp hcs), h]
  | error c =>
    have hstops := stops_of_scan hcs
    rw [scan_append_of_stops hstops hds, scan_append_of_stops hstops hes]

/-- **A blank says nothing unless it stands inside a definition sign.** -/
theorem scan_insert_blank (hc : isBlank c = true) (h : ¬ InsideSign cs ds) :
    scan (cs ++ c :: ds) = scan (cs ++ ds) := by
  refine scan_append_congr (scan_blank hc) (fun hin => ?_) h
  have hsign := not_sign (.inl hc)
  rcases insideSign_iff.mp hin with ⟨-, hc⟩ | ⟨-, hc⟩
  · exact hsign.2.1 (List.cons_prefix_cons.mp hc).1.symm
  · exact hsign.1 (List.cons_prefix_cons.mp hc).1.symm

/-- **Both signs say the same** unless one is a part of the other. -/
theorem scan_insert_colons (h : ¬ [':', ':'] <:+ cs) :
    scan (cs ++ ':' :: ':' :: '=' :: ds) = scan (cs ++ '=' :: ds) := by
  refine scan_append_congr (by rw [scan, scan]) (fun hin => ?_) (fun hin => ?_)
  · simp [insideSign_iff, List.cons_prefix_cons] at hin
  · simp [insideSign_iff, List.cons_prefix_cons, h] at hin

end Token

end Places

/-! ## The letters of a line -/

/-- **The letters of a line are the symbols that it spells.** -/
theorem Spells.filterMap_ofChar? {line : List Char} {ts : List Token} (h : Spells line ts) :
    line.filterMap Symbol.ofChar? = ts.filterMap Token.symbol? := by
  have h1 : Symbol.ofChar? '=' = none := by decide +kernel
  have h2 : Symbol.ofChar? ':' = none := by decide +kernel
  have h3 : Symbol.ofChar? '|' = none := by decide +kernel
  induction h with
  | nil => rfl
  | blank h _ ih => rw [List.filterMap_cons_none (Symbol.ofChar?_eq_none_of_isBlank h), ih]
  | equals _ ih => rw [List.filterMap_cons_none h1, ih]; rfl
  | define _ ih =>
    rw [List.filterMap_cons_none h2, List.filterMap_cons_none h2, List.filterMap_cons_none h1, ih]
    rfl
  | bar _ ih => rw [List.filterMap_cons_none h3, ih]; rfl
  | nonterminal h _ ih =>
    rw [List.filterMap_cons_some (Symbol.ofChar?_eq_nonterminal_iff.mpr ⟨rfl, h⟩), ih]
    rfl
  | terminal h _ ih =>
    rw [List.filterMap_cons_some (Symbol.ofChar?_eq_terminal_iff.mpr ⟨rfl, h⟩), ih]
    rfl

namespace Symbol

theorem filterMap_nonterminal?_ofChar? (cs : List Char) :
    (cs.filterMap ofChar?).filterMap nonterminal? = cs.filter isUpper := by
  rw [List.filterMap_filterMap, ← List.filterMap_eq_filter]
  congr 1
  funext c
  rw [ofChar?, Option.guard, isUpper]
  rcases letterCase c with _ | _ | _ <;> rfl

theorem terminal_mem_filterMap_ofChar? {c : Char} {cs : List Char} :
    terminal c ∈ cs.filterMap ofChar? ↔ c ∈ cs ∧ isLower c = true := by
  simp only [List.mem_filterMap, ofChar?_eq_terminal_iff]
  constructor
  · rintro ⟨d, hd, rfl, hlower⟩
    exact ⟨hd, hlower⟩
  · rintro ⟨hc, hlower⟩
    exact ⟨c, hc, rfl, hlower⟩

end Symbol

end Chomsky
