import Chomsky.Proofs.RuleFile.Rule
import Mathlib.Computability.Language

/-!
# The language of the tokens

A line writes tokens if it is a spelling of each, one behind the other, with blanks before, between and behind them.
These lines are scanned, and each has one reading. Any other line is scanned as far as it writes tokens, and the
character behind that is the answer.

* `blanks`, `Token.spellings`, **`Token.lines`**: the lines that write tokens, as a product of languages;
* **`spells_iff_mem_lines`**: they are the lines that spell them;
* `LongestWritten`, **`Stops.exists_longestWritten`**: how far a line writes tokens;
* **`Token.scan_iff_mem_lines_or_longestWritten`**: the tokens of a line, or where it stops.
-/

namespace Chomsky

/-! ## Lines that write tokens -/

/-- The strings of blanks. -/
def blanks : Language Char := {cs | ∀ c ∈ cs, isBlank c = true}

namespace Token

/-- How a token is spelled. -/
def spellings : Token → Language Char
  | equals => {['='], [':', ':', '=']}
  | bar => {['|']}
  | symbol (.nonterminal c) => {cs | cs = [c] ∧ isUpper c = true}
  | symbol (.terminal c) => {cs | cs = [c] ∧ isLower c = true}

/-- **The lines that write tokens**: the spellings in order, with any blanks before, between and behind them. -/
def lines (ts : List Token) : Language Char := blanks * (ts.map fun t => t.spellings * blanks).prod

end Token

section Lines

variable {c : Char} {bs cs line before : List Char} {t : Token} {ts : List Token}

theorem Token.lines_nil : Token.lines [] = blanks := mul_one blanks

theorem Token.lines_cons : Token.lines (t :: ts) = blanks * (t.spellings * Token.lines ts) := by
  rw [lines, List.map_cons, List.prod_cons, mul_assoc, ← lines]

theorem Token.cons_mem_lines (hc : isBlank c = true) (h : cs ∈ Token.lines ts) : c :: cs ∈ Token.lines ts := by
  obtain ⟨bs, hbs, rest, hrest, rfl⟩ := Language.mem_mul.mp h
  exact Language.mem_mul.mpr ⟨c :: bs, List.forall_mem_cons.mpr ⟨hc, hbs⟩, rest, hrest, rfl⟩

theorem Token.append_mem_lines (hbs : bs ∈ t.spellings) (h : cs ∈ Token.lines ts) :
    bs ++ cs ∈ Token.lines (t :: ts) := by
  rw [lines_cons]
  exact Language.mem_mul.mpr ⟨[], List.forall_mem_nil _, _, Language.append_mem_mul hbs h, rfl⟩

theorem Spells.blanks_append (hbs : bs ∈ blanks) (h : Spells cs ts) : Spells (bs ++ cs) ts := by
  induction bs with
  | nil => exact h
  | cons b bs ih =>
    obtain ⟨hb, hbs⟩ := List.forall_mem_cons.mp hbs
    exact .blank hb (ih hbs)

theorem Spells.spelling_append (hbs : bs ∈ t.spellings) (h : Spells cs ts) : Spells (bs ++ cs) (t :: ts) := by
  cases t with
  | equals =>
    rcases hbs with rfl | rfl
    · exact .equals h
    · exact .define h
  | bar =>
    obtain rfl := hbs
    exact .bar h
  | symbol s =>
    cases s with
    | nonterminal c =>
      obtain ⟨rfl, hc⟩ := hbs
      exact .nonterminal hc h
    | terminal c =>
      obtain ⟨rfl, hc⟩ := hbs
      exact .terminal hc h

/-- **A line spells the tokens that it writes.** -/
theorem spells_iff_mem_lines : Spells line ts ↔ line ∈ Token.lines ts := by
  constructor
  · intro h
    induction h with
    | nil =>
      rw [Token.lines_nil]
      exact List.forall_mem_nil _
    | blank hc _ ih => exact Token.cons_mem_lines hc ih
    | equals _ ih => exact Token.append_mem_lines (t := .equals) (.inl rfl) ih
    | define _ ih => exact Token.append_mem_lines (t := .equals) (.inr rfl) ih
    | bar _ ih => exact Token.append_mem_lines (t := .bar) rfl ih
    | nonterminal hc _ ih => exact Token.append_mem_lines (t := .symbol (.nonterminal _)) ⟨rfl, hc⟩ ih
    | terminal hc _ ih => exact Token.append_mem_lines (t := .symbol (.terminal _)) ⟨rfl, hc⟩ ih
  · intro h
    induction ts generalizing line with
    | nil =>
      rw [Token.lines_nil] at h
      rw [← List.append_nil line]
      exact .blanks_append h .nil
    | cons t ts ih =>
      rw [Token.lines_cons] at h
      obtain ⟨bs, hbs, _, ⟨cs, hcs, rest, hrest, rfl⟩, rfl⟩ := Language.mem_mul.mp h
      exact .blanks_append hbs (.spelling_append hcs (ih hrest))

/-! ## How far a line writes tokens -/

/-- **The longest beginning of a line that writes tokens.** -/
def LongestWritten (line before : List Char) : Prop :=
  before <+: line ∧ (∃ ts, before ∈ Token.lines ts) ∧
    ∀ cs, cs <+: line → (∃ ts, cs ∈ Token.lines ts) → cs.length ≤ before.length

theorem LongestWritten.unique {before' : List Char} (h : LongestWritten line before)
    (h' : LongestWritten line before') : before = before' := by
  obtain ⟨hline, hts, hmax⟩ := h
  obtain ⟨hline', hts', hmax'⟩ := h'
  have hlen := Nat.le_antisymm (hmax' _ hline hts) (hmax _ hline' hts')
  exact (List.prefix_of_prefix_length_le hline hline' (Nat.le_of_eq hlen)).eq_of_length hlen

/-- **A line that stops writes tokens up to the place where it does, and not further.** The character there is a colon
that begins no sign, or one that no spelling holds. -/
theorem Stops.exists_longestWritten (h : Stops line c) : ∃ before behind, line = before ++ c :: behind ∧
    LongestWritten line before ∧ (c = ':' ∧ ¬ [':', ':', '='] <+: c :: behind ∨
      c ∉ ['=', ':', '|'] ∧ isBlank c = false ∧ isUpper c = false ∧ isLower c = false) := by
  obtain ⟨before, behind, rfl, ⟨ts, hts⟩, hc⟩ := h
  refine ⟨before, behind, rfl, ⟨List.prefix_append .., ⟨ts, spells_iff_mem_lines.mp hts⟩, ?_⟩, ?_⟩
  · rintro cs hcs ⟨us, hus⟩
    by_contra hlt
    -- a longer beginning goes on with the same character and stops there as well
    obtain ⟨rest, rfl⟩ := List.prefix_of_prefix_length_le (List.prefix_append ..) hcs (by omega)
    rw [List.prefix_append_right_inj] at hcs
    cases rest with
    | nil => simp at hlt
    | cons d rest =>
      obtain ⟨rfl, hrest⟩ := List.cons_prefix_cons.mp hcs
      have hstops : Stops (before ++ d :: rest) d :=
        ⟨before, rest, rfl, ⟨ts, hts⟩, hc.imp_left fun h => ⟨h.1, fun hsign => h.2 (hsign.trans hrest)⟩⟩
      have hscan := Token.scan_eq_error_iff.mpr hstops
      rw [Token.scan_of_spells (spells_iff_mem_lines.mpr hus)] at hscan
      cases hscan
  · refine hc.imp (fun h => ⟨h.1, fun hsign => h.2 (List.cons_prefix_cons.mp hsign).2⟩) fun h => ?_
    exact ⟨h.1, h.2.1, Symbol.ofChar?_eq_none_iff.mp h.2.2⟩

end Lines

namespace Token

variable {c : Char} {line : List Char} {ts : List Token}

theorem scan_eq_ok_iff_mem_lines : scan line = .ok ts ↔ line ∈ lines ts := scan_eq_ok_iff.trans spells_iff_mem_lines

theorem scan_eq_error_iff_longestWritten : scan line = .error c ↔
    ∃ before behind, line = before ++ c :: behind ∧ LongestWritten line before := by
  constructor
  · intro h
    obtain ⟨before, behind, hline, hlongest, -⟩ := (scan_eq_error_iff.mp h).exists_longestWritten
    exact ⟨before, behind, hline, hlongest⟩
  · rintro ⟨before, behind, hline, hlongest⟩
    cases hscan : scan line with
    | ok ts =>
      have hle := hlongest.2.2 line (List.prefix_refl line) ⟨ts, scan_eq_ok_iff_mem_lines.mp hscan⟩
      rw [hline, List.length_append, List.length_cons] at hle
      omega
    | error d =>
      obtain ⟨before', behind', hline', hlongest', -⟩ := (scan_eq_error_iff.mp hscan).exists_longestWritten
      obtain rfl := hlongest.unique hlongest'
      have hcons := List.append_cancel_left (hline.symm.trans hline')
      rw [(List.cons.inj hcons).1]

/-- **What scanning comes to.** A line is scanned into the tokens that it writes, of which it has one reading. A line
that writes none is refused with the character behind its longest beginning that does: a colon that does not begin
`::=`, or a character that is neither blank nor a sign nor a letter of either case. -/
theorem scan_iff_mem_lines_or_longestWritten (line : List Char) :
    (∀ ts, scan line = .ok ts ↔ line ∈ lines ts) ∧
    {ts | line ∈ lines ts}.Subsingleton ∧
    (∀ c, scan line = .error c ↔ ∃ before behind, line = before ++ c :: behind ∧ LongestWritten line before) ∧
    ((∃ ts, line ∈ lines ts) ∨ ∃ before c behind, line = before ++ c :: behind ∧ LongestWritten line before ∧
      Rule.ofLine line = .error (.unexpectedCharacter c) ∧
      (c = ':' ∧ ¬ [':', ':', '='] <+: c :: behind ∨
        c ∉ ['=', ':', '|'] ∧ isBlank c = false ∧ isUpper c = false ∧ isLower c = false)) := by
  refine ⟨fun ts => scan_eq_ok_iff_mem_lines, fun ts hts us hus => ?_, fun c => scan_eq_error_iff_longestWritten, ?_⟩
  · have hscan := scan_eq_ok_iff_mem_lines.mpr hts
    rw [scan_eq_ok_iff_mem_lines.mpr hus] at hscan
    exact (Except.ok.inj hscan).symm
  · cases hscan : scan line with
    | ok ts => exact .inl ⟨ts, scan_eq_ok_iff_mem_lines.mp hscan⟩
    | error c =>
      obtain ⟨before, behind, hline, hlongest, hc⟩ := (scan_eq_error_iff.mp hscan).exists_longestWritten
      exact .inr ⟨before, c, behind, hline, hlongest, by rw [Rule.ofLine, hscan], hc⟩

/-- A run of colons is cut from the left: the sign of the first line begins with its first colon, and in the second one
the colon behind the sign begins none. -/
example : scan "S ::==a".toList = .ok [.symbol (.nonterminal 'S'), .equals, .equals, .symbol (.terminal 'a')] ∧
    scan "S::=:::=a".toList = .error ':' := by decide +kernel

end Token

end Chomsky
