import Chomsky.Proofs.RuleFile.Faults

/-!
# Layout

Blanks may stand anywhere but inside a definition sign, either equals sign may be written, and neither a carriage
return in front of a line break nor a line break at the end says anything. A blank line or a comment moves the
errors behind it by one line and does nothing else.

* `LayoutEdit`, **`readText_of_layoutEdit`**;
* `Located.relocate`, **`grammarOfRules_relocate`**: what rules define is no matter of where they stand;
* `Location.moveDown`, **`readText_insert_line`**;
* **`readText_layout`**.
-/

namespace Chomsky

variable {path : Path} {cs ds line : List Char}

/-! ## Edits within a line -/

/-- Two lines say the same. -/
structure SameLine (cs ds : List Char) : Prop where
  isRuleLine : isRuleLine cs = isRuleLine ds
  ofLine : Rule.ofLine cs = Rule.ofLine ds

theorem SameLine.readLine (h : SameLine cs ds) (n : Nat) :
    readLine path (.ok cs) n = readLine path (.ok ds) n := by
  dsimp only [Chomsky.readLine]
  rw [h.isRuleLine, h.ofLine]

theorem sameLine_insert_blank {c : Char} (hc : isBlank c = true) (h : ¬ InsideSign cs ds) :
    SameLine (cs ++ c :: ds) (cs ++ ds) :=
  ⟨isRuleLine_insert_blank hc, by rw [Rule.ofLine, Rule.ofLine, Token.scan_insert_blank hc h]⟩

theorem sameLine_insert_colons (h : ¬ [':', ':'] <:+ cs) :
    SameLine (cs ++ ':' :: ':' :: '=' :: ds) (cs ++ '=' :: ds) :=
  ⟨isRuleLine_insert_colons, by rw [Rule.ofLine, Rule.ofLine, Token.scan_insert_colons h]⟩

theorem readText_eq_readRules (path : Path) (cs : List Char) :
    readText path (String.ofList cs) = readRules path ((cs.splitOn '\n').map .ok) := by
  have hlines : readLines path ((cs.splitOn '\n').map .ok) =
      readLines path ((cutLines '\n' (String.ofList cs).toList).map .ok) := by
    rw [readLines_cutLines, readLines_eq_map, numberedRuleLines, String.toList_ofList]
  rw [readText, readRules, readRules, hlines]

theorem readText_edit (path : Path) (u v : List Char) {mid mid' : List Char} (hmid : '\n' ∉ mid)
    (hmid' : '\n' ∉ mid') (h : ∀ l r, l <:+ u → r <+: v → SameLine (l ++ mid ++ r) (l ++ mid' ++ r)) :
    readText path (String.ofList (u ++ mid ++ v)) = readText path (String.ofList (u ++ mid' ++ v)) := by
  obtain ⟨before, l, hl, hlu, hbefore⟩ := exists_splitOn_append '\n' u
  obtain ⟨r, after, hrv, hafter⟩ := exists_splitOn_cons '\n' v
  have hsplit : ∀ w, '\n' ∉ w → (u ++ w ++ v).splitOn '\n' = before ++ (l ++ w ++ r) :: after := by
    intro w hw
    have hlw : '\n' ∉ l ++ w := fun h => (List.mem_append.mp h).elim hl hw
    rw [List.append_assoc, hbefore, ← List.append_assoc, hafter _ hlw]
  rw [readText_eq_readRules, readText_eq_readRules, hsplit mid hmid, hsplit mid' hmid', readRules,
    readRules, readLines, readLines]
  simp only [List.map_append, List.map_cons, List.zipIdx_append, List.zipIdx_cons,
    List.filterMap_append, List.filterMap_cons, (h l r hlu hrv).readLine]

/-! ## Layout -/

/-- **An edit of the layout of a text.** -/
inductive LayoutEdit : List Char → List Char → Prop where
  /-- A blank is put anywhere but inside a definition sign. -/
  | blank {before behind : List Char} {c : Char} (hc : isBlank c = true) (hline : c ≠ '\n')
    (hplace : ¬ InsideSign before behind) : LayoutEdit (before ++ behind) (before ++ c :: behind)
  /-- An equals sign that ends no definition sign is made one. -/
  | sign {before behind : List Char} (hplace : ¬ [':', ':'] <:+ before) :
    LayoutEdit (before ++ '=' :: behind) (before ++ ':' :: ':' :: '=' :: behind)
  /-- A carriage return is put in front of a line break. -/
  | carriage {before behind : List Char} :
    LayoutEdit (before ++ '\n' :: behind) (before ++ '\r' :: '\n' :: behind)
  /-- A line break is put at the end. -/
  | ending {text : List Char} : LayoutEdit text (text ++ ['\n'])

section Edits

variable {before behind : List Char}

theorem readText_insert_blank {c : Char} (hc : isBlank c = true) (hline : c ≠ '\n')
    (hplace : ¬ InsideSign before behind) : readText path (String.ofList (before ++ c :: behind)) =
      readText path (String.ofList (before ++ behind)) := by
  have hedit := readText_edit path before behind (mt List.mem_singleton.mp hline.symm) List.not_mem_nil
    fun l r hl hr => by
      rw [← List.append_cons, List.append_nil]
      exact sameLine_insert_blank hc fun hin => hplace (hin.mono hl hr)
  rwa [← List.append_cons, List.append_nil] at hedit

theorem readText_insert_colons (hplace : ¬ [':', ':'] <:+ before) :
    readText path (String.ofList (before ++ ':' :: ':' :: '=' :: behind)) =
      readText path (String.ofList (before ++ '=' :: behind)) := by
  have hedit := readText_edit path before behind (show '\n' ∉ [':', ':', '='] by decide)
    (show '\n' ∉ ['='] by decide) fun l r hl _ => by
      rw [List.append_assoc, List.append_assoc]
      exact sameLine_insert_colons fun hin => hplace (hin.trans hl)
  rwa [List.append_assoc, List.append_assoc] at hedit

theorem readText_append_newline (path : Path) (text : List Char) :
    readText path (String.ofList (text ++ ['\n'])) = readText path (String.ofList text) := by
  have hlines : readLines path ((text.splitOn '\n' ++ [[]]).map .ok) =
      readLines path ((text.splitOn '\n').map .ok) := by
    rw [readLines_eq_map, readLines_eq_map, List.zipIdx_append, List.filter_append]
    simp [isRuleLine]
  rw [readText_eq_readRules, readText_eq_readRules, List.splitOn_append_cons_self, List.splitOn_nil,
    readRules, readRules, hlines]

/-- **Edits of the layout make no difference.** -/
theorem readText_of_layoutEdit {text text' : List Char} (h : LayoutEdit text text') :
    readText path (String.ofList text') = readText path (String.ofList text) := by
  cases h with
  | blank hc hline hplace => exact readText_insert_blank hc hline hplace
  | sign hplace => exact readText_insert_colons hplace
  | carriage =>
    -- no sign is open in front of a line break
    exact readText_insert_blank (by decide) (by decide) (by simp [insideSign_iff, List.cons_prefix_cons])
  | ending => exact readText_append_newline path text

end Edits

/-! ## Places -/

/-- The same thing at another place. -/
def Located.relocate {α : Type} (f : Location → Location) (x : Located α) : Located α :=
  ⟨f x.location, x.item⟩

@[simp]
theorem Located.item_relocate {α : Type} (f : Location → Location) (x : Located α) :
    (x.relocate f).item = x.item := rfl

section Relocation

variable (f : Location → Location) (rules : List (Located Rule))

theorem undefinedUses_relocate :
    undefinedUses (rules.map (·.relocate f)) = (undefinedUses rules).map (·.relocate f) := by
  simp only [undefinedUses, List.flatMap_map, List.map_flatMap, List.map_map]
  rfl

theorem declarations_relocate : declarations (rules.map (·.relocate f)) = declarations rules := by
  simp only [declarations, List.flatMap_map, List.head?_map, Option.map_map]
  rfl

theorem writtenProductions_relocate :
    writtenProductions (rules.map (·.relocate f)) = (writtenProductions rules).map (·.relocate f) := by
  simp only [writtenProductions, List.flatMap_map, List.map_flatMap, List.map_map]
  rfl

theorem addAll_relocate (g : Grammar) (written : List (Located (Char × String))) :
    addAll g (written.map (·.relocate f)) =
      ((addAll g written).1, (addAll g written).2.map (·.relocate f)) := by
  induction written generalizing g with
  | nil => rfl
  | cons w written ih =>
    rw [List.map_cons, addAll, addAll, Located.item_relocate]
    rcases g.addWritten w.item.1 w.item.2 with ⟨e | u, g'⟩
    · simp only [ih]
      rfl
    · exact ih g'

/-- **What rules define is no matter of where they stand.** -/
theorem grammarOfRules_relocate : grammarOfRules (rules.map (·.relocate f)) =
    (grammarOfRules rules).mapError (List.map (·.relocate f)) := by
  rw [grammarOfRules, grammarOfRules, undefinedUses_relocate, declarations_relocate,
    writtenProductions_relocate, addAll_relocate]
  cases undefinedUses rules with
  | nil =>
    rcases addAll ((∅ : Grammar).after (declarations rules)) (writtenProductions rules) with ⟨g, l⟩
    cases l <;> rfl
  | cons e l => rfl

/-- What a line gives, at another place. -/
def relocateOutcome (outcome : Except (Located RuleError) (Located Rule)) :
    Except (Located RuleError) (Located Rule) :=
  (outcome.map (·.relocate f)).mapError (·.relocate f)

theorem errorsOf_map_relocateOutcome (outcomes : List (Except (Located RuleError) (Located Rule))) :
    errorsOf (outcomes.map (relocateOutcome f)) = (errorsOf outcomes).map (·.relocate f) := by
  rw [errorsOf, errorsOf, List.filterMap_map, List.map_filterMap]
  congr 1
  funext outcome
  cases outcome <;> rfl

theorem valuesOf_map_relocateOutcome (outcomes : List (Except (Located RuleError) (Located Rule))) :
    valuesOf (outcomes.map (relocateOutcome f)) = (valuesOf outcomes).map (·.relocate f) := by
  rw [valuesOf, valuesOf, List.filterMap_map, List.map_filterMap]
  congr 1
  funext outcome
  cases outcome <;> rfl

theorem readRules_relocate {lines lines' : List RawLine}
    (h : readLines path lines' = (readLines path lines).map (relocateOutcome f)) :
    readRules path lines' = (readRules path lines).mapError (List.map (·.relocate f)) := by
  rw [readRules, readRules, h, errorsOf_map_relocateOutcome, valuesOf_map_relocateOutcome]
  cases errorsOf (readLines path lines) with
  | nil => exact grammarOfRules_relocate f _
  | cons e l => rfl

end Relocation

/-- The place one line further down, for places below the first lines. -/
def Location.moveDown (k : Nat) (l : Location) : Location :=
  ⟨l.path, if k < l.line then l.line + 1 else l.line⟩

theorem relocateOutcome_readRuleLine {k n m : Nat} (hm : m = if k < n then n + 1 else n) :
    relocateOutcome (.moveDown k) (readRuleLine path (line, n)) = readRuleLine path (line, m) := by
  subst hm
  rw [readRuleLine, readRuleLine]
  cases Rule.ofLine line <;> rfl

theorem readLines_insert_line (path : Path) (before after : List (List Char))
    (hline : isRuleLine line = false) : readLines path ((before ++ line :: after).map .ok) =
      (readLines path ((before ++ after).map .ok)).map (relocateOutcome (.moveDown before.length)) := by
  rw [readLines_eq_map, readLines_eq_map, List.zipIdx_append, List.zipIdx_append, List.zipIdx_cons,
    List.filter_append, List.filter_append, List.filter_cons_of_neg (by simp [hline]), List.map_append,
    List.map_append, List.map_append]
  congr 1
  · rw [List.map_map]
    refine List.map_congr_left fun l hl => ?_
    have hlt := List.snd_lt_add_of_mem_zipIdx (List.mem_of_mem_filter hl)
    exact (relocateOutcome_readRuleLine (if_neg (by omega)).symm).symm
  · rw [List.zipIdx_succ, List.filter_map, List.map_map, List.map_map]
    refine List.map_congr_left fun l hl => ?_
    have hle := List.le_snd_of_mem_zipIdx (List.mem_of_mem_filter hl)
    exact (relocateOutcome_readRuleLine (if_pos (by omega)).symm).symm

theorem readText_intercalate (path : Path) {lines : List (List Char)} (h : ∀ l ∈ lines, '\n' ∉ l) :
    readText path (String.ofList (['\n'].intercalate lines)) = readRules path (lines.map .ok) := by
  rw [readText_eq_readRules]
  by_cases hnil : lines = []
  · subst hnil
    rfl
  · rw [List.splitOn_intercalate '\n' h hnil]

/-- **A line that is no rule line moves the errors behind it by one line.** -/
theorem readText_insert_line (path : Path) (before after : List (List Char))
    (hnewline : ∀ l ∈ before ++ line :: after, '\n' ∉ l) (hline : isRuleLine line = false) :
    readText path (String.ofList (['\n'].intercalate (before ++ line :: after))) =
      (readText path (String.ofList (['\n'].intercalate (before ++ after)))).mapError
        (List.map (·.relocate (.moveDown before.length))) := by
  have hrest : ∀ l ∈ before ++ after, '\n' ∉ l := fun l hl =>
    hnewline l (List.perm_middle.mem_iff.mpr (List.mem_cons_of_mem line hl))
  rw [readText_intercalate path hnewline, readText_intercalate path hrest]
  exact readRules_relocate _ (readLines_insert_line path before after hline)

/-- **Layout does not matter.** Edits of the layout leave the grammar or the errors, places included. A blank
line or a comment put between lines, before them all or behind them all leaves the grammar, or else the errors,
which are found one line further down if they stand behind it. -/
theorem readText_layout (path : Path) :
    (∀ text text', LayoutEdit text text' →
      readText path (String.ofList text') = readText path (String.ofList text)) ∧
    ∀ before line after : List _, (∀ l ∈ before ++ line :: after, '\n' ∉ l) → isRuleLine line = false →
      readText path (String.ofList (['\n'].intercalate (before ++ line :: after))) =
        (readText path (String.ofList (['\n'].intercalate (before ++ after)))).mapError
          (List.map (·.relocate (.moveDown before.length))) :=
  ⟨fun _ _ => readText_of_layoutEdit, fun before _ after => readText_insert_line path before after⟩

theorem readText_layout_stray_colons :
    readText ⟨"s.cnf"⟩ "S: ::=a" = readText ⟨"s.cnf"⟩ "S:::=a" ∧
    readText ⟨"s.cnf"⟩ "S=a\n ;\nA=:" =
      (readText ⟨"s.cnf"⟩ "S=a\nA=:").mapError (List.map (·.relocate (.moveDown 1))) := by
  obtain ⟨hedit, hinsert⟩ := readText_layout ⟨"s.cnf"⟩
  have hplace : ¬ InsideSign ['S', ':'] [':', ':', '=', 'a'] := by
    simp [insideSign_iff, List.cons_prefix_cons, List.suffix_cons_iff]
  exact ⟨hedit _ _ (.blank (show isBlank ' ' = true by decide) (by decide) hplace),
    hinsert ["S=a".toList] " ;".toList ["A=:".toList] (by decide) (by decide)⟩

/-- The error behind the comment is found on the line after it. -/
example : (match readText ⟨"s.cnf"⟩ "S=a\n ;\nA=:" with
    | .error errors => errors.map fun e => (e.location.line, e.item)
    | .ok _ => []) = [(3, .unexpectedCharacter ':')] := by decide +kernel

end Chomsky
