import Chomsky.Proofs.RuleFile.Reading
import Chomsky.Proofs.Text.Encoding

/-!
# Reading a file is reading its text

A file of bytes is cut into lines before it is decoded. If the bytes are a text, it is read like that text. If
they are not, there is an error for every line that is no text, whatever else it holds, and one for every rule
line that does not read; nothing is said about the grammar then.

* `decodeLine_eq_ok_iff`, **`readBytes_encode`**: a file that holds a text;
* `lineError?`, `lineErrors`, **`readBytes_eq_error`**: the errors of a file that holds none;
* **`readRules_trims`**: lines that lose the carriage return at their end read the same;
* **`readContent_eq_readText_or_line_errors`**.
-/

namespace Chomsky

variable {path : Path} {bytes line : List UInt8} {cs : List Char} {c : Char} {n : Nat}

/-! ## Files that hold a text -/

theorem decodeLine_eq_ok_iff : decodeLine line = .ok cs ↔ line = encode cs := by
  rw [decodeLine]
  cases h : String.fromUTF8? ⟨line.toArray⟩ with
  | none =>
    refine iff_of_false nofun fun hline => ?_
    have hsome := fromUTF8?_eq_some_iff.mpr ((String.toList_ofList (l := cs)).symm ▸ hline)
    rw [h] at hsome
    cases hsome
  | some s =>
    obtain rfl := fromUTF8?_eq_some_iff.mp h
    have hinj : some s = some (String.ofList cs) ↔ encode s.toList = encode cs := by
      rw [← h, fromUTF8?_eq_some_iff, String.toList_ofList]
    rw [← hinj, Except.ok.injEq, Option.some.injEq, ← String.toList_inj, String.toList_ofList]

theorem decodeLine_encode (cs : List Char) : decodeLine (encode cs) = .ok cs :=
  decodeLine_eq_ok_iff.mpr rfl

/-- **A file that holds a text is read like the text.** -/
theorem readBytes_encode (path : Path) (text : String) :
    readBytes path (encode text.toList) = readText path text := by
  have hlines : (cutLines 0x0a (encode text.toList)).map decodeLine =
      (cutLines '\n' text.toList).map .ok := by
    rw [cutLines_encode, List.map_map]
    exact List.map_congr_left fun cs _ => decodeLine_encode cs
  rw [readBytes, readText, hlines]

/-! ## Files that hold none -/

/-- **What is wrong with line `n`**: it is no text, or it is a rule line that gives no rule. -/
def lineError? (path : Path) (line : List UInt8) (n : Nat) : Option (Located RuleError) :=
  match String.fromUTF8? ⟨line.toArray⟩ with
  | none => some ⟨⟨path, 0⟩, .unreadable .notText⟩
  | some s =>
    if isRuleLine s.toList then
      match Rule.ofLine s.toList with
      | .ok _ => none
      | .error e => some ⟨⟨path, n⟩, e⟩
    else none

theorem lineError?_nil : lineError? path [] n = none := by
  rw [lineError?, fromUTF8?_eq_some_iff.mpr (show [] = encode "".toList from rfl)]
  rfl

theorem errorsOf_readLines (path : Path) (lines : List (List UInt8)) :
    errorsOf (readLines path (lines.map decodeLine)) =
      (lines.zipIdx 1).filterMap fun l => lineError? path l.1 l.2 := by
  rw [errorsOf, readLines, List.filterMap_filterMap, List.zipIdx_map, List.filterMap_map]
  congr 1
  funext l
  show (readLine path (decodeLine l.1) l.2).bind _ = _
  rw [decodeLine, lineError?]
  cases String.fromUTF8? ⟨l.1.toArray⟩ with
  | none => rfl
  | some s =>
    dsimp only [readLine]
    by_cases hline : isRuleLine s.toList = true
    · rw [if_pos hline, if_pos hline]
      cases Rule.ofLine s.toList <;> rfl
    · rw [if_neg hline, if_neg hline]
      rfl

/-- **The errors of the lines of a file**, which are numbered from one. -/
def lineErrors (path : Path) (bytes : List UInt8) : List (Located RuleError) :=
  ((bytes.splitOn 0x0a).zipIdx 1).filterMap fun l => lineError? path l.1 l.2

theorem errorsOf_eq_lineErrors (path : Path) (bytes : List UInt8) :
    errorsOf (readLines path ((cutLines 0x0a bytes).map decodeLine)) = lineErrors path bytes := by
  rw [errorsOf_readLines, lineErrors]
  rcases splitOn_eq_cutLines 0x0a bytes with h | h
  · rw [h]
  · rw [h, List.zipIdx_append, List.filterMap_append]
    simp [lineError?_nil]

theorem unreadable_mem_lineErrors (h : String.fromUTF8? ⟨bytes.toArray⟩ = none) :
    ⟨⟨path, 0⟩, .unreadable .notText⟩ ∈ lineErrors path bytes := by
  rw [fromUTF8?_eq_none_iff, exists_encode_iff] at h
  push Not at h
  obtain ⟨line, hline, hno⟩ := h
  obtain ⟨i, hi, rfl⟩ := List.getElem_of_mem hline
  refine List.mem_filterMap.mpr ⟨((bytes.splitOn 0x0a)[i], 1 + i), ?_, ?_⟩
  · exact List.mk_add_mem_zipIdx_iff_getElem?.mpr (List.getElem?_eq_getElem hi)
  · rw [lineError?, fromUTF8?_eq_none_iff.mpr (not_exists.mpr hno)]

/-- **A file that holds no text is answered with the errors of its lines.** -/
theorem readBytes_eq_error (path : Path) (h : String.fromUTF8? ⟨bytes.toArray⟩ = none) :
    readBytes path bytes = .error (lineErrors path bytes) := by
  have hne : lineErrors path bytes ≠ [] := List.ne_nil_of_mem (unreadable_mem_lineErrors h)
  rw [readBytes, readRules, errorsOf_eq_lineErrors]
  cases herrors : lineErrors path bytes with
  | nil => exact absurd herrors hne
  | cons e errors => rfl

/-! ## Carriage returns -/

section Blank

variable (hc : isBlank c = true)

include hc

theorem Token.scan_append_blank (cs : List Char) : scan (cs ++ [c]) = scan cs := by
  rw [scan_insert_blank hc (by simp [insideSign_iff]), List.append_nil]

theorem Rule.ofLine_append_blank (cs : List Char) : ofLine (cs ++ [c]) = ofLine cs := by
  rw [ofLine, ofLine, Token.scan_append_blank hc]

theorem isRuleLine_append_blank (cs : List Char) : isRuleLine (cs ++ [c]) = isRuleLine cs := by
  rw [isRuleLine_insert_blank hc, List.append_nil]

end Blank

/-- The second line is the first one, perhaps without a mark at its end. -/
def Trims {α : Type} (mark : α) (line line' : List α) : Prop := line = line' ∨ line = line' ++ [mark]

/-- **The lines that a line reader gives.** A separator takes one mark in front of it along. -/
def breakLines {α : Type} [DecidableEq α] (sep mark : α) : List α → List (List α)
  | [] => []
  | [c] => if c = sep then [[]] else [[c]]
  | c :: d :: cs =>
    if c = sep then [] :: breakLines sep mark (d :: cs)
    else if c = mark ∧ d = sep then [] :: breakLines sep mark cs
    else match breakLines sep mark (d :: cs) with
      | [] => [[c]]
      | line :: lines => (c :: line) :: lines

theorem trims_breakLines {α : Type} [DecidableEq α] (sep mark : α) (cs : List α) :
    List.Forall₂ (Trims mark) (cutLines sep cs) (breakLines sep mark cs) := by
  fun_induction breakLines sep mark cs with
  | case1 => exact .nil
  | case2 =>
    rw [cutLines_sep_cons]
    exact .cons (.inl rfl) .nil
  | case3 c hc =>
    rw [cutLines_cons_of_ne hc]
    exact .cons (.inl rfl) .nil
  | case4 d cs ih =>
    rw [cutLines_sep_cons]
    exact .cons (.inl rfl) ih
  | case5 c d cs hc hmark ih =>
    obtain ⟨rfl, rfl⟩ := hmark
    rw [cutLines_cons_of_ne hc, cutLines_sep_cons]
    exact .cons (.inr rfl) ih
  | case6 c d cs hc _ hnil ih =>
    rw [hnil] at ih
    rw [cutLines_cons_of_ne hc, List.forall₂_nil_right_iff.mp ih]
    exact .cons (.inl rfl) .nil
  | case7 c d cs hc _ line lines hlines ih =>
    rw [hlines] at ih
    obtain ⟨line', lines', htrims, hrest, hcut⟩ := List.forall₂_cons_right_iff.mp ih
    rw [cutLines_cons_of_ne hc, hcut]
    refine .cons ?_ hrest
    rcases htrims with rfl | rfl
    · exact .inl rfl
    · exact .inr rfl

theorem readLines_congr {lines lines' : List RawLine}
    (h : List.Forall₂ (fun l l' => ∀ n, readLine path l n = readLine path l' n) lines lines') :
    readLines path lines = readLines path lines' := by
  rw [readLines, readLines]
  generalize 1 = n
  induction h generalizing n with
  | nil => rfl
  | cons hl _ ih =>
    rw [List.zipIdx_cons, List.zipIdx_cons, List.filterMap_cons, List.filterMap_cons, hl, ih]

theorem readLine_append_return : readLine path (.ok (cs ++ ['\r'])) n = readLine path (.ok cs) n := by
  have hblank : isBlank '\r' = true := by decide
  dsimp only [readLine]
  rw [isRuleLine_append_blank hblank, Rule.ofLine_append_blank hblank]

theorem decodeLine_error {fault : FileFault} (h : decodeLine line = .error fault) : fault = .notText := by
  rw [decodeLine] at h
  split at h <;> cases h
  rfl

theorem readLine_decodeLine_append_return :
    readLine path (decodeLine (line ++ [0x0d])) n = readLine path (decodeLine line) n := by
  have hreturn : '\r'.toNat < 0x80 := by decide
  cases h : decodeLine line with
  | ok cs =>
    have hwhole : decodeLine (line ++ [0x0d]) = .ok (cs ++ ['\r']) :=
      decodeLine_eq_ok_iff.mpr
        ((encode_eq_append_iff hreturn).mpr ⟨cs, rfl, (decodeLine_eq_ok_iff.mp h).symm⟩).symm
    rw [hwhole, readLine_append_return]
  | error fault =>
    cases hwhole : decodeLine (line ++ [0x0d]) with
    | error fault' => rw [decodeLine_error h, decodeLine_error hwhole]
    | ok cs' =>
      obtain ⟨cs, -, hcs⟩ := (encode_eq_append_iff hreturn).mp (decodeLine_eq_ok_iff.mp hwhole).symm
      rw [decodeLine_eq_ok_iff.mpr hcs.symm] at h
      cases h

/-- **A mark that says nothing may be taken off the ends of lines.** -/
theorem readRules_trims {α : Type} {mark : α} {read : List α → RawLine}
    (hmark : ∀ line n, readLine path (read (line ++ [mark])) n = readLine path (read line) n)
    {lines lines' : List (List α)} (h : List.Forall₂ (Trims mark) lines lines') :
    readRules path (lines'.map read) = readRules path (lines.map read) := by
  have hlines : readLines path (lines.map read) = readLines path (lines'.map read) := by
    refine readLines_congr ((List.forall₂_map_left_iff.trans List.forall₂_map_right_iff).mpr ?_)
    refine h.imp fun line line' htrims n => ?_
    rcases htrims with rfl | rfl
    · rfl
    · exact hmark line' n
  rw [readRules, readRules, hlines]

theorem Rule.ofTokens_error {ts : List Token} {e : RuleError} (h : ofTokens ts = .error e) :
    e = .unexpectedEquals ∨ e = .missingEquals ∨ e = .missingNonterminal := by
  unfold ofTokens at h
  split at h
  · split at h
    · exact .inl (Except.error.inj h).symm
    · cases h
  · exact .inr (.inl (Except.error.inj h).symm)
  · exact .inr (.inr (Except.error.inj h).symm)

theorem Rule.ofLine_error {e : RuleError} (h : ofLine cs = .error e) :
    (∀ c, e ≠ .undefinedNonterminal c) ∧ ∀ reason, e ≠ .refused reason := by
  unfold ofLine at h
  split at h
  · rcases ofTokens_error h with rfl | rfl | rfl
    all_goals exact ⟨nofun, nofun⟩
  · cases h
    exact ⟨nofun, nofun⟩

theorem lineError?_item {e : Located RuleError} (h : lineError? path line n = some e) :
    (∀ c, e.item ≠ .undefinedNonterminal c) ∧ ∀ reason, e.item ≠ .refused reason := by
  unfold lineError? at h
  split at h
  · cases h
    exact ⟨nofun, nofun⟩
  · split at h
    · split at h
      · cases h
      · rename_i e herror
        cases h
        exact Rule.ofLine_error herror
    · cases h

/-- **A file is read like its text, and without one line by line.** If the bytes are a text, the file gives what
the text gives, the places of errors included. If they are not, it gives the errors of its lines in their order:
one for the whole file for each line that is no text, one at its place for each rule line that does not read, and
none about the grammar. Line readers that take a carriage return off with the line break behind it make no
difference, neither to bytes nor to a text. -/
theorem readContent_eq_readText_or_line_errors (path : Path) (bytes : List UInt8) :
    (∀ text, String.fromUTF8? ⟨bytes.toArray⟩ = some text →
      readContent path (some bytes) = readText path text) ∧
    (String.fromUTF8? ⟨bytes.toArray⟩ = none → ∃ errors,
      readContent path (some bytes) = .error errors ∧
      errors = ((bytes.splitOn 0x0a).zipIdx 1).filterMap (fun l => lineError? path l.1 l.2) ∧
      ⟨⟨path, 0⟩, .unreadable .notText⟩ ∈ errors ∧
      ∀ e ∈ errors, (∀ c, e.item ≠ .undefinedNonterminal c) ∧ ∀ reason, e.item ≠ .refused reason) ∧
    readRules path ((breakLines 0x0a 0x0d bytes).map decodeLine) = readContent path (some bytes) ∧
    ∀ text : String,
      readRules path ((breakLines '\n' '\r' text.toList).map .ok) = readText path text := by
  refine ⟨fun text h => ?_, fun h => ?_, ?_, fun text => ?_⟩
  · rw [fromUTF8?_eq_some_iff.mp h]
    exact readBytes_encode path text
  · refine ⟨_, readBytes_eq_error path h, rfl, unreadable_mem_lineErrors h, fun e he => ?_⟩
    obtain ⟨l, -, hl⟩ := List.mem_filterMap.mp he
    exact lineError?_item hl
  · exact readRules_trims (fun _ _ => readLine_decodeLine_append_return) (trims_breakLines ..)
  · exact readRules_trims (fun _ _ => readLine_append_return) (trims_breakLines ..)

theorem readContent_comment_not_text :
    (∃ errors, readContent ⟨"a.cnf"⟩ (some [0x3b, 0xff, 0x0a, 0x53, 0x0d, 0x0a, 0x3b]) = .error errors ∧
      errors.map (fun e => (e.location.line, e.item)) =
        [(0, .unreadable .notText), (2, .missingEquals)]) ∧
    readContent ⟨"a.cnf"⟩ (some [0x53, 0x3d, 0x61, 0x0d, 0x0a]) = readText ⟨"a.cnf"⟩ "S=a\r\n" ∧
    readRules ⟨"a.cnf"⟩ [.ok "S=a".toList] = readText ⟨"a.cnf"⟩ "S=a\r\n" := by
  obtain ⟨-, herrors, -⟩ := readContent_eq_readText_or_line_errors ⟨"a.cnf"⟩ [0x3b, 0xff, 0x0a, 0x53, 0x0d, 0x0a, 0x3b]
  obtain ⟨htext, -, -, hlines⟩ := readContent_eq_readText_or_line_errors ⟨"a.cnf"⟩ [0x53, 0x3d, 0x61, 0x0d, 0x0a]
  obtain ⟨errors, hread, rfl, -⟩ := herrors (by decide +kernel)
  exact ⟨⟨_, hread, by decide +kernel⟩, htext _ (by decide +kernel), hlines "S=a\r\n"⟩

end Chomsky
