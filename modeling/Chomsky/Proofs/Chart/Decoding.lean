import Chomsky.Chart.Rendering
import Chomsky.Proofs.Chart.Exactness
import Chomsky.Proofs.Text.Lines

/-!
# Reading a rendered chart back

Nothing in a rendered chart is quoted, an empty cell leaves two blanks, and a coordinate may have any number of
digits. Still a chart can be read back, since nonterminals are upper-case letters: no line break and no bracket
is one, so the text falls into its lines and cells, and a cell into its coordinates and its nonterminals.

* `readNumber`, `decodeCell`, **`decode`**: from a text to a table;
* `splitOn_text`, **`decode_text`**: the text of a chart gives its table.
-/

namespace Chomsky

variable {c : Char}

/-! ## Reading -/

/-- The number with which a text begins, and the rest of the text. -/
def readNumber (cs : List Char) : Nat × List Char :=
  (Nat.ofDigitChars 10 (cs.takeWhile (·.isDigit)) 0, cs.dropWhile (·.isDigit))

/-- The span and the nonterminals of a cell, from what follows its opening bracket. -/
def decodeCell (cs : List Char) : Span × Word :=
  let (first, cs) := readNumber cs
  let (last, cs) := readNumber (cs.drop 1)
  (⟨first, last⟩, cs.filter isUpper)

/-- **The table that a rendered chart shows**: a row for each line, and in it a cell for each bracket. -/
def decode (text : String) : List (List (Span × Word)) :=
  (text.toList.splitOn '\n').dropLast.map fun row => ((row.splitOn '(').drop 1).map decodeCell

/-- **The table of a chart**: for each place a row, with a cell for each span that begins there. -/
def Chart.table (chart : Chart) : List (List (Span × Word)) :=
  (List.range chart.length).map fun i =>
    (List.range' i (chart.length - i)).map fun j => (⟨i, j⟩, chart.symbols i j)

/-! ## Cells -/

theorem readNumber_toDigits (n : Nat) {cs : List Char} (hc : c.isDigit = false) :
    readNumber (Nat.toDigits 10 n ++ c :: cs) = (n, c :: cs) := by
  have hdigits : ∀ d ∈ Nat.toDigits 10 n, d.isDigit = true := fun d hd =>
    Nat.isDigit_of_mem_toDigits (by decide) (by decide) hd
  rw [readNumber, List.takeWhile_append_of_pos hdigits, List.dropWhile_append_of_pos hdigits,
    List.takeWhile_cons_of_neg (by simp [hc]), List.dropWhile_cons_of_neg (by simp [hc]), List.append_nil,
    Nat.ofDigitChars_toDigits (by decide) (by decide)]

/-- What follows the opening bracket of a cell. -/
def cellBody (i j : Nat) (symbols : Word) : List Char :=
  Nat.toDigits 10 i ++ ',' :: (Nat.toDigits 10 j ++ ')' :: ':' :: ' ' :: (symbols ++ [' ']))

theorem toList_cellText (chart : Chart) (i j : Nat) :
    (chart.cellText i j).toList = '(' :: cellBody i j (chart.symbols i j) := by
  have htext : chart.cellText i j =
      "(" ++ i.repr ++ "," ++ j.repr ++ "): " ++ String.ofList (chart.symbols i j) ++ " " := rfl
  rw [htext, cellBody]
  simp

section Cells

variable {symbols : Word} (hsymbols : ∀ c ∈ symbols, isUpper c = true)

include hsymbols

theorem not_mem_cellBody (hc : c ∈ ['(', '\n']) (i j : Nat) : c ∉ cellBody i j symbols := by
  have hplain : ['(', '\n'].all (fun d => !d.isDigit && d ∉ [',', ')', ':', ' '] && !isUpper d) = true := by
    decide +kernel
  have hc := List.all_eq_true.mp hplain c hc
  simp only [Bool.and_eq_true, Bool.not_eq_true', decide_eq_true_eq] at hc
  obtain ⟨⟨hdigit, hsign⟩, hupper⟩ := hc
  have hnumber : ∀ n, c ∉ Nat.toDigits 10 n := by
    intro n h
    rw [Nat.isDigit_of_mem_toDigits (by decide) (by decide) h] at hdigit
    cases hdigit
  have hnonterminal : c ∉ symbols := by
    intro h
    rw [hsymbols c h] at hupper
    cases hupper
  simp only [List.mem_cons, List.not_mem_nil, or_false, not_or] at hsign
  simp [cellBody, hnumber, hnonterminal, hsign]

theorem decodeCell_cellBody (i j : Nat) : decodeCell (cellBody i j symbols) = (⟨i, j⟩, symbols) := by
  have hplain : isUpper ')' = false ∧ isUpper ':' = false ∧ isUpper ' ' = false := by decide +kernel
  rw [decodeCell, cellBody, readNumber_toDigits i (by decide)]
  simp only [List.drop_succ_cons, List.drop_zero]
  rw [readNumber_toDigits j (by decide)]
  simp [hplain, List.filter_eq_self.mpr hsymbols]

end Cells

/-! ## Rows -/

/-- The characters of a row. -/
def rowChars (chart : Chart) (i : Nat) : List Char :=
  (List.range' i (chart.length - i)).flatMap fun j => (chart.cellText i j).toList

theorem toList_text (chart : Chart) : chart.text.toList =
    ((List.range chart.length).map (rowChars chart)).flatMap (· ++ ['\n']) := by
  simp [Chart.text, Chart.rowText, rowChars, String.toList_join, List.flatMap_map]

theorem rowChars_eq (chart : Chart) (i : Nat) : rowChars chart i =
    ((List.range' i (chart.length - i)).map fun j => cellBody i j (chart.symbols i j)).flatMap
      ('(' :: ·) := by
  rw [rowChars, List.flatMap_map]
  simp only [toList_cellText]

section Text

variable {chart : Chart} (hupper : ∀ c ∈ chart.nonterminals, isUpper c = true)

include hupper

theorem isUpper_of_mem_symbols (i j : Nat) : ∀ c ∈ chart.symbols i j, isUpper c = true :=
  fun c hc => hupper c ((chart.symbols_sublist i j).subset hc)

/-- **A rendered chart is cut into its rows**, each of which ends with a line break. -/
theorem splitOn_text : chart.text.toList.splitOn '\n' =
    (List.range chart.length).map (rowChars chart) ++ [[]] := by
  have hrows : ∀ row ∈ (List.range chart.length).map (rowChars chart), '\n' ∉ row := by
    refine List.forall_mem_map.mpr fun i _ hrow => ?_
    obtain ⟨j, -, hcell⟩ := List.mem_flatMap.mp hrow
    rw [toList_cellText] at hcell
    rcases List.mem_cons.mp hcell with h | h
    · cases h
    · exact not_mem_cellBody (isUpper_of_mem_symbols hupper i j) (by decide) i j h
  rw [toList_text, ← List.append_nil (List.flatMap _ _), splitOn_flatMap_append hrows, List.splitOn_nil]

/-- **The text of a chart gives its table.** -/
theorem decode_text : decode chart.text = chart.table := by
  have hrow : ∀ i, (((rowChars chart i).splitOn '(').drop 1).map decodeCell =
      (List.range' i (chart.length - i)).map fun j => (⟨i, j⟩, chart.symbols i j) := by
    intro i
    have hbodies : ∀ body ∈ (List.range' i (chart.length - i)).map fun j =>
        cellBody i j (chart.symbols i j), '(' ∉ body := List.forall_mem_map.mpr fun j _ =>
      not_mem_cellBody (isUpper_of_mem_symbols hupper i j) (by decide) i j
    rw [rowChars_eq, splitOn_flatMap_cons hbodies, List.drop_one, List.tail_cons, List.map_map]
    exact List.map_congr_left fun j _ => decodeCell_cellBody (isUpper_of_mem_symbols hupper i j) i j
  rw [decode, splitOn_text hupper, List.dropLast_concat, List.map_map, Chart.table]
  exact List.map_congr_left fun i _ => hrow i

end Text

/-! ## Tables and cells -/

section Charts

variable {chart chart' : Chart} {i j : Nat}

theorem table_eq_iff : chart.table = chart'.table ↔ chart.length = chart'.length ∧
    ∀ i j, i ≤ j → j < chart.length → chart.symbols i j = chart'.symbols i j := by
  constructor
  · intro h
    have hlength : chart.length = chart'.length := by
      simpa [Chart.table] using congrArg List.length h
    refine ⟨hlength, fun i j hij hj => ?_⟩
    rw [Chart.table, Chart.table, ← hlength, List.map_inj_left] at h
    have hrow := List.map_inj_left.mp (h i (List.mem_range.mpr (by omega))) j
      (List.mem_range'_1.mpr (by omega))
    exact (Prod.mk.inj hrow).2
  · rintro ⟨hlength, hsymbols⟩
    rw [Chart.table, Chart.table, ← hlength]
    refine List.map_congr_left fun i hi => List.map_congr_left fun j hj => ?_
    have hj := List.mem_range'_1.mp hj
    rw [hsymbols i j hj.1 (by omega)]

theorem text_eq_iff (hupper : ∀ c ∈ chart.nonterminals, isUpper c = true)
    (hupper' : ∀ c ∈ chart'.nonterminals, isUpper c = true) :
    chart.text = chart'.text ↔ chart.table = chart'.table := by
  refine ⟨fun h => by rw [← decode_text hupper, ← decode_text hupper', h], fun h => ?_⟩
  obtain ⟨hlength, hsymbols⟩ := table_eq_iff.mp h
  have hrows : (List.range chart.length).map (rowChars chart) =
      (List.range chart.length).map (rowChars chart') := by
    refine List.map_congr_left fun i _ => ?_
    have hbodies : ((List.range' i (chart.length - i)).map fun j => cellBody i j (chart.symbols i j)) =
        (List.range' i (chart.length - i)).map fun j => cellBody i j (chart'.symbols i j) := by
      refine List.map_congr_left fun j hj => ?_
      have hj := List.mem_range'_1.mp hj
      rw [hsymbols i j hj.1 (by omega)]
    rw [rowChars_eq, rowChars_eq, ← hlength, hbodies]
  rw [← String.toList_inj, toList_text, toList_text, ← hlength, hrows]

end Charts

end Chomsky
