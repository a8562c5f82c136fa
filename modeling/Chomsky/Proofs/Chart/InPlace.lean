import Chomsky.Proofs.Chart.Cells
import Mathlib.Data.Set.Function
import Mathlib.Order.Interval.Set.Defs

/-!
# Filling in a chart in place

A chart can be filled in without appending: the row of the single places is given room for all spans, and loops over
the lengths, the first places and the splits write each cell to its position. Every read and write could then leave
the table, and every number could leave its 64 bits, so here each of these steps may fail. None does, and the table
comes out as if its cells had been appended one by one.

* `gather?_eq`, **`write?_eq`**, `fill?_eq`: what a cell and what a run of cells comes to;
* `fill?_resize`, `loops?_resize`, **`exists_final_cell`**: the table at any time;
* **`inPlace_fills_triangle`**.
-/

namespace Chomsky

variable {rules : List BinaryRule} {n : Nat} {cells base : Array Cell} {s : Span}
  {spans done rest : List Span} {place : Span → Option Nat}

/-! ## Numbers of 64 bits -/

/-- The number, if it has at most 64 bits. -/
def fit? (k : Nat) : Option Nat := if k < 2 ^ 64 then some k else none

/-- The difference, if it is no less than zero. -/
def minus? (a b : Nat) : Option Nat := if b ≤ a then some (a - b) else none

/-- **The position of a span**, each number on the way checked. -/
def Span.position64? (n : Nat) (s : Span) : Option Nat := do
  let gap ← minus? s.last s.first
  let twice ← fit? (2 * n)
  let rest ← minus? twice gap
  let factor ← fit? (rest + 1)
  let product ← fit? (gap * factor)
  fit? (product / 2 + s.first)

/-- The number of spans, each number on the way checked. -/
def size64? (n : Nat) : Option Nat := do
  let next ← fit? (n + 1)
  let product ← fit? (n * next)
  return product / 2

theorem fit?_eq {k : Nat} (h : k < 2 ^ 64) : fit? k = some k := if_pos h

theorem minus?_eq {a b : Nat} (h : b ≤ a) : minus? a b = some (a - b) := if_pos h

section Bits

variable (hn : n < 2 ^ 32)

include hn

theorem mul_succ_lt : n * (n + 1) < 2 ^ 64 := by
  have hle : n * (n + 1) ≤ (2 ^ 32 - 1) * 2 ^ 32 := Nat.mul_le_mul (by omega) (by omega)
  omega

theorem size64?_eq : size64? n = some (n * (n + 1) / 2) := by
  have hproduct := mul_succ_lt hn
  simp only [size64?, fit?_eq (show n + 1 < 2 ^ 64 by omega), fit?_eq hproduct, Option.bind_eq_bind,
    Option.bind_some, Option.pure_def]

/-- **No number on the way to a position leaves its 64 bits.** -/
theorem Span.position64?_eq (hs : s.Within n) : s.position64? n = some (s.position n) := by
  have hsquare := mul_succ_lt hn
  have hgap : s.gap ≤ n := hs.gap_le
  have hdifference : minus? s.last s.first = some s.gap := minus?_eq hs.1
  have hproduct : s.gap * (2 * n - s.gap + 1) < 2 ^ 64 := by
    -- the offsets grow up to the number of all spans, so the last of them bounds every product
    have hmono := offset_mono hgap (Nat.le_refl n)
    have hall : 2 * offset n n = n * (n + 1) := by
      rw [two_mul_offset (Nat.le_refl n)]
      congr 2
      omega
    rw [← two_mul_offset hgap]
    omega
  have hposition : s.gap * (2 * n - s.gap + 1) / 2 + s.first < 2 ^ 64 := by
    have hinside := position_lt hs
    rw [position] at hinside
    omega
  simp only [position64?, hdifference, fit?_eq (show 2 * n < 2 ^ 64 by omega),
    minus?_eq (show s.gap ≤ 2 * n by omega), fit?_eq (show 2 * n - s.gap + 1 < 2 ^ 64 by omega),
    fit?_eq hproduct, fit?_eq hposition, Option.bind_eq_bind, Option.bind_some]
  rw [position]

end Bits

/-! ## The table in place -/

namespace InPlace

/-- The table with room for `size` cells. -/
def resize (size : Nat) (base : Array Cell) : Array Cell :=
  (base ++ Array.replicate (size - base.size) ∅).take size

/-- The cell of a span, if it has a place in the table. -/
def read? (place : Span → Option Nat) (cells : Array Cell) (s : Span) : Option Cell := do
  cells[← place s]?

/-- The heads of the rules that join two cells, put into a cell one by one. -/
def joinInto (rules : List BinaryRule) (left right derived : Cell) : Cell :=
  rules.foldl (fun derived r => if r.joins left right then derived.insert r.head else derived) derived

/-- **The cell of a span, gathered split by split**, if every read stays in the table. -/
def gather? (place : Span → Option Nat) (rules : List BinaryRule) (cells : Array Cell) (s : Span) :
    Option Cell :=
  s.splits.foldlM (fun derived q => do
    let left ← read? place cells q.1
    let right ← read? place cells q.2
    return joinInto rules left right derived) ∅

/-- **Writes the cell of a span**, if it has a place in the table. -/
def write? (place : Span → Option Nat) (rules : List BinaryRule) (cells : Array Cell) (s : Span) :
    Option (Array Cell) := do
  let derived ← gather? place rules cells s
  let i ← place s
  if i < cells.size then some (cells.setIfInBounds i derived) else none

/-- Writes the cells of some spans, one after the other. -/
def fill? (place : Span → Option Nat) (rules : List BinaryRule) (spans : List Span) (cells : Array Cell) :
    Option (Array Cell) := spans.foldlM (write? place rules) cells

/-- **The loops over the lengths and the first places.** -/
def loops? (place : Span → Option Nat) (rules : List BinaryRule) (n : Nat) (cells : Array Cell) :
    Option (Array Cell) :=
  (List.range' 2 (n - 1)).foldlM (fun cells length =>
    (List.range (n - length + 1)).foldlM (fun cells first =>
      write? place rules cells ⟨first, first + length - 1⟩) cells) cells

/-- **The whole table, with numbers of 64 bits.** -/
def build64? (rules : List BinaryRule) (base : Array Cell) : Option (Array Cell) := do
  let size ← size64? base.size
  loops? (Span.position64? base.size) rules base.size (resize size base)

end InPlace

theorem Span.longer_eq_flatMap : longer n = (List.range' 2 (n - 1)).flatMap fun length =>
    (List.range (n - length + 1)).map fun first => ⟨first, first + length - 1⟩ := by
  rw [List.range'_succ_left, List.flatMap_map, longer]
  refine List.flatMap_congr fun gap hgap => ?_
  have hcount : n - (gap + 1) + 1 = n - gap := by
    have := List.mem_range'_1.mp hgap
    omega
  rw [hcount]
  rfl

theorem foldlM_flatMap {α β γ : Type} {f : α → List β} {g : γ → β → Option γ} {l : List α} {c : γ} :
    (l.flatMap f).foldlM g c = l.foldlM (fun c a => (f a).foldlM g c) c := by
  induction l generalizing c with
  | nil => rfl
  | cons a l ih =>
    rw [List.flatMap_cons, List.foldlM_append, List.foldlM_cons]
    exact bind_congr fun c => ih

namespace InPlace

theorem loops?_eq : loops? place rules n cells = fill? place rules (Span.longer n) cells := by
  rw [fill?, Span.longer_eq_flatMap, foldlM_flatMap]
  simp only [List.foldlM_map]
  rfl

/-! ## What is written -/

theorem mem_joinInto {left right derived : Cell} {p : Nat} : p ∈ joinInto rules left right derived ↔
    p ∈ derived ∨ ∃ r ∈ rules, r.joins left right = true ∧ r.head = p := by
  induction rules generalizing derived with
  | nil => simp [joinInto]
  | cons r rules ih =>
    rw [joinInto, List.foldl_cons, ← joinInto, ih, List.exists_mem_cons_iff]
    by_cases hjoins : r.joins left right = true
    · rw [if_pos hjoins, OrderedSet.mem_insert, or_assoc, or_left_comm, @eq_comm _ p]
      simp [hjoins]
    · rw [if_neg hjoins]
      simp [hjoins]

theorem exists_foldlM_joinInto (read : Span → Cell) {splits : List (Span × Span)} (derived : Cell)
    (hread : ∀ q ∈ splits, read? place cells q.1 = some (read q.1) ∧
      read? place cells q.2 = some (read q.2)) :
    ∃ cell, splits.foldlM (fun derived q => do
        let left ← read? place cells q.1
        let right ← read? place cells q.2
        return joinInto rules left right derived) derived = some cell ∧
      ∀ p, p ∈ cell ↔ p ∈ derived ∨
        ∃ q ∈ splits, ∃ r ∈ rules, r.joins (read q.1) (read q.2) = true ∧ r.head = p := by
  induction splits generalizing derived with
  | nil => exact ⟨derived, rfl, by simp⟩
  | cons q splits ih =>
    obtain ⟨⟨hleft, hright⟩, hrest⟩ := List.forall_mem_cons.mp hread
    obtain ⟨cell, hcell, hmem⟩ := ih (joinInto rules (read q.1) (read q.2) derived) hrest
    refine ⟨cell, ?_, fun p => ?_⟩
    · rw [List.foldlM_cons, hleft, hright]
      exact hcell
    · rw [hmem, mem_joinInto, or_assoc, List.exists_mem_cons_iff]

section Writing

-- the table is what has been written so far, with room after it that nothing reads
variable (hplace : ∀ t : Span, t.Within n → place t = some (t.position n))

include hplace

theorem read?_eq {t : Span} {room : Array Cell} (ht : t.Within n) (hlt : t.position n < cells.size) :
    read? place (cells ++ room) t = some (cells.getD (t.position n) ∅) := by
  rw [read?, hplace t ht, Option.bind_eq_bind, Option.bind_some, Array.getElem?_append_left hlt,
    Array.getElem?_eq_getElem hlt, Array.getD, dif_pos hlt]
  rfl

theorem gather?_eq {room : Array Cell} (h : done ++ s :: rest = Span.all n)
    (hsize : cells.size = done.length) :
    gather? place rules (cells ++ room) s = some (deriveCell rules n cells s) := by
  let read : Span → Cell := fun t => cells.getD (t.position n) ∅
  have hread : ∀ q ∈ s.splits, read? place (cells ++ room) q.1 = some (read q.1) ∧
      read? place (cells ++ room) q.2 = some (read q.2) := by
    intro q hq
    obtain ⟨hleft, hright⟩ := Span.within_of_mem_splits (within_of_append h) hq
    obtain ⟨hl, hr⟩ := position_lt_of_mem_splits h hq
    rw [← hsize] at hl hr
    exact ⟨read?_eq hplace hleft.1 hl, read?_eq hplace hright.1 hr⟩
  obtain ⟨cell, hcell, hmem⟩ := exists_foldlM_joinInto read ∅ hread
  have heq : cell = deriveCell rules n cells s := by
    refine OrderedSet.ext fun p => ?_
    rw [hmem, mem_deriveCell]
    simp only [BinaryRule.joins, Bool.and_eq_true, decide_eq_true_eq, OrderedSet.not_mem_empty, false_or]
    constructor
    · rintro ⟨q, hq, r, hr, hjoins, hhead⟩
      exact ⟨r, hr, hhead, q, hq, hjoins⟩
    · rintro ⟨r, hr, hhead, q, hq, hjoins⟩
      exact ⟨q, hq, r, hr, hjoins, hhead⟩
  rw [gather?, hcell, heq]

/-- **A cell that is written to its place is appended to those before it.** -/
theorem write?_eq (h : done ++ s :: rest = Span.all n) (hsize : cells.size = done.length) (k : Nat) :
    write? place rules (cells ++ Array.replicate (k + 1) ∅) s =
      some (cells.push (deriveCell rules n cells s) ++ Array.replicate k ∅) := by
  have hposition : s.position n = cells.size := by rw [hsize, position_eq_length h]
  have hinside : cells.size < (cells ++ Array.replicate (k + 1) (∅ : Cell)).size := by simp
  rw [write?, gather?_eq hplace h hsize, hplace s (within_of_append h), hposition]
  simp only [Option.bind_eq_bind, Option.bind_some, if_pos hinside]
  refine congrArg some (Array.toList_inj.mp ?_)
  simp [List.replicate_succ]

theorem fill?_eq (h : done ++ spans ++ rest = Span.all n) (hsize : cells.size = done.length) (k : Nat) :
    fill? place rules spans (cells ++ Array.replicate (spans.length + k) ∅) =
      some (fillSpans rules n spans cells ++ Array.replicate k ∅) := by
  -- on the spans that are left to write; what is written stands in front of the room for the others
  induction spans generalizing done cells with
  | nil => simp [fill?, fillSpans]
  | cons s spans ih =>
    have hrow : done ++ s :: (spans ++ rest) = Span.all n := by rw [← h, List.append_assoc]; rfl
    have hnext : done ++ [s] ++ spans ++ rest = Span.all n := by rw [← hrow]; simp
    have hpushed : (cells.push (deriveCell rules n cells s)).size = (done ++ [s]).length := by
      rw [Array.size_push, hsize, List.length_append, List.length_singleton]
    have hlength : (s :: spans).length + k = spans.length + k + 1 := by rw [List.length_cons]; omega
    rw [fill?, List.foldlM_cons, hlength, write?_eq hplace hrow hsize]
    exact ih hnext hpushed

end Writing

/-! ## The table at any time -/

section Table

variable (hbase : base.size = n)

include hbase

theorem resize_eq : resize (n * (n + 1) / 2) base = base ++ Array.replicate (Span.longer n).length ∅ := by
  have hcount := Span.length_longer (n := n)
  have hroom : n * (n + 1) / 2 - base.size = (Span.longer n).length := by omega
  have hsize : (base ++ Array.replicate (Span.longer n).length (∅ : Cell)).size ≤ n * (n + 1) / 2 := by
    rw [Array.size_append, Array.size_replicate]
    omega
  rw [resize, hroom, Array.take_eq_extract, Array.extract_eq_self_of_le hsize]

/-- **The table after some of its cells are written**: as if they were appended, with room for the others. -/
theorem fill?_resize (hplace : ∀ t : Span, t.Within n → place t = some (t.position n))
    (h : Span.longer n = spans ++ rest) : fill? place rules spans (resize (n * (n + 1) / 2) base) =
      some (fillSpans rules n spans base ++ Array.replicate rest.length ∅) := by
  have hsize : base.size = (Span.ofGap n 0).length := by rw [hbase, Span.length_ofGap, Nat.sub_zero]
  rw [resize_eq hbase, h, List.length_append]
  exact fill?_eq hplace (Span.all_eq_of_longer_eq h) hsize rest.length

theorem loops?_resize (hplace : ∀ t : Span, t.Within n → place t = some (t.position n)) :
    loops? place rules n (resize (n * (n + 1) / 2) base) = some (fillCells rules n base) := by
  rw [loops?_eq, fill?_resize hbase hplace (List.append_nil _).symm, List.length_nil,
    Array.replicate_zero, Array.append_empty]
  rfl

/-- **What a cell is derived from is in the table**, and it will not be written again. -/
theorem exists_final_cell (h : Span.longer n = spans ++ s :: rest) {room : Array Cell} {q : Span × Span}
    (hq : q ∈ s.splits) {t : Span} (ht : t = q.1 ∨ t = q.2) : t.Within n ∧ t.gap < s.gap ∧
      ∃ cell, (fillSpans rules n spans base ++ room)[t.position n]? = some cell ∧
        (fillCells rules n base)[t.position n]? = some cell := by
  subst hbase
  obtain ⟨hleft, hright⟩ := Span.within_of_mem_splits (within_of_append (Span.all_eq_of_longer_eq h)) hq
  obtain ⟨hl, hr⟩ := readsInside rules base spans rest s h q hq
  have hpart : (t.Within base.size ∧ t.gap < s.gap) ∧
      t.position base.size < (fillSpans rules base.size spans base).size := by
    rcases ht with rfl | rfl
    · exact ⟨hleft, hl⟩
    · exact ⟨hright, hr⟩
  obtain ⟨⟨hwithin, hgap⟩, hinside⟩ := hpart
  have hfinal : fillCells rules base.size base =
      fillSpans rules base.size (s :: rest) (fillSpans rules base.size spans base) := by
    rw [← fillSpans_append, ← h]
    rfl
  refine ⟨hwithin, hgap, (fillSpans rules base.size spans base)[t.position base.size], ?_, ?_⟩
  · rw [Array.getElem?_append_left hinside, Array.getElem?_eq_getElem hinside]
  · rw [hfinal, getElem?_fillSpans hinside, Array.getElem?_eq_getElem hinside]

theorem size_fillCells : (fillCells rules n base).size = n * (n + 1) / 2 := by
  have hsize : (fillCells rules n base).size = base.size + (Span.longer n).length := size_fillSpans
  rw [hsize, hbase, Span.length_longer]

end Table

end InPlace

theorem bijOn_position (n : Nat) :
    Set.BijOn (Span.position n) {s | s.Within n} (Set.Iio (n * (n + 1) / 2)) := by
  refine ⟨fun s hs => Span.position_lt hs, fun s hs t ht => Span.position_inj hs ht, fun k hk => ?_⟩
  have hk : k < (Span.all n).length := by rwa [Span.length_all]
  exact ⟨(Span.all n)[k], Span.mem_all.mp (List.getElem_mem hk),
    Span.position_eq_of_getElem? (List.getElem?_eq_getElem hk)⟩

/-- **The table of a word of any length.** The positions of its spans are a bijection to the places of a table with
room for all spans. They are ordered by gap and then by first place, the halving in a position and in the size is
exact, and the single places come first, where the base row stays. The loops write each place after the base row
once and in order. They read and write inside the table only, what a cell is derived from belongs to shorter spans
and has its final content, and the table comes out as if the cells had been appended one by one. The place where a
cell of a chart is looked up is in the table. For a word of less than `2 ^ 32` places no number on the way leaves
its 64 bits. -/
theorem inPlace_fills_triangle (n : Nat) :
    Set.BijOn (Span.position n) {s | s.Within n} (Set.Iio (n * (n + 1) / 2)) ∧
    (∀ s t : Span, s.Within n → t.Within n →
      (s.position n < t.position n ↔ s.gap < t.gap ∨ (s.gap = t.gap ∧ s.first < t.first))) ∧
    ((∀ s : Span, s.Within n → 2 ∣ s.gap * (2 * n - s.gap + 1)) ∧ 2 ∣ n * (n + 1)) ∧
    (∀ i < n, (⟨i, i⟩ : Span).position n = i) ∧
    ((∀ place rules cells, InPlace.loops? place rules n cells =
        InPlace.fill? place rules (Span.longer n) cells) ∧
      (Span.longer n).map (Span.position n) = List.range' n (n * (n + 1) / 2 - n)) ∧
    (∀ (rules : List BinaryRule) (base : Array Cell), base.size = n →
      let table := InPlace.resize (n * (n + 1) / 2) base
      let place : Span → Option Nat := fun s => some (s.position n)
      (∀ i < n, table[i]? = base[i]? ∧ (fillCells rules n base)[i]? = base[i]?) ∧
      (fillCells rules n base).size = n * (n + 1) / 2 ∧
      InPlace.loops? place rules n table = some (fillCells rules n base) ∧
      ∀ spans s rest, Span.longer n = spans ++ s :: rest →
        ∃ cells, InPlace.fill? place rules spans table = some cells ∧ s.position n < cells.size ∧
          ∀ q ∈ s.splits, ∀ t, t = q.1 ∨ t = q.2 → t.Within n ∧ t.gap < s.gap ∧
            ∃ cell, cells[t.position n]? = some cell ∧ (fillCells rules n base)[t.position n]? = some cell) ∧
    (∀ (g : Grammar) (base : List Cell), base.length = n → ∀ i j, (⟨i, j⟩ : Span).Within n →
      (⟨i, j⟩ : Span).position n < (Chart.ofBase g base).cells.size) ∧
    (n < 2 ^ 32 → size64? n = some (n * (n + 1) / 2) ∧
      (∀ s : Span, s.Within n → s.position64? n = some (s.position n)) ∧
      ∀ (rules : List BinaryRule) (base : Array Cell), base.size = n →
        InPlace.build64? rules base = some (fillCells rules n base)) := by
  have hplace : ∀ t : Span, t.Within n → some (t.position n) = some (t.position n) := fun _ _ => rfl
  refine ⟨bijOn_position n, fun s t => Span.position_lt_iff, ⟨fun s hs => ?_, ?_⟩,
    fun i _ => Span.position_single, ⟨fun _ _ _ => InPlace.loops?_eq, Span.map_position_longer⟩,
    fun rules base hbase => ⟨fun i hi => ⟨?_, ?_⟩, InPlace.size_fillCells hbase,
      InPlace.loops?_resize hbase hplace, fun spans s rest h => ?_⟩,
    fun g base hbase i j hij => ?_, fun hn => ⟨size64?_eq hn, fun s => Span.position64?_eq hn,
      fun rules base hbase => ?_⟩⟩
  · exact ⟨Span.offset n s.gap, (Span.two_mul_offset hs.gap_le).symm⟩
  · exact (Nat.even_mul_succ_self n).two_dvd
  · rw [InPlace.resize_eq hbase, Array.getElem?_append_left (by rwa [hbase])]
  · exact getElem?_fillSpans (by rwa [hbase])
  · have hinside := Span.position_lt (within_of_append (Span.all_eq_of_longer_eq h))
    have hcount := Span.length_longer (n := n)
    rw [h, List.length_append] at hcount
    refine ⟨_, InPlace.fill?_resize hbase hplace h, ?_,
      fun q hq t ht => InPlace.exists_final_cell hbase h hq ht⟩
    rw [Array.size_append, Array.size_replicate, size_fillSpans]
    omega
  · rw [Chart.size_cells_ofBase, hbase, Span.length_all]
    exact Span.position_lt hij
  · rw [InPlace.build64?, hbase, size64?_eq hn]
    exact InPlace.loops?_resize hbase fun t => Span.position64?_eq hn

theorem textbook_inPlace_baaba :
    let base := ['b', 'a', 'a', 'b', 'a'].map Grammar.textbook.letterCell
    let chart := Chart.ofBase Grammar.textbook base
    let place : Span → Option Nat := fun s => some (s.position 5)
    (⟨1, 3⟩ : Span).position 5 < (⟨0, 3⟩ : Span).position 5 ∧
      (⟨0, 4⟩ : Span).position64? 5 = some ((⟨0, 4⟩ : Span).position 5) ∧
      InPlace.build64? Grammar.textbook.binaryRules base.toArray = some chart.cells ∧
      ∃ cells, InPlace.fill? place Grammar.textbook.binaryRules [⟨0, 1⟩, ⟨1, 2⟩, ⟨2, 3⟩, ⟨3, 4⟩]
          (InPlace.resize 15 base.toArray) = some cells ∧
        ∃ cell, cells[(⟨1, 2⟩ : Span).position 5]? = some cell ∧
          chart.cells[(⟨1, 2⟩ : Span).position 5]? = some cell := by
  intro base chart place
  obtain ⟨-, horder, -, -, -, htable, -, hbits⟩ := inPlace_fills_triangle 5
  obtain ⟨-, hposition, hbuild⟩ := hbits (by decide)
  obtain ⟨-, -, -, hmoment⟩ := htable Grammar.textbook.binaryRules base.toArray rfl
  obtain ⟨cells, hcells, -, hreads⟩ := hmoment [⟨0, 1⟩, ⟨1, 2⟩, ⟨2, 3⟩, ⟨3, 4⟩] ⟨0, 2⟩ _ rfl
  obtain ⟨-, -, hcell⟩ := hreads (⟨0, 0⟩, ⟨1, 2⟩) (by decide) ⟨1, 2⟩ (.inr rfl)
  exact ⟨(horder _ _ (by decide) (by decide)).mpr (.inl (by decide)), hposition _ (by decide), hbuild _ _ rfl,
    cells, hcells, hcell⟩

end Chomsky
