import Chomsky.Chart.Basic
import Chomsky.Proofs.Chart.Span
import Mathlib.Data.List.Forall2

/-!
# Filling in a table

A table is filled in along the row of all spans. Every cell that a longer span reads belongs to a
shorter span, so it is there already and has its final content; hence a property of cells that follows
the splits of a span holds of the whole table if it holds of the single places.

* `position_lt_of_mem_splits`, **`readsInside`**: no read leaves the table;
* `Filled.push`, `Filled.fillSpans`, **`filled_fillCells`**.
-/

namespace Chomsky

variable {rules : List BinaryRule} {n k : Nat} {good : Span → Nat → Prop} {cells base : Array Cell}
  {s : Span} {spans rest : List Span}

/-- The cells of some spans, each with the right members. -/
def Filled (good : Span → Nat → Prop) (spans : List Span) (cells : Array Cell) : Prop :=
  List.Forall₂ (fun s cell => ∀ p, p ∈ cell ↔ good s p) spans cells.toList

/-- A rule that joins the two parts of a split puts its head into the span, and nothing else does. -/
def Follows (rules : List BinaryRule) (n : Nat) (good : Span → Nat → Prop) : Prop :=
  ∀ s : Span, s.Within n → 0 < s.gap → ∀ p, good s p ↔
    ∃ r ∈ rules, r.head = p ∧ ∃ q ∈ s.splits, good q.1 r.left ∧ good q.2 r.right

/-- Filling in the spans one by one. -/
def fillSpans (rules : List BinaryRule) (n : Nat) (spans : List Span) (cells : Array Cell) : Array Cell :=
  spans.foldl (fun cells s => cells.push (deriveCell rules n cells s)) cells

theorem Filled.size_eq (h : Filled good spans cells) : cells.size = spans.length := by
  rw [← Array.length_toList, List.Forall₂.length_eq h]

theorem Filled.mem_getD (h : Filled good spans cells) (hk : spans[k]? = some s) {p : Nat} :
    p ∈ cells.getD k ∅ ↔ good s p := by
  obtain ⟨hlt, rfl⟩ := List.getElem?_eq_some_iff.mp hk
  have hsize : k < cells.size := by rw [h.size_eq]; exact hlt
  rw [Array.getD, dif_pos hsize]
  exact List.Forall₂.get h hlt (by rwa [Array.length_toList]) p

theorem mem_deriveCell {p : Nat} : p ∈ deriveCell rules n cells s ↔ ∃ r ∈ rules, r.head = p ∧
    ∃ q ∈ s.splits, r.left ∈ cells.getD (q.1.position n) ∅ ∧
      r.right ∈ cells.getD (q.2.position n) ∅ := by
  simp only [deriveCell, OrderedSet.mem_ofList, List.mem_map, List.mem_filter, List.any_eq_true,
    BinaryRule.joins, Bool.and_eq_true, decide_eq_true_eq]
  constructor
  · rintro ⟨r, ⟨hr, _, ⟨q, hq, rfl⟩, hj⟩, rfl⟩
    exact ⟨r, hr, rfl, q, hq, hj⟩
  · rintro ⟨r, hr, rfl, q, hq, hj⟩
    exact ⟨r, ⟨hr, _, ⟨q, hq, rfl⟩, hj⟩, rfl⟩

/-! ## Where a cell reads -/

theorem position_eq_length (h : spans ++ s :: rest = Span.all n) : s.position n = spans.length := by
  refine Span.position_eq_of_getElem? ?_
  rw [← h, List.getElem?_append_right (Nat.le_refl _), Nat.sub_self]
  rfl

theorem within_of_append (h : spans ++ s :: rest = Span.all n) : s.Within n := by
  rw [← Span.mem_all, ← h]
  exact List.mem_append_right _ List.mem_cons_self

/-- **A cell is derived from cells that come before it.** -/
theorem position_lt_of_mem_splits (h : spans ++ s :: rest = Span.all n) {q : Span × Span}
    (hq : q ∈ s.splits) : q.1.position n < spans.length ∧ q.2.position n < spans.length := by
  have hs := within_of_append h
  obtain ⟨⟨h1, h2⟩, h3, h4⟩ := Span.within_of_mem_splits hs hq
  rw [← position_eq_length h]
  exact ⟨Span.position_lt_of_gap_lt h1 hs h2, Span.position_lt_of_gap_lt h3 hs h4⟩

theorem getElem?_of_position_lt {t : Span} (h : spans ++ s :: rest = Span.all n) (ht : t.Within n)
    (hlt : t.position n < spans.length) : spans[t.position n]? = some t := by
  rw [← Span.getElem?_position ht, ← h, List.getElem?_append_left hlt]

theorem size_fillSpans : (fillSpans rules n spans cells).size = cells.size + spans.length := by
  induction spans generalizing cells with
  | nil => rfl
  | cons s spans ih =>
    rw [fillSpans, List.foldl_cons, ← fillSpans, ih, Array.size_push, List.length_cons]
    omega

/-- **A cell stays as it is** once it is in the table. -/
theorem getElem?_fillSpans (h : k < cells.size) : (fillSpans rules n spans cells)[k]? = cells[k]? := by
  induction spans generalizing cells with
  | nil => rfl
  | cons s spans ih =>
    rw [fillSpans, List.foldl_cons, ← fillSpans, ih (by rw [Array.size_push]; omega), Array.getElem?_push,
      if_neg (by omega)]

theorem fillSpans_append : fillSpans rules n (spans ++ rest) cells =
    fillSpans rules n rest (fillSpans rules n spans cells) := List.foldl_append

/-- Whenever a cell is derived, every cell it reads is in the table. -/
def ReadsInside (rules : List BinaryRule) (n : Nat) (base : Array Cell) : Prop :=
  ∀ (spans rest : List Span) (s : Span), Span.longer n = spans ++ s :: rest → ∀ q ∈ s.splits,
    q.1.position n < (fillSpans rules n spans base).size ∧
      q.2.position n < (fillSpans rules n spans base).size

/-- **No read leaves the table.** -/
theorem readsInside (rules : List BinaryRule) (base : Array Cell) :
    ReadsInside rules base.size base := by
  intro spans rest s h q hq
  have hsize : (Span.ofGap base.size 0 ++ spans).length = (fillSpans rules base.size spans base).size := by
    rw [size_fillSpans, List.length_append, Span.length_ofGap, Nat.sub_zero]
  rw [← hsize]
  exact position_lt_of_mem_splits (Span.all_eq_of_longer_eq h) hq

/-! ## What a filled table holds -/

theorem Filled.push (hgood : Follows rules n good) (h : spans ++ s :: rest = Span.all n)
    (hs : 0 < s.gap) (hf : Filled good spans cells) :
    Filled good (spans ++ [s]) (cells.push (deriveCell rules n cells s)) := by
  rw [Filled, Array.toList_push]
  refine List.rel_append hf (.cons ?_ .nil)
  intro p
  rw [mem_deriveCell, hgood s (within_of_append h) hs]
  have hread : ∀ q ∈ s.splits, (∀ p, p ∈ cells.getD (q.1.position n) ∅ ↔ good q.1 p) ∧
      ∀ p, p ∈ cells.getD (q.2.position n) ∅ ↔ good q.2 p := by
    intro q hq
    obtain ⟨hw1, hw2⟩ := Span.within_of_mem_splits (within_of_append h) hq
    obtain ⟨hl1, hl2⟩ := position_lt_of_mem_splits h hq
    exact ⟨fun p => hf.mem_getD (getElem?_of_position_lt h hw1.1 hl1),
      fun p => hf.mem_getD (getElem?_of_position_lt h hw2.1 hl2)⟩
  refine exists_congr fun r => and_congr_right fun _ => and_congr_right fun _ =>
    exists_congr fun q => and_congr_right fun hq => ?_
  rw [(hread q hq).1, (hread q hq).2]

theorem Filled.fillSpans (hgood : Follows rules n good) (h : spans ++ rest = Span.all n)
    (hrest : ∀ s ∈ rest, 0 < s.gap) (hf : Filled good spans cells) :
    Filled good (Span.all n) (fillSpans rules n rest cells) := by
  induction rest generalizing spans cells with
  | nil => rwa [← h, List.append_nil]
  | cons s rest ih =>
    refine ih ?_ (fun t ht => hrest t (List.mem_cons_of_mem _ ht))
      (hf.push hgood h (hrest s List.mem_cons_self))
    rw [← h, List.append_assoc]
    rfl

/-- **A table that is right at the single places is right everywhere.** -/
theorem filled_fillCells (hgood : Follows rules n good) (hf : Filled good (Span.ofGap n 0) base) :
    Filled good (Span.all n) (fillCells rules n base) :=
  hf.fillSpans hgood Span.all_eq_append.symm fun _ hs => (Span.mem_longer.mp hs).2

end Chomsky
