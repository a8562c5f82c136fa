/-!
# Spans of a word

A span is a nonempty piece of a word, given by its first and its last place. The spans of a word of
length `n` are laid out in one row, the shortest first and those of one length by their first place.

* `Span.ofGap`, `Span.all`, `Span.longer`: the spans in the order of their positions;
* `Span.splits`: the ways to cut a span in two.
-/

namespace Chomsky

/-- **The places from `first` to `last`**, both included. -/
structure Span where
  first : Nat
  last : Nat
deriving DecidableEq, Repr

namespace Span

/-- The distance from the first to the last place. -/
def gap (s : Span) : Nat := s.last - s.first

/-- A span of a word of length `n`. -/
def Within (n : Nat) (s : Span) : Prop := s.first ≤ s.last ∧ s.last < n

instance (n : Nat) (s : Span) : Decidable (s.Within n) := by unfold Within; infer_instance

/-- **The position of a span** in the row of all spans of a word of length `n`: the spans of smaller
gap come before it, and those of its gap that begin earlier. -/
def position (n : Nat) (s : Span) : Nat := s.gap * (2 * n - s.gap + 1) / 2 + s.first

/-- The spans of one gap in a word of length `n`. -/
def ofGap (n gap : Nat) : List Span := (List.range (n - gap)).map fun first => ⟨first, first + gap⟩

def all (n : Nat) : List Span := (List.range n).flatMap (ofGap n)

/-- Every span of at least two places in a word of length `n`. -/
def longer (n : Nat) : List Span := (List.range' 1 (n - 1)).flatMap (ofGap n)

/-- **The ways to cut a span** into a left and a right one. -/
def splits (s : Span) : List (Span × Span) :=
  (List.range' s.first s.gap).map fun k => (⟨s.first, k⟩, ⟨k + 1, s.last⟩)

theorem within_of_mem_splits {n : Nat} {s l r : Span} (hs : s.Within n) (h : (l, r) ∈ s.splits) :
    (l.Within n ∧ l.gap < s.gap) ∧ r.Within n ∧ r.gap < s.gap := by
  obtain ⟨k, hk, e⟩ := List.mem_map.mp h
  cases e
  obtain ⟨h1, h2⟩ := hs
  have h3 := List.mem_range'_1.mp hk
  simp only [Within, gap] at *
  omega

end Span

end Chomsky
