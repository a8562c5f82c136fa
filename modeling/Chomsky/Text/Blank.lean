import Chomsky.Text.LetterCase

/-!
# Blanks

The Unicode property `White_Space`, which holds of 25 characters.

* **`letterCase_eq_none_of_isBlank`**: a blank is no letter.
-/

namespace Chomsky

/-- The blank code points, as closed intervals. -/
def blankRuns : List (Nat × Nat) :=
  [(0x9, 0xd), (0x20, 0x20), (0x85, 0x85), (0xa0, 0xa0), (0x1680, 0x1680), (0x2000, 0x200a),
   (0x2028, 0x2029), (0x202f, 0x202f), (0x205f, 0x205f), (0x3000, 0x3000)]

/-- The code points of the intervals, one by one. -/
def blankCodes : List Nat := blankRuns.flatMap fun r => List.range' r.1 (r.2 + 1 - r.1)

/-- A blank lies in one of the intervals. -/
def isBlank (c : Char) : Bool := blankRuns.any fun r => r.1 ≤ c.toNat && c.toNat ≤ r.2

theorem mem_blankCodes_of_isBlank {c : Char} (h : isBlank c = true) : c.toNat ∈ blankCodes := by
  obtain ⟨r, hr, hc⟩ := List.any_eq_true.mp h
  simp only [Bool.and_eq_true, decide_eq_true_eq] at hc
  exact List.mem_flatMap.mpr ⟨r, hr, List.mem_range'_1.mpr (by omega)⟩

/-- **A blank is no letter.** -/
theorem letterCase_eq_none_of_isBlank {c : Char} (h : isBlank c = true) : letterCase c = none := by
  have h1 : ∀ n ∈ blankCodes, letterCase (Char.ofNat n) = none := by decide +kernel
  have h2 := h1 _ (mem_blankCodes_of_isBlank h)
  rwa [Char.ofNat_toNat] at h2

end Chomsky
