import Chomsky.Proofs.Grammar.WellFormed
import Mathlib.Data.List.Nodup
import Mathlib.Data.List.Perm.Subperm
import Mathlib.Data.List.ProdSigma

/-!
# How many alternatives there are

The alternatives of a head are listed once each, and they are made of cased letters, of which there are
few: a 32-bit number is always enough to choose among them.

* **`Grammar.WellFormed.length_alternatives_lt`**.
-/

namespace Chomsky

theorem OrderedSet.nodup {α : Type} [Ranked α] (s : OrderedSet α) : s.toList.Nodup := by
  refine List.Pairwise.imp ?_ s.ascending
  rintro a _ h rfl
  exact Nat.lt_irrefl _ h

/-- Every letter that has a case, run by run. -/
def casedLetters : List Char :=
  caseRuns.flatMap fun r => (List.range' r.first (r.last + 1 - r.first)).map Char.ofNat

theorem mem_casedLetters {c : Char} {k : LetterCase} (h : letterCase c = some k) :
    c ∈ casedLetters := by
  unfold letterCase at h
  split at h
  · rename_i r hr
    rw [Option.ite_none_right_eq_some] at h
    have hlast : c.toNat ≤ r.last := by simpa using List.find?_some hr
    refine List.mem_flatMap.mpr ⟨r, List.mem_of_find?_eq_some hr, List.mem_map.mpr ⟨c.toNat, ?_, ?_⟩⟩
    · exact List.mem_range'_1.mpr (by omega)
    · exact Char.ofNat_toNat c
  · cases h

theorem length_casedLetters : casedLetters.length < 0x8000 := by
  rw [casedLetters, List.length_flatMap]
  decide +kernel

/-- The alternatives over a list of letters. -/
def alternativesOver (letters : List Char) : List Alternative :=
  (letters ×ˢ letters).map (fun p => .binary p.1 p.2) ++ letters.map .unary

theorem length_alternativesOver (letters : List Char) :
    (alternativesOver letters).length = letters.length * letters.length + letters.length := by
  rw [alternativesOver, List.length_append, List.length_map, List.length_map, List.length_product]

namespace Grammar

variable {g : Grammar}

theorem nodup_alternatives (g : Grammar) (c : Char) : (g.alternatives c).Nodup :=
  (g.productions.of c).nodup

theorem WellFormed.mem_alternativesOver (hg : g.WellFormed) {c : Char} {a : Alternative}
    (ha : a ∈ g.alternatives c) : a ∈ alternativesOver casedLetters := by
  have hd := hg.declares _ ((g.mem_alternatives).mp ha)
  rw [alternativesOver, List.mem_append, List.mem_map, List.mem_map]
  cases a with
  | binary l r =>
    have hl := mem_casedLetters (of_decide_eq_true (hg.upper _ hd.1))
    have hr := mem_casedLetters (of_decide_eq_true (hg.upper _ hd.2))
    exact .inl ⟨(l, r), List.mem_product.mpr ⟨hl, hr⟩, rfl⟩
  | unary t => exact .inr ⟨t, mem_casedLetters (of_decide_eq_true (hg.lower _ hd)), rfl⟩

/-- **A head has fewer alternatives than there are 32-bit numbers.** -/
theorem WellFormed.length_alternatives_lt (hg : g.WellFormed) (c : Char) :
    (g.alternatives c).length < 0x100000000 := by
  have hle := (List.subperm_of_subset (g.nodup_alternatives c)
    fun _ ha => hg.mem_alternativesOver ha).length_le
  have hsquare := Nat.mul_le_mul (Nat.le_of_lt length_casedLetters) (Nat.le_of_lt length_casedLetters)
  have hlt := length_casedLetters
  rw [length_alternativesOver] at hle
  omega

end Grammar

end Chomsky
