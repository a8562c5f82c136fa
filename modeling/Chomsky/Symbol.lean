import Chomsky.Text.Blank

/-!
# Symbols

The letter case of a character decides its role in a grammar: upper case names a nonterminal,
lower case is a terminal, and any other character is no symbol at all.

* **`Symbol.ofChar?`**, with `Symbol.char_of_ofChar?`;
* `FirstWithout`: the leftmost character of a word without a property.
-/

namespace Chomsky

/-- A word over the terminals, or a sentential form over all symbols. -/
abbrev Word : Type := List Char

inductive Symbol where
  | nonterminal (name : Char)
  | terminal (letter : Char)
deriving DecidableEq, Repr

namespace Symbol

def char : Symbol → Char
  | nonterminal c => c
  | terminal c => c

def nonterminal? : Symbol → Option Char
  | nonterminal c => some c
  | terminal _ => none

/-- **The symbol a character stands for**, by its letter case. -/
def ofChar? (c : Char) : Option Symbol :=
  match letterCase c with
  | some .upper => some (nonterminal c)
  | some .lower => some (terminal c)
  | none => none

theorem char_of_ofChar? {c : Char} {s : Symbol} (h : ofChar? c = some s) : s.char = c := by
  unfold ofChar? at h
  split at h <;> simp only [Option.some.injEq, reduceCtorEq] at h
  · rw [← h, char]
  · rw [← h, char]

end Symbol

/-! ## Leftmost characters -/

/-- The leftmost character of a word that lacks a property. -/
def FirstWithout (P : Char → Prop) (w : Word) (c : Char) : Prop :=
  ∃ before after, w = before ++ c :: after ∧ (∀ b ∈ before, P b) ∧ ¬ P c

theorem find?_eq_some_iff_firstWithout {P : Char → Prop} {test : Char → Bool}
    (h : ∀ c, test c = true ↔ P c) {w : Word} {c : Char} :
    w.find? (!test ·) = some c ↔ FirstWithout P w c := by
  rw [List.find?_eq_some_iff_append, FirstWithout]
  simp only [Bool.not_eq_true', Bool.not_not, h, ← Bool.not_eq_true]
  constructor
  · rintro ⟨hc, before, after, hw, hb⟩
    exact ⟨before, after, hw, hb, hc⟩
  · rintro ⟨before, after, hw, hb, hc⟩
    exact ⟨hc, before, after, hw, hb⟩

theorem find?_eq_none_iff_forall {P : Char → Prop} {test : Char → Bool}
    (h : ∀ c, test c = true ↔ P c) {w : Word} : w.find? (!test ·) = none ↔ ∀ c ∈ w, P c := by
  simp only [List.find?_eq_none, Bool.not_eq_true', Bool.not_eq_false, h]

end Chomsky
