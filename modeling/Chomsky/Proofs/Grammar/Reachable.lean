import Chomsky.RuleFile.Reading
import Chomsky.Proofs.Grammar.WellFormed

/-!
# Reachable grammars

The grammars that a user can come to hold: nothing at first or what a file says, and then any
changes, the refused ones included.

* **`Reachable.exists_after`**, `Reachable.wellFormed`.
-/

namespace Chomsky

/-- **A grammar that can come about.** -/
inductive Grammar.Reachable : Grammar → Prop where
  | empty : Reachable ∅
  | read {path : Path} {text : String} {g : Grammar} (h : readText path text = .ok g) : Reachable g
  | attempt {g : Grammar} (h : Reachable g) (change : Change) : Reachable (g.attempt change)

/-! ## The stages of reading -/

section Stages

variable {g g' : Grammar} {rules : List (Located Rule)} {written : List (Located (Char × String))}

theorem readRules_eq_ok_iff {path : Path} {lines : List RawLine} : readRules path lines = .ok g ↔
    errorsOf (readLines path lines) = [] ∧
      grammarOfRules (valuesOf (readLines path lines)) = .ok g := by
  rw [readRules]
  cases errorsOf (readLines path lines) <;> simp

theorem grammarOfRules_eq_ok_iff : grammarOfRules rules = .ok g ↔ undefinedUses rules = [] ∧
    addAll ((∅ : Grammar).after (declarations rules)) (writtenProductions rules) = (g, []) := by
  rw [grammarOfRules]
  cases undefinedUses rules with
  | nil =>
    rcases addAll ((∅ : Grammar).after (declarations rules)) (writtenProductions rules) with ⟨g', l⟩
    cases l <;> simp
  | cons e l => simp

theorem addAll_cons_eq_nil_iff {p : Located (Char × String)} :
    addAll g (p :: written) = (g', []) ↔
      ∃ g₁, g.addWritten p.item.1 p.item.2 = (.ok (), g₁) ∧ addAll g₁ written = (g', []) := by
  rw [addAll]
  rcases g.addWritten p.item.1 p.item.2 with ⟨e | u, g₁⟩ <;> simp

theorem after_of_addAll (h : addAll g written = (g', [])) :
    g' = g.after (written.map fun p => .addWritten p.item.1 p.item.2) := by
  induction written generalizing g with
  | nil => exact (congrArg Prod.fst h).symm
  | cons p written ih =>
    obtain ⟨g₁, h1, h2⟩ := addAll_cons_eq_nil_iff.mp h
    have h3 : g.attempt (.addWritten p.item.1 p.item.2) = g₁ := by
      rw [Grammar.attempt, Change.apply, h1]
    rw [List.map_cons, Grammar.after_cons, h3]
    exact ih h2

theorem exists_after_of_readText {path : Path} {text : String} (h : readText path text = .ok g) :
    ∃ history, g = (∅ : Grammar).after history := by
  have h1 := (readRules_eq_ok_iff.mp h).2
  have h2 := after_of_addAll (grammarOfRules_eq_ok_iff.mp h1).2
  rw [← Grammar.after_append] at h2
  exact ⟨_, h2⟩

end Stages

namespace Grammar.Reachable

variable {g : Grammar}

theorem after (h : g.Reachable) (history : List Change) : (g.after history).Reachable := by
  induction history generalizing g with
  | nil => exact h
  | cons change history ih => exact ih (h.attempt change)

/-- **A reachable grammar has a history that begins with nothing.** -/
theorem exists_after (h : g.Reachable) : ∃ history, g = (∅ : Grammar).after history := by
  induction h with
  | empty => exact ⟨[], rfl⟩
  | read h => exact exists_after_of_readText h
  | attempt h change ih =>
    obtain ⟨history, rfl⟩ := ih
    refine ⟨history ++ [change], ?_⟩
    rw [after_append]
    rfl

theorem wellFormed (h : g.Reachable) : g.WellFormed := by
  obtain ⟨history, rfl⟩ := h.exists_after
  exact WellFormed.empty.after history

end Grammar.Reachable

/-! ## A grammar to look at -/

namespace Grammar

/-- `S::=AB|BC`, `A::=BA|a`, `B::=CC|b` and `C::=AB|a`. -/
def textbook : Grammar := (∅ : Grammar).after
  [.declareNonterminal 'S', .declareNonterminal 'A', .declareNonterminal 'B',
    .declareNonterminal 'C', .declareTerminal 'a', .declareTerminal 'b', .setStart 'S',
    .add ⟨'S', .binary 'A' 'B'⟩, .add ⟨'S', .binary 'B' 'C'⟩, .add ⟨'A', .binary 'B' 'A'⟩,
    .add ⟨'A', .unary 'a'⟩, .add ⟨'B', .binary 'C' 'C'⟩, .add ⟨'B', .unary 'b'⟩,
    .add ⟨'C', .binary 'A' 'B'⟩, .add ⟨'C', .unary 'a'⟩]

theorem reachable_textbook : textbook.Reachable := Reachable.empty.after _

end Grammar

end Chomsky
